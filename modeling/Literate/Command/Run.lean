import Literate.Command.Arguments
import Literate.Difference
import Literate.FileTree
import Literate.Region.Exchange

/-!
# Carrying out commands

A command looks at a file tree and at its standard input, and has an outcome: what it prints, how it
ends, and the file it writes, if any.  It is an `Action`, one step after the other.  What the steps
before a failure have printed and written stays printed and written.
-/

namespace Literate

/-- Why a command fails. -/
inductive Failure where
  /-- The written path leads nowhere. -/
  | invalidPath (written : Text) (error : PathError)
  | device (path : Path)
  | pipe (path : Path)
  | directory (path : Path)
  /-- A source file may not be read. -/
  | denied (path : Path)
  /-- A source file is not well-formed UTF-8. -/
  | illegible (path : Path)
  /-- The file with the edited regions may not be read. -/
  | deniedRegions
  /-- The edited regions are not well-formed UTF-8. -/
  | illegibleRegions
  /-- The edited regions are not what they should be. -/
  | invalidRegions
  /-- The document cannot be loaded or saved. -/
  | document (path : Path) (error : Error)
  deriving DecidableEq, Repr

namespace Failure

/-- What is said of bytes that are not well-formed UTF-8. -/
def notUtf8 : Text :=
  "stream did not contain valid UTF-8"

def message : Failure → Text
  | invalidPath written error => "Invalid path " ++ written ++ ": " ++ error.message
  | device path => "Cannot read device file " ++ path.text
  | pipe path => "Cannot read pipe or socket " ++ path.text
  | directory path => path.text ++ " is a directory"
  | denied path => "Cannot read " ++ path.text ++ ": " ++ PathError.permissionDenied.message
  | illegible path => "Cannot read " ++ path.text ++ ": " ++ notUtf8
  | deniedRegions => PathError.permissionDenied.message
  | illegibleRegions => notUtf8
  | invalidRegions => "Invalid regions JSON"
  | document path error => path.text ++ ": " ++ error.message

/-- The last line of a program that fails.  A failure to read regions carries its kind, any other is
its message. -/
def report : Failure → Text
  | deniedRegions =>
    "Error: Os \x7b code: 13, kind: PermissionDenied, message: \"Permission denied\" \x7d"
  | illegibleRegions =>
    "Error: Error \x7b kind: InvalidData, message: " ++ notUtf8.quoted ++ " \x7d"
  | failure => "Error: " ++ failure.message.quoted

end Failure

/-- How a command ends. -/
inductive Status where
  | success
  /-- A check found something. -/
  | found
  | failed (failure : Failure)
  deriving DecidableEq, Repr

structure Outcome where
  output : Text := []
  status : Status := .success
  /-- The file to write. -/
  written : Option (Path × Text) := none
  deriving DecidableEq, Repr

def Outcome.exitCode (outcome : Outcome) : Nat :=
  match outcome.status with
  | .success => 0
  | _ => 1

/-- The tree after a command. -/
def FileTree.after (tree : FileTree) (outcome : Outcome) : FileTree :=
  match outcome.written with
  | none => tree
  | some (path, text) => tree.write path text.toBytes

/-! ## Actions -/

/-- Steps of a command.  Each can fail, and adds to the outcome so far; a failure leaves the outcome
as it is then. -/
abbrev Action :=
  ExceptT Failure (StateM Outcome)

namespace Action

variable {α β : Type}

/-- The result of an action behind what was done before, and all that is done after it. -/
def runFrom (action : Action α) (done : Outcome) : Except Failure α × Outcome :=
  (ExceptT.run action).run done

@[simp]
theorem runFrom_bind (action : Action α) (next : α → Action β) (done : Outcome) :
    (action >>= next).runFrom done =
      match action.runFrom done with
      | (.ok value, done) => (next value).runFrom done
      | (.error failure, done) => (.error failure, done) := by
  have h : (action >>= next).runFrom done =
      ExceptT.bindCont next (action.runFrom done).1 (action.runFrom done).2 := rfl
  rw [h]
  rcases action.runFrom done with ⟨_ | _, _⟩ <;> rfl

/-- To find something out adds nothing to the outcome. -/
@[simp]
theorem runFrom_lift (result : Except Failure α) (done : Outcome) :
    runFrom (liftM result) done = (result, done) :=
  rfl

def print (text : Text) : Action Unit :=
  modify fun done => { done with output := done.output ++ text }

def write (path : Path) (text : Text) : Action Unit :=
  modify fun done => { done with written := some (path, text) }

def finish (status : Status) : Action Unit :=
  modify fun done => { done with status }

/-- A tree as it is now, after what was written to it. -/
def look (tree : FileTree) : Action FileTree := do
  return tree.after (← get)

@[simp]
theorem runFrom_look (tree : FileTree) (done : Outcome) :
    (look tree).runFrom done = (.ok (tree.after done), done) :=
  rfl

end Action

/-! ## Reading files -/

/-- The path without links of what may be a file.  Where the way to it is closed nothing can be
said of it. -/
def FileTree.locate (tree : FileTree) (written : Text) : Except Failure Path :=
  match tree.resolve written with
  | .error error => .error (.invalidPath written error)
  | .ok path =>
    if tree.searchable path.dropLast then
      match tree.entry? path with
      | some (.file _) | some (.sealed _) => .ok path
      | some .directory | some .closed => .error (.directory path)
      | some .device => .error (.device path)
      | some .pipe => .error (.pipe path)
      | some (.link _) => .error (.invalidPath written .tooManyLinks)
      | none => .error (.invalidPath written .notFound)
    else .ok path

/-- A file that can be read: its path and its content. -/
def FileTree.readable (tree : FileTree) (written : Text) : Except Failure (Path × ByteArray) := do
  let path ← tree.locate written
  match tree.readAt? path with
  | some content => .ok (path, content)
  | none => .error (.denied path)

/-- A source file. -/
structure SourceFile where
  path : Path
  source : Text
  deriving DecidableEq, Repr

namespace SourceFile

def read (tree : FileTree) (written : Text) : Except Failure SourceFile := do
  let (path, content) ← tree.readable written
  match Text.ofBytes? content with
  | some source => .ok { path, source }
  | none => .error (.illegible path)

/-- The document in the file. -/
def load (config : Config) (file : SourceFile) : Except Failure Document :=
  (Document.load config.registry file.source file.path.extension config.mode).mapError
    (.document file.path)

/-- The source text of edited regions of the document in the file. -/
def save (file : SourceFile) (document : Document) (regions : List EditedRegion) :
    Except Failure Text :=
  (document.save regions).mapError (.document file.path)

end SourceFile

/-- The document in the file that a written path leads to. -/
def loadFile (config : Config) (tree : FileTree) (written : Text) : Except Failure Document := do
  (← SourceFile.read tree written).load config

/-! ## The commands -/

namespace Run

open Literate.Action

/-- A column of text, filled up with spaces. -/
def column (width : Nat) (text : Text) : Text :=
  text ++ List.replicate (width - text.length) ' '

/-- What the list of languages says of a language besides its name and extensions. -/
def note (language : Language) : Text :=
  if language.docOnly then "  (doc only)"
  else if language.saveMarker?.isNone then "  (read only docs)"
  else ""

def languageLine (language : Language) : Text :=
  column 12 language.name ++ " " ++ Text.join " " (language.extensions.map ('.' :: ·)) ++
    note language ++ "\n"

def languages : Text :=
  Language.table.flatMap languageLine

def blockLine : Block → Text
  | .code text => "code " ++ text.quoted ++ "\n"
  | .inlineDoc indent marker _ text =>
    "doc  indent=" ++ indent.quoted ++ " marker=" ++ marker.quoted ++ " " ++ text.quoted ++ "\n"
  | .blockDoc _ text => "doc  block " ++ text.quoted ++ "\n"

/-- The blocks of a document, one on a line. -/
def classify (document : Document) : Text :=
  document.blocks.flatMap blockLine

/-- The regions of a document, for an editing surface. -/
def load (document : Document) : Text :=
  document.toJson.pretty [] ++ "\n"

/-- The edited regions, from the file that a written path leads to or else from standard input. -/
def editedRegions (tree : FileTree) (input : ByteArray) (regions : Option Text) :
    Except Failure (List EditedRegion) := do
  let bytes ← match regions with
    | none => .ok input
    | some written => do
      match tree.readAt? (← tree.locate written) with
      | some content => .ok content
      | none => .error .deniedRegions
  let some text := Text.ofBytes? bytes
    | .error .illegibleRegions
  let some edited := (Json.ofText? text).bind EditedRegion.ofExchange?
    | .error .invalidRegions
  .ok edited

/-- Put a file together from edited regions, in its place or on standard output. -/
def save (config : Config) (tree : FileTree) (input : ByteArray) (written : Text)
    (regions : Option Text) (inPlace : Bool) : Action Unit := do
  let file ← SourceFile.read (← look tree) written
  let document ← file.load config
  let edited ← editedRegions (← look tree) input regions
  let text ← file.save document edited
  if inPlace then write file.path text else print text

/-- A file, and what loading and saving makes of it. -/
def roundTrip (config : Config) (tree : FileTree) (written : Text) :
    Except Failure (Text × Text) := do
  let file ← SourceFile.read tree written
  let document ← file.load config
  .ok (file.source, ← file.save document document.editedRegions)

/-- What a check says of one file, and whether the file passes. -/
def checkFile (config : Config) (tree : FileTree) (written : Text) : Text × Bool :=
  match roundTrip config tree written with
  | .error failure => ("error   " ++ written ++ ": " ++ failure.message ++ "\n", false)
  | .ok (source, saved) =>
    if saved == source then ("ok      " ++ written ++ "\n", true)
    else
      ("changed " ++ written ++ "\n" ++
        Difference.report written (written ++ " (saved)") source saved, false)

/-- Check that loading and saving gives every file back. -/
def check (config : Config) (tree : FileTree) (files : List Text) : Action Unit := do
  let passed ← files.mapM fun written => do
    let (report, passed) := checkFile config (← look tree) written
    print report
    return passed
  unless passed.all id do
    finish .found

/-- Print what a function makes of the document in a file. -/
def display (view : Document → Text) (config : Config) (tree : FileTree) (written : Text) :
    Action Unit := do
  let document ← loadFile config (← look tree) written
  print (view document)

/-- What a command does. -/
def action (config : Config) (tree : FileTree) (input : ByteArray) : Command → Action Unit
  | .languages => print languages
  | .classify file => display classify config tree file
  | .render file => display Document.html config tree file
  | .load file => display load config tree file
  | .save file regions inPlace => save config tree input file regions inPlace
  | .check files => check config tree files

/-- The outcome of a command that does not fail. -/
def command (config : Config) (tree : FileTree) (input : ByteArray) (command : Command) :
    Except Failure Outcome :=
  match (action config tree input command).runFrom {} with
  | (.ok _, done) => .ok done
  | (.error failure, _) => .error failure

/-- The outcome of a command, whether it fails or not.  What was done before the failure is done. -/
def outcome (config : Config) (tree : FileTree) (input : ByteArray) (command : Command) : Outcome :=
  match (action config tree input command).runFrom {} with
  | (.ok _, done) => done
  | (.error failure, done) => { done with status := .failed failure }

end Run

/-- The outcome of a command line. -/
def Invocation.run (invocation : Invocation) (tree : FileTree) (input : ByteArray) : Outcome :=
  Run.outcome (invocation.applyTo (Config.configure {})) tree input invocation.command

end Literate
