import Literate.Command.Run

/-!
# The program

The outer layer: it looks up the files that a command names, lets the command run on them, and does
what the outcome says.
-/

namespace Literate

namespace Program

def string (text : Text) : String :=
  String.ofList text

/-- The names in a path that the system gave. -/
def pathOf (written : String) : Path :=
  (Path.split written.toList).filter (!·.isEmpty)

/-- The path without links and detours, if it leads anywhere. -/
def realPath? (path : Path) : IO (Option Path) := do
  match ← (IO.FS.realPath (string path.text)).toBaseIO with
  | .ok real => return some (pathOf real.toString)
  | .error _ => return none

/-- What stands at a path without links. -/
def entryAt (path : Path) : IO Entry := do
  let real ← IO.FS.realPath (string path.text)
  match (← real.metadata).type with
  | .dir =>
    -- The directory is looked up in itself.
    match ← (real / ".").metadata.toBaseIO with
    | .ok _ => return .directory
    | .error _ => return .closed
  | .file =>
    match ← (IO.FS.readBinFile real).toBaseIO with
    | .ok content => return .file content
    | .error _ => return .sealed ByteArray.empty
  | _ => return if path.head? == some "dev".toList then .device else .pipe

/-- A tree in which a path without links can be reached. -/
def add (tree : FileTree) (path : Path) (entry : Entry) : FileTree :=
  let above := (List.range path.length).map path.take
  (above.foldl (fun tree directory => tree.put directory .directory) tree).put path entry

/-- Add to a tree what stands along a written path. -/
def survey (tree : FileTree) (written : Text) : IO FileTree := do
  let mut tree := tree
  let mut place := if written.head? == some '/' then [] else tree.workingDirectory
  for name in Path.split written do
    if Path.stays name then
      continue
    if name == ['.', '.'] then
      place := place.dropLast
      continue
    let path := place ++ [name]
    let some real ← realPath? path
      | break
    tree := add tree real (← entryAt real)
    if real != path then
      tree := tree.put path (.link real.text)
    place := real
  return tree

/-- The paths that a command names. -/
def paths : Command → List Text
  | .languages => []
  | .classify file => [file]
  | .render file => [file]
  | .load file => [file]
  | .save file regions _ => file :: regions.toList
  | .check files => files

/-- The command reads its standard input. -/
def readsInput : Command → Bool
  | .save _ none _ => true
  | _ => false

/-- All that a stream still holds. -/
partial def readAll (stream : IO.FS.Stream) (bytes : ByteArray) : IO ByteArray := do
  let more ← stream.read 65536
  if more.isEmpty then return bytes else readAll stream (bytes ++ more)

/-- Write a file beside the one it replaces, and then put it in its place. -/
def writeFile (path : Path) (text : Text) : IO Unit := do
  let draft := string (Path.text (path.dropLast ++ [".literate-draft".toList]))
  IO.FS.writeBinFile draft text.toBytes
  IO.FS.rename draft (string path.text)

def usage : String :=
  "usage: literate [-v] [-m MODE] [-d WORD] COMMAND\n\n" ++
  "commands:\n" ++
  "  languages                       list the languages and their extensions\n" ++
  "  classify FILE                   print the code and doc blocks of a file\n" ++
  "  render FILE                     print the editor markup of a file\n" ++
  "  load FILE                       print the editable regions of a file as JSON\n" ++
  "  save FILE [-r JSON] [-i]        put a file together from edited regions\n" ++
  "  check FILE...                   verify that loading and saving changes nothing\n"

/-- Do what an outcome says. -/
def finish (outcome : Outcome) : IO UInt32 := do
  if let some (path, text) := outcome.written then
    writeFile path text
  let out ← IO.getStdout
  out.putStr (string outcome.output)
  out.flush
  if let .failed failure := outcome.status then
    IO.eprintln (string failure.report)
  return outcome.exitCode.toUInt32

/-- Carry out a command line. -/
def run (invocation : Invocation) : IO UInt32 := do
  let workingDirectory := pathOf (← IO.currentDir).toString
  let mut tree ← survey { workingDirectory } workingDirectory.text
  for written in paths invocation.command do
    tree ← survey tree written
  let input ← if readsInput invocation.command then readAll (← IO.getStdin) ByteArray.empty
    else pure ByteArray.empty
  finish (invocation.run tree input)

end Program

end Literate

def main (arguments : List String) : IO UInt32 := do
  match Literate.Invocation.ofWords (arguments.map String.toList) with
  | .ok invocation => Literate.Program.run invocation
  | .error error =>
    let out ← if error.exitCode == 0 then IO.getStdout else IO.getStderr
    out.putStr Literate.Program.usage
    return error.exitCode.toUInt32
