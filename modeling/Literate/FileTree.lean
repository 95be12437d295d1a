import Literate.Text.Basic

/-!
# File trees

The files that a command can see, as one value: what stands at which path, and the directory in
which the command runs.  A command never changes a tree; it says what is to be written, and
`FileTree.write` is the tree afterwards.
-/

namespace Literate

/-- A path from the root, as the names on the way. -/
abbrev Path := List Text

/-- Contents are compared byte by byte. -/
instance contentDecidableEq : DecidableEq ByteArray :=
  ByteArray.instDecidableEq

/-- What can stand at a path. -/
inductive Entry where
  | file (content : ByteArray)
  /-- A file that may not be read. -/
  | sealed (content : ByteArray)
  | directory
  /-- A directory in which nothing may be looked up. -/
  | closed
  | link (target : Text)
  | device
  | pipe
  deriving DecidableEq

/-- Why a path leads nowhere. -/
inductive PathError where
  | notFound
  | permissionDenied
  | notDirectory
  | nameTooLong
  | tooManyLinks
  /-- The path holds the character U+0000, with which no name can be written. -/
  | nulInName
  deriving DecidableEq, Repr

def PathError.message : PathError → Text
  | notFound => "No such file or directory (os error 2)"
  | permissionDenied => "Permission denied (os error 13)"
  | notDirectory => "Not a directory (os error 20)"
  | nameTooLong => "File name too long (os error 36)"
  | tooManyLinks => "Too many levels of symbolic links (os error 40)"
  | nulInName => "file name contained an unexpected NUL byte"

/-- How many bytes a text takes in UTF-8. -/
def Text.byteSize : Text → Nat
  | [] => 0
  | c :: rest => c.utf8Size + byteSize rest

namespace Path

/-- The names in a written path, empty ones included. -/
def split : Text → List Text
  | [] => [[]]
  | '/' :: rest => [] :: split rest
  | c :: rest => (split rest).modifyHead (c :: ·)

/-- A path as it is written. -/
def text (path : Path) : Text :=
  if path.isEmpty then "/" else path.flatMap ('/' :: ·)

/-- How many bytes a name can have. -/
def longestName : Nat :=
  255

/-- How many bytes a path from the root can have, as it is written. -/
def longestPath : Nat :=
  4095

/-- The path is short enough to ask what stands there. -/
def fits (path : Path) : Bool :=
  path.text.byteSize ≤ longestPath

/-- A part of a written path that says to stay where one is. -/
def stays (name : Text) : Bool :=
  name.isEmpty || name == ['.']

/-- Why names lead nowhere from a path where no directory stands.  Whether the next path is short
enough is asked first. -/
def errorBelow (path : Path) (names : List Text) : PathError :=
  if fits (path ++ (names.find? (!stays ·)).toList) then .notDirectory else .nameTooLong

/-- What follows the last dot of the last name.  A dot at the start of the name does not count, and
a name without a dot has no extension. -/
def extension (path : Path) : Text :=
  let name := path.getLastD []
  let stem := (name.reverse.dropWhile (· != '.')).drop 1
  if stem.isEmpty then [] else (name.reverse.takeWhile (· != '.')).reverse

end Path

structure FileTree where
  entries : List (Path × Entry) := []
  /-- Where relative paths start. -/
  workingDirectory : Path := []
  deriving DecidableEq

namespace FileTree

/-- What stands at a path.  The root is a directory. -/
def entry? (tree : FileTree) (path : Path) : Option Entry :=
  if path.isEmpty then some .directory else tree.entries.lookup path

/-- What stands in a directory can be looked up: no directory on the way there is closed, and it is
not closed itself. -/
def searchable (tree : FileTree) (directory : Path) : Bool :=
  (List.range (directory.length + 1)).all fun n => tree.entry? (directory.take n) != some .closed

/-- How many links may be followed on the way to a file. -/
def maximalLinks : Nat :=
  40

/-- Where names lead from a directory.  At most `links` links are followed.  A name is looked up
from the root anew, so every directory on the way has a say. -/
def follow (tree : FileTree) (links : Nat) (directory : Path) (names : List Text) :
    Except PathError Path :=
  match names with
  | [] => .ok directory
  | name :: rest =>
    if Path.stays name then tree.follow links directory rest
    else if name == ['.', '.'] then tree.follow links directory.dropLast rest
    else
      let path := directory ++ [name]
      if !path.fits then .error .nameTooLong
      else if !tree.searchable directory then .error .permissionDenied
      else if Path.longestName < name.byteSize then .error .nameTooLong
      else
        match tree.entry? path with
        | none => .error .notFound
        | some .directory | some .closed => tree.follow links path rest
        | some (.link target) =>
          match links with
          | 0 => .error .tooManyLinks
          | links + 1 =>
            let start := if target.head? == some '/' then [] else directory
            tree.follow links start (Path.split target ++ rest)
        | some _ => if rest.isEmpty then .ok path else .error (Path.errorBelow path rest)
termination_by (links, names.length)

/-- The path without links and detours that a written path leads to. -/
def resolve (tree : FileTree) (written : Text) : Except PathError Path :=
  if written.contains '\x00' then .error .nulInName
  else if written.isEmpty then .error .notFound
  else
    let start := if written.head? == some '/' then [] else tree.workingDirectory
    tree.follow maximalLinks start (Path.split written)

/-- The content of the file at a path, if it may be read. -/
def readAt? (tree : FileTree) (path : Path) : Option ByteArray :=
  match tree.entry? path with
  | some (.file content) => if tree.searchable path.dropLast then some content else none
  | _ => none

/-- The content of the file that a written path leads to. -/
def content? (tree : FileTree) (written : Text) : Option ByteArray :=
  match tree.resolve written with
  | .error _ => none
  | .ok path =>
    match tree.entry? path with
    | some (.file content) => some content
    | _ => none

/-- Put an entry at a path, in place of what stands there. -/
def put (tree : FileTree) (path : Path) (entry : Entry) : FileTree :=
  { tree with entries := (path, entry) :: tree.entries.filter (·.1 != path) }

def write (tree : FileTree) (path : Path) (content : ByteArray) : FileTree :=
  tree.put path (.file content)

end FileTree

/-- The text that a file holds, if it is well-formed UTF-8. -/
def Text.ofBytes? (bytes : ByteArray) : Option Text :=
  (String.fromUTF8? bytes).map String.toList

def Text.toBytes (text : Text) : ByteArray :=
  (String.ofList text).toUTF8

end Literate
