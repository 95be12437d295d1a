import Literate.Text.Basic

/-!
# Editor modes and region kinds

The two small vocabularies that an editing surface shares with this library, each with the names
under which they are exchanged.
-/

namespace Literate

/-- How a document is presented. -/
inductive EditorMode where
  /-- Code and documentation, to be read only. -/
  | view
  /-- Like `view`, for a table of contents inside other pages. -/
  | toc
  /-- Code and documentation, both to be edited. -/
  | edit
  /-- The whole source as code. -/
  | raw
  deriving DecidableEq, Repr

namespace EditorMode

def name : EditorMode → Text
  | view => "view"
  | toc => "toc"
  | edit => "edit"
  | raw => "raw"

def ofName? (name : Text) : Option EditorMode :=
  [view, toc, edit, raw].find? (·.name == name)

def isReadOnly : EditorMode → Bool
  | view => true
  | toc => true
  | edit => false
  | raw => false

/-- What is said of a name that is no mode. -/
def unknown (name : Text) : Text :=
  "unknown editor mode: " ++ name

@[simp]
theorem ofName?_name (mode : EditorMode) : ofName? mode.name = some mode := by
  cases mode <;> decide

end EditorMode

/-- A region holds code or documentation. -/
inductive RegionKind where
  | code
  | doc
  deriving DecidableEq, Repr

namespace RegionKind

def name : RegionKind → Text
  | code => "code"
  | doc => "doc"

def ofName? (name : Text) : Option RegionKind :=
  [code, doc].find? (·.name == name)

/-- What is said of a name that is no kind. -/
def unknown (name : Text) : Text :=
  "unrecognized region kind `" ++ name ++ "`"

@[simp]
theorem ofName?_name (kind : RegionKind) : ofName? kind.name = some kind := by
  cases kind <;> decide

end RegionKind

end Literate
