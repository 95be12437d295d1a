import Literate.Error
import Literate.Region.Basic

/-!
# Writing regions back

The inverse of cutting a source into regions: every region that comes back from the editing surface
is written as source text, one after the other.  Documentation becomes inline comments, whatever it
was before, one comment per line.  The first region that makes no sense ends the attempt, and
nothing is written.
-/

namespace Literate

/-- A region as the editing surface hands it back. -/
structure EditedRegion where
  /-- The name of its kind. -/
  kind : Text
  indent : Option Text := none
  content : Text
  /-- The terminator of the last line, if it is not the document's own. -/
  terminator : Option Text := none
  deriving DecidableEq, Repr

namespace EditedRegion

def code (content : Text) : EditedRegion where
  kind := RegionKind.code.name
  content

def doc (indent content : Text) : EditedRegion where
  kind := RegionKind.doc.name
  indent := some indent
  content

/-- A region as it comes back when nothing was edited. -/
def ofRegion (region : Region) : EditedRegion where
  kind := region.role.kind.name
  indent := region.role.indent?
  content := region.content
  terminator := region.terminator.map LineEnding.text

end EditedRegion

/-- How documentation is written. -/
inductive DocStyle where
  /-- Every line after its indent, the marker and a space. -/
  | inline (marker : Text)
  /-- As it is: the document is nothing but documentation. -/
  | verbatim
  /-- Not at all. -/
  | unavailable
  deriving DecidableEq, Repr

/-- The style of a language with the given marker. -/
def DocStyle.ofMarker (marker : Text) : DocStyle :=
  if marker.isEmpty then unavailable else inline marker

/-- What turns regions back into source text. -/
structure RegionWriter where
  style : DocStyle
  /-- The terminator of a region that names none. -/
  lineEnding : LineEnding := .lf
  deriving DecidableEq, Repr

namespace RegionWriter

/-- The lines of a content, each after a margin.  The last one ends with the given terminator. -/
def writeLines (margin content last : Text) : Text :=
  content.lines.flatMap fun line =>
    margin ++ line.text ++ (line.terminator.map LineEnding.text).getD last

/-- The terminator that ends a region. -/
def terminator (writer : RegionWriter) : Option Text → Except Fault Text
  | none => .ok writer.lineEnding.text
  | some text => if text.isTerminator then .ok text else .error (.badTerminator text)

/-- Write one region. -/
def writeRegion (writer : RegionWriter) (region : EditedRegion) : Except Fault Text := do
  let some kind := RegionKind.ofName? region.kind
    | .error (.unknownKind region.kind)
  let last ← writer.terminator region.terminator
  match kind, writer.style with
  | .code, _ => .ok (writeLines [] region.content last)
  | .doc, .verbatim => .ok (writeLines [] region.content last)
  | .doc, .unavailable => .error .noMarker
  | .doc, .inline marker =>
    let indent := region.indent.getD []
    if indent.isBlank then
      .ok (writeLines (indent ++ marker ++ [' ']) region.content last)
    else
      .error (.badIndent indent)

/-- Write regions, the first of which has the given index. -/
def writeFrom (writer : RegionWriter) (index : Nat) : List EditedRegion → Except Error Text
  | [] => .ok []
  | region :: regions =>
    match writer.writeRegion region with
    | .error fault => .error (.malformed index fault)
    | .ok text => (writer.writeFrom (index + 1) regions).map (text ++ ·)

/-- The source text of the regions. -/
def write (writer : RegionWriter) (regions : List EditedRegion) : Except Error Text :=
  writer.writeFrom 0 regions

end RegionWriter

end Literate
