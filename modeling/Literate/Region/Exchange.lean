import Literate.Document
import Literate.Json.Printer
import Literate.Json.Reader

/-!
# Exchanging regions

A loaded document is handed out as a JSON object, and edited regions come back as JSON: the same
object with changed regions, or the list of regions alone.  What was handed out can be handed back
unchanged.
-/

namespace Literate

namespace Region

def toJson (region : Region) : Json :=
  .object <|
    Json.field "kind" (.string region.role.kind.name) ++
    Json.field "first_line" (.ofNat region.firstLine) ++
    Json.optionalField "indent" (region.role.indent?.map .string) ++
    (if region.role.isBlockComment then Json.field "block_comment" (.bool true) else []) ++
    Json.field "content" (.string region.content) ++
    Json.optionalField "terminator" (region.terminator.map fun ending => .string ending.text)

end Region

namespace Document

/-- What is handed out of a loaded document. -/
def toJson (document : Document) : Json :=
  .object
    [("language", .string document.language.name),
      ("mode", .string document.mode.name),
      ("line_ending", .string document.lineEnding.name),
      ("regions", .array (document.regions.map Region.toJson))]

end Document

namespace EditedRegion

def toJson (region : EditedRegion) : Json :=
  .object <|
    Json.field "kind" (.string region.kind) ++
    Json.optionalField "indent" (region.indent.map .string) ++
    Json.field "content" (.string region.content) ++
    Json.optionalField "terminator" (region.terminator.map .string)

/-- The region in an object with the fields `kind`, `indent`, `content` and `terminator`.  Other
fields do not matter, but none of these may be repeated. -/
def ofFields? (fields : List (Text × Json)) : Option EditedRegion := do
  let kind ← (← (← Json.field? fields "kind")).asString?
  let indent ← Json.asOptionalString? (← Json.field? fields "indent")
  let content ← (← (← Json.field? fields "content")).asString?
  let terminator ← Json.asOptionalString? (← Json.field? fields "terminator")
  some { kind, indent, content, terminator }

/-- A region is an object, or the list of its four parts, of which the last may be missing. -/
def ofJson? : Json → Option EditedRegion
  | .object fields => ofFields? fields
  | .array [.string kind, indent, .string content] => do
    some { kind, indent := ← Json.asOptionalString? (some indent), content }
  | .array [.string kind, indent, .string content, terminator] => do
    let indent ← Json.asOptionalString? (some indent)
    let terminator ← Json.asOptionalString? (some terminator)
    some { kind, indent, content, terminator }
  | _ => none

def listOfJson? : Json → Option (List EditedRegion)
  | .array items => items.mapM ofJson?
  | _ => none

/-- What comes back from an editing surface: a list of regions, or an object with such a list as the
field `regions`. -/
def ofExchange? : Json → Option (List EditedRegion)
  | .object fields => do listOfJson? (← (← Json.field? fields "regions"))
  | json => listOfJson? json

end EditedRegion

end Literate
