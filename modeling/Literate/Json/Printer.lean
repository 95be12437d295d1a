import Literate.Json.Basic

/-!
# Writing JSON

A value is written over several lines, each level two spaces further in.  Strings keep every
character as it is, but for quotes, backslashes and controls.
-/

namespace Literate

namespace Json

/-- How one character is written inside a string. -/
def stringCharacter (c : Char) : Text :=
  if c == '\x22' || c == '\\' then ['\\', c]
  else if c == '\x08' then "\\b"
  else if c == '\x0c' then "\\f"
  else if c == '\n' then "\\n"
  else if c == '\r' then "\\r"
  else if c == '\t' then "\\t"
  else if c < ' ' then
    "\\u00" ++ [Nat.digitChar (c.toNat / 16), Nat.digitChar (c.toNat % 16)]
  else [c]

def stringText (value : Text) : Text :=
  "\"" ++ value.flatMap stringCharacter ++ "\""

mutual

/-- A value, on a line that starts with the margin. -/
def pretty (margin : Text) : Json → Text
  | null => "null"
  | bool value => if value then "true" else "false"
  | number digits => digits
  | string value => stringText value
  | array [] => "[]"
  | array (item :: items) => "[" ++ prettyItems margin (item :: items) ++ "\n" ++ margin ++ "]"
  | object [] => "\x7b\x7d"
  | object (field :: fields) =>
    "\x7b" ++ prettyFields margin (field :: fields) ++ "\n" ++ margin ++ "\x7d"

/-- The items of an array, each on a line of its own. -/
def prettyItems (margin : Text) : List Json → Text
  | [] => []
  | [item] => "\n  " ++ margin ++ pretty ("  " ++ margin) item
  | item :: items =>
    "\n  " ++ margin ++ pretty ("  " ++ margin) item ++ "," ++ prettyItems margin items

/-- The fields of an object, each on a line of its own. -/
def prettyFields (margin : Text) : List (Text × Json) → Text
  | [] => []
  | [(key, value)] =>
    "\n  " ++ margin ++ stringText key ++ ": " ++ pretty ("  " ++ margin) value
  | (key, value) :: fields =>
    "\n  " ++ margin ++ stringText key ++ ": " ++ pretty ("  " ++ margin) value ++ "," ++
      prettyFields margin fields

end

end Json

end Literate
