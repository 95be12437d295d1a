import Literate.Text.Unprintable

/-!
# Quoted texts

Messages and listings show a text between double quotes, so that its ends are visible and every
character of it can be told.  A quote or a backslash gets a backslash before it, the common controls
have letters of their own, and any other character that cannot be shown is written by the number of
its code point.
-/

namespace Literate

/-- How one character is written inside quotes. -/
def quotedCharacter (c : Char) : Text :=
  if c == '\x22' || c == '\\' then ['\\', c]
  else if c == '\n' then ['\\', 'n']
  else if c == '\r' then ['\\', 'r']
  else if c == '\t' then ['\\', 't']
  else if c == '\x00' then ['\\', '0']
  else if unprintable.contains c then "\\u\x7b" ++ Nat.toDigits 16 c.toNat ++ "\x7d"
  else [c]

/-- The text between quotes. -/
def Text.quoted (text : Text) : Text :=
  "\"" ++ text.flatMap quotedCharacter ++ "\""

/-- A text that may be missing. -/
def Text.quoted? : Option Text → Text
  | none => "None"
  | some text => "Some(" ++ text.quoted ++ ")"

end Literate
