import Literate.Text.Basic

/-!
# Text inside markup

The three characters that mean something between tags are written as entities.  Quotes stay, since
the result never stands inside an attribute.
-/

namespace Literate

/-- How one character is written between tags. -/
def markupCharacter (c : Char) : Text :=
  if c == '&' then "&amp;"
  else if c == '<' then "&lt;"
  else if c == '>' then "&gt;"
  else [c]

/-- The markup that displays the text. -/
def Text.toMarkup (text : Text) : Text :=
  text.flatMap markupCharacter

end Literate
