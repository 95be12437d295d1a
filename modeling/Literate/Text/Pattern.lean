import Literate.Text.Basic

/-!
# Literal tokens as patterns

In a pattern some characters are operators.  A token is written with a backslash before each of
them, and then matches itself only; several tokens make one pattern that matches any of them.
-/

namespace Literate

namespace Pattern

/-- The characters that a pattern may read as operators. -/
def operators : Text :=
  "\\.+*?()|[]\x7b\x7d^$#&-~"

/-- The pattern that matches the token and nothing else. -/
def ofToken (token : Text) : Text :=
  token.flatMap fun c => if operators.contains c then ['\\', c] else [c]

/-- The pattern that matches any of the tokens.  Empty tokens are left out, and without tokens there
is no pattern. -/
def ofTokens? (tokens : List Text) : Option Text :=
  match tokens.filter (!·.isEmpty) with
  | [] => none
  | rest => some (Text.join ['|'] (rest.map ofToken))

end Pattern

end Literate
