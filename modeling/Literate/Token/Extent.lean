import Literate.Text.Line
import Literate.Language.Heredoc

/-!
# How far a token reaches

Each function here is given the text after an opening and says how many characters of it still
belong to the token.  A token whose end never comes reaches to the end of the text.
-/

namespace Literate

namespace Extent

/-- A block comment ends with its closing token, or with its opening token if that comes first:
block comments do not nest. -/
def blockComment (opener closer text : Text) : Nat :=
  let reading rest := (Text.literally closer rest).or (Text.literally opener rest)
  (text.endOfFirst reading).getD text.length

/-- A long string ends with the token that opened it. -/
def longString (delimiter text : Text) : Nat :=
  (text.endOfFirst (Text.literally delimiter)).getD text.length

/-- A here-document ends with the closing of its rule. -/
def heredoc (rule : Heredoc) (delimiter text : Text) : Nat :=
  (text.endOfFirst (rule.closing? delimiter)).getD text.length

/-- An inline comment ends with the first terminator that no backslash stands before. -/
def inlineComment (afterBackslash : Bool) : Text → Nat
  | [] => 0
  | '\r' :: '\n' :: rest => if afterBackslash then 2 + inlineComment false rest else 2
  | c :: rest =>
    if isLineBreak c then
      if afterBackslash then 1 + inlineComment false rest else 1
    else
      1 + inlineComment (c == '\\') rest

/-- What closes a short string: its quote, or a terminator. -/
def shortStringClose? (quote : Text) (text : Text) : Option Nat :=
  (Text.literally quote text).or <|
    match text with
    | '\r' :: '\n' :: _ => some 2
    | '\r' :: _ => some 1
    | '\n' :: _ => some 1
    | _ => none

/-- A short string passes over escaped characters and escaped terminators, and over any other
character that is neither a backslash nor a line break nor a character of its quote.  Where it
cannot go on it has to close; where it cannot close, it goes back to the last place where it could
have closed. -/
def shortString? (quote : Text) : Text → Option Nat
  | [] => none
  | '\\' :: '\r' :: '\n' :: rest =>
    ((shortString? quote rest).map (3 + ·)).or
      ((shortStringClose? quote ('\n' :: rest)).map (2 + ·))
  | '\\' :: c :: rest =>
    ((shortString? quote rest).map (2 + ·)).or (shortStringClose? quote ('\\' :: c :: rest))
  | c :: rest =>
    (if c == '\\' || isLineBreak c || quote.contains c then none
      else (shortString? quote rest).map (1 + ·)).or (shortStringClose? quote (c :: rest))

/-- A short string that cannot close at all takes the whole text. -/
def shortString (quote text : Text) : Nat :=
  (shortString? quote text).getD text.length

/-- Where in a template literal a character stands. -/
inductive Place where
  /-- In the literal itself. -/
  | outer
  /-- In an expression hole of it. -/
  | hole
  /-- In a literal inside such a hole. -/
  | inner
  /-- In a hole of that one, where backticks have no meaning. -/
  | innerHole
  deriving DecidableEq, Repr

/-- A template literal ends with a backtick outside its holes.  Holes nest once. -/
def templateFrom : Place → Text → Nat
  | _, [] => 0
  | .outer, '\\' :: _ :: rest => 2 + templateFrom .outer rest
  | .inner, '\\' :: _ :: rest => 2 + templateFrom .inner rest
  | .outer, '$' :: '\x7b' :: rest => 2 + templateFrom .hole rest
  | .inner, '$' :: '\x7b' :: rest => 2 + templateFrom .innerHole rest
  | .outer, c :: rest => if c == '\x60' then 1 else 1 + templateFrom .outer rest
  | .inner, c :: rest => 1 + templateFrom (if c == '\x60' then .hole else .inner) rest
  | .hole, c :: rest =>
    1 + templateFrom (if c == '\x7d' then .outer else if c == '\x60' then .inner else .hole) rest
  | .innerHole, c :: rest => 1 + templateFrom (if c == '\x7d' then .inner else .innerHole) rest

/-- The extent of a template literal after its opening backtick. -/
def template (text : Text) : Nat :=
  templateFrom .outer text

end Extent

end Literate
