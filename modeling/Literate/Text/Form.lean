import Literate.Text.CharClass

/-!
# Forms

A form says what may stand at a place of a text: the start of a line, a run of characters of a
class, forms one behind the other, or one of two forms.  Often there is more than one way to read a
form.  The first of two alternatives is preferred to the second, and a long run to a short one, so
the ways have an order, and `lengths` lists them.
-/

namespace Literate

/-- The characters in some intervals, or all others. -/
structure Bracket where
  intervals : List (Char × Char)
  negated : Bool := false
  deriving DecidableEq, Repr

namespace Bracket

def contains (bracket : Bracket) (c : Char) : Bool :=
  bracket.intervals.any (fun (low, high) => low ≤ c && c ≤ high) != bracket.negated

def ofText (characters : Text) : Bracket where
  intervals := characters.map fun c => (c, c)

def except (characters : Text) : Bracket where
  intervals := characters.map fun c => (c, c)
  negated := true

/-- A character as it is written between brackets. -/
def character (c : Char) : Text :=
  match c with
  | '\t' => "\\t"
  | '\n' => "\\n"
  | '\r' => "\\r"
  | c => if "\\[]^-".toList.contains c then ['\\', c] else [c]

def pattern (bracket : Bracket) : Text :=
  let interval : Char × Char → Text := fun (low, high) =>
    if low = high then character low else character low ++ "-" ++ character high
  "[" ++ (if bracket.negated then "^" else "") ++ bracket.intervals.flatMap interval ++ "]"

end Bracket

inductive Form where
  | empty
  /-- The start of a line, of which no character is taken. -/
  | lineStart
  /-- At least `least` and, if there is a bound, at most `most` characters of a class. -/
  | run (bracket : Bracket) (least : Nat) (most : Option Nat)
  | both (first second : Form)
  | either (first second : Form)
  deriving DecidableEq, Repr

namespace Form

/-- One character of a class. -/
def one (bracket : Bracket) : Form :=
  .run bracket 1 (some 1)

/-- How many characters from the front of a text can be read in this form, preferred numbers first.
`start` says that the text stands at the start of a line. -/
def lengths : Form → (start : Bool) → Text → List Nat
  | empty, _, _ => [0]
  | lineStart, start, _ => if start then [0] else []
  | run bracket least most, _, text =>
    let longest := (text.takeWhile bracket.contains).length
    ((List.range (min longest (most.getD longest) + 1)).drop least).reverse
  | both first second, start, text =>
    (first.lengths start text).flatMap fun n =>
      (second.lengths (Text.lineStartAfter start (text.take n)) (text.drop n)).map (n + ·)
  | either first second, start, text => first.lengths start text ++ second.lengths start text

/-- How often something is repeated, as it is written behind it. -/
def times (least : Nat) : Option Nat → Text
  | some most =>
    if least = 1 ∧ most = 1 then ""
    else "\x7b" ++ Text.ofNat least ++ "," ++ Text.ofNat most ++ "\x7d"
  | none =>
    if least = 0 then "*" else if least = 1 then "+" else "\x7b" ++ Text.ofNat least ++ ",\x7d"

def isChoice : Form → Bool
  | either .. => true
  | _ => false

/-- The form as a pattern.  In a sequence, a choice is put in a group. -/
def pattern : Form → Text
  | empty => []
  | lineStart => "(?m:^)"
  | run bracket least most => bracket.pattern ++ times least most
  | both first second =>
    let grouped (form : Form) (pattern : Text) : Text :=
      if form.isChoice then "(?:" ++ pattern ++ ")" else pattern
    grouped first first.pattern ++ grouped second second.pattern
  | either first second => first.pattern ++ "|" ++ second.pattern

end Form

end Literate
