import Literate.Text.CharClass

/-!
# Lines

A line ends with a line feed, with a carriage return, or with both in this order, and the pair
counts as one terminator.  `lines` cuts a text into its lines; the other functions answer single
questions about the line structure without cutting the text up:

  `count t + 1 = (lines t).length`, `lastLine t = (lines t).getLast.text`.
-/

namespace Literate

/-- The three ways to end a line. -/
inductive LineEnding where
  | lf
  | crlf
  | cr
  deriving DecidableEq, Repr

namespace LineEnding

/-- The characters of the terminator. -/
def text : LineEnding → Text
  | lf => ['\n']
  | crlf => ['\r', '\n']
  | cr => ['\r']

def name : LineEnding → Text
  | lf => "lf"
  | crlf => "crlf"
  | cr => "cr"

def ofName? (name : Text) : Option LineEnding :=
  [lf, crlf, cr].find? (·.name == name)

/-- The terminator that the text consists of. -/
def ofText? : Text → Option LineEnding
  | ['\n'] => some lf
  | ['\r', '\n'] => some crlf
  | ['\r'] => some cr
  | _ => none

/-- The first terminator of a text; a line feed if it has none. -/
def detect : Text → LineEnding
  | [] => lf
  | '\r' :: '\n' :: _ => crlf
  | '\r' :: _ => cr
  | '\n' :: _ => lf
  | _ :: rest => detect rest

@[simp]
theorem ofText?_text (ending : LineEnding) : ofText? ending.text = some ending := by
  cases ending <;> rfl

end LineEnding

/-- A line and the terminator that ended it. -/
structure Line where
  text : Text
  terminator : Option LineEnding
  deriving DecidableEq, Repr

namespace Text

/-- The lines of a text.  There is always one: a text that ends with a terminator has an empty last
line, and only the last line has no terminator. -/
def lines : Text → List Line
  | [] => [⟨[], none⟩]
  | '\r' :: '\n' :: rest => ⟨[], some .crlf⟩ :: lines rest
  | '\r' :: rest => ⟨[], some .cr⟩ :: lines rest
  | '\n' :: rest => ⟨[], some .lf⟩ :: lines rest
  | c :: rest => (lines rest).modifyHead fun line => { line with text := c :: line.text }

/-- The text is one terminator and nothing else. -/
def isTerminator (text : Text) : Bool :=
  (LineEnding.ofText? text).isSome

/-- What follows the last line break. -/
def lastLine (text : Text) : Text :=
  (text.reverse.takeWhile (!isLineBreak ·)).reverse

/-- Split one terminator off the end. -/
def stripTerminator (text : Text) : Text × Option LineEnding :=
  match text.reverse with
  | '\n' :: '\r' :: rest => (rest.reverse, some .crlf)
  | '\n' :: rest => (rest.reverse, some .lf)
  | '\r' :: rest => (rest.reverse, some .cr)
  | _ => (text, none)

/-- The number of terminators: every line feed counts, and a carriage return counts unless a line
feed follows it. -/
def countTerminators : Text → Nat
  | [] => 0
  | c :: rest =>
    (if c == '\n' || c == '\r' && rest.head? != some '\n' then 1 else 0) + countTerminators rest

end Text

end Literate
