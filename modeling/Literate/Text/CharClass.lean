import Literate.Text.Basic

/-!
# Classes of characters

A class of characters is a list of closed intervals of code points.  Here stand the classes of
the line structure: the two characters that break a line, and the blanks, which are the white
space characters that do not.
-/

namespace Literate

/-- A list of closed intervals of code points. -/
abbrev CharClass := List (Nat × Nat)

/-- The character lies in one of the intervals. -/
def CharClass.contains (ranges : CharClass) (c : Char) : Bool :=
  ranges.any fun (low, high) => low ≤ c.toNat && c.toNat ≤ high

/-- The characters with the property White_Space. -/
def whiteSpace : CharClass :=
  [(0x9, 0xD), (0x20, 0x20), (0x85, 0x85), (0xA0, 0xA0), (0x1680, 0x1680), (0x2000, 0x200A),
    (0x2028, 0x2029), (0x202F, 0x202F), (0x205F, 0x205F), (0x3000, 0x3000)]

/-- A line is broken by a line feed or a carriage return, and by nothing else. -/
def isLineBreak (c : Char) : Bool :=
  c == '\n' || c == '\r'

/-- White space within a line. -/
def isBlank (c : Char) : Bool :=
  whiteSpace.contains c && !isLineBreak c

/-- The text is made of blanks only. -/
def Text.isBlank (text : Text) : Bool :=
  text.all Literate.isBlank

theorem not_isLineBreak_of_isBlank {c : Char} (h : isBlank c = true) : isLineBreak c = false := by
  simp only [isBlank, Bool.and_eq_true, Bool.not_eq_true'] at h
  exact h.2

end Literate
