/-!
# Texts

A source file, a comment marker, a file name and a message are all texts: finite sequences of
characters.  Everything that is scanned is a `Text`, so that scanning is recursion on a list and
offsets are lengths of prefixes.

The one search the library needs is `Text.endOfFirst`: walk through a text until some reading
applies to what is left, and stop just past what it reads.
-/

namespace Literate

/-- A sequence of characters. -/
abbrev Text := List Char

instance : Coe String Text := ⟨String.toList⟩

namespace Text

/-- A number in decimal notation. -/
def ofNat (n : Nat) : Text :=
  Nat.toDigits 10 n

/-- The text starts with the token.  The empty token starts nothing. -/
def startsWith (token text : Text) : Bool :=
  !token.isEmpty && token.isPrefixOf text

/-- Like `endOfFirst`, with `passed` characters already behind. -/
def endOfFirstFrom (reading : Text → Option Nat) (passed : Nat) : Text → Option Nat
  | [] => (reading []).map (passed + ·)
  | c :: rest =>
    match reading (c :: rest) with
    | some length => some (passed + length)
    | none => endOfFirstFrom reading (passed + 1) rest

/-- A reading says how many characters it takes from the front of a text, if it applies there.
The result is the offset just past the leftmost place where the reading applies. -/
def endOfFirst (reading : Text → Option Nat) (text : Text) : Option Nat :=
  endOfFirstFrom reading 0 text

/-- The reading of one literal token. -/
def literally (token : Text) (text : Text) : Option Nat :=
  if token.isPrefixOf text then some token.length else none

/-- What follows the text starts a line.  `lineStart` answers for the empty text. -/
def lineStartAfter (lineStart : Bool) (text : Text) : Bool :=
  text.getLast?.elim lineStart (· == '\n')

/-- Join texts, with a separator between neighbours. -/
def join (separator : Text) (texts : List Text) : Text :=
  (texts.intersperse separator).flatten

theorem startsWith_iff {token text : Text} :
    startsWith token text = true ↔ token ≠ [] ∧ token <+: text := by
  simp [startsWith]

theorem endOfFirstFrom_eq (reading : Text → Option Nat) (passed : Nat) (text : Text) :
    endOfFirstFrom reading passed text = (endOfFirst reading text).map (passed + ·) := by
  induction text generalizing passed with
  | nil => cases h : reading [] <;> simp [endOfFirst, endOfFirstFrom, h]
  | cons c rest ih =>
    cases h : reading (c :: rest) with
    | some length => simp [endOfFirst, endOfFirstFrom, h]
    | none =>
      simp only [endOfFirst, endOfFirstFrom, h]
      rw [ih, ih (0 + 1)]
      cases endOfFirst reading rest with
      | none => rfl
      | some n =>
        simp only [Option.map_some, Option.some.injEq]
        omega

theorem endOfFirst_nil (reading : Text → Option Nat) : endOfFirst reading [] = reading [] := by
  cases h : reading [] <;> simp [endOfFirst, endOfFirstFrom, h]

/-- **One step of the search.** Where the reading applies the search ends; elsewhere it moves on by
one character. -/
theorem endOfFirst_cons (reading : Text → Option Nat) (c : Char) (rest : Text) :
    endOfFirst reading (c :: rest) =
      (reading (c :: rest)).or ((endOfFirst reading rest).map (1 + ·)) := by
  cases h : reading (c :: rest) with
  | some length => simp [endOfFirst, endOfFirstFrom, h]
  | none =>
    simp only [endOfFirst, endOfFirstFrom, h, Option.none_or]
    rw [endOfFirstFrom_eq]
    rfl

end Text

end Literate
