import Literate.Token.Opening

/-!
# Scanning

A scan cuts a text into lexemes: tokens, and single characters that no token starts at.  It reads
from left to right, and inside a token it looks for nothing.  So for every text

  `(scan language text).flatMap Lexeme.text = text`.

The scan walks over the text one character at a time and counts down the characters that the token
it is in still has.  It never leaves the structure of the list, whatever lengths the tokens have.
-/

namespace Literate

/-- A token is an opening and what it took of the text after it. -/
structure Token where
  opening : Opening
  body : Text
  deriving DecidableEq, Repr

def Token.text (token : Token) : Text :=
  token.opening.text ++ token.body

/-- One piece of a scanned text. -/
inductive Lexeme where
  | plain (c : Char)
  | token (token : Token)
  deriving DecidableEq, Repr

def Lexeme.text : Lexeme → Text
  | plain c => [c]
  | token t => t.text

namespace Language

/-- The token at the front of a text. -/
def token? (language : Language) (lineStart : Bool) (text : Text) : Option Token :=
  (language.opening? lineStart text).map fun opening =>
    let rest := text.drop opening.text.length
    ⟨opening, rest.take (opening.extent rest)⟩

/-- Scan a text of which the first `inside` characters belong to a token already found.  The lexemes
found so far are in `found`, latest first. -/
def scanFrom (language : Language) : Nat → Bool → List Lexeme → Text → List Lexeme
  | _, _, found, [] => found.reverse
  | inside + 1, _, found, c :: rest => scanFrom language inside (c == '\n') found rest
  | 0, lineStart, found, c :: rest =>
    match language.token? lineStart (c :: rest) with
    | none => scanFrom language 0 (c == '\n') (.plain c :: found) rest
    | some token =>
      scanFrom language (token.text.length - 1) (c == '\n') (.token token :: found) rest

/-- The lexemes of a source text. -/
def scan (language : Language) (source : Text) : List Lexeme :=
  language.scanFrom 0 true [] source

/-- **A token is a piece of the text.** It has characters, and the text starts with them. -/
theorem token?_isPrefix {language : Language} {lineStart : Bool} {text : Text} {token : Token}
    (h : language.token? lineStart text = some token) : token.text ≠ [] ∧ token.text <+: text := by
  obtain ⟨opening, ho, rfl⟩ := Option.map_eq_some_iff.1 h
  obtain ⟨hne, rest, rfl⟩ := opening?_isPrefix ho
  refine ⟨by simp [Token.text, hne], ?_⟩
  simp only [Token.text, List.drop_left]
  exact (List.prefix_append_right_inj _).2 (List.take_prefix ..)

theorem flatMap_text_scanFrom (language : Language) (inside : Nat) (lineStart : Bool)
    (found : List Lexeme) (text : Text) :
    (language.scanFrom inside lineStart found text).flatMap Lexeme.text =
      found.reverse.flatMap Lexeme.text ++ text.drop inside := by
  induction text generalizing inside lineStart found with
  | nil => cases inside <;> simp [scanFrom]
  | cons c rest ih =>
    cases inside with
    | succ inside => simp [scanFrom, ih]
    | zero =>
      rw [scanFrom]
      split
      · simp [ih, Lexeme.text]
      · next token ht =>
        obtain ⟨hne, rest', hrest⟩ := token?_isPrefix ht
        have hdrop : rest.drop (token.text.length - 1) = rest' := by
          have := congrArg (List.drop token.text.length) hrest
          rw [List.drop_left] at this
          obtain ⟨n, hn⟩ : ∃ n, token.text.length = n + 1 :=
            ⟨token.text.length - 1, by have := List.length_pos_iff.2 hne; omega⟩
          rw [hn] at this ⊢
          simpa using this.symm
        simp [ih, Lexeme.text, hdrop, ← hrest]

/-- **Scanning loses nothing.** -/
theorem flatMap_text_scan (language : Language) (source : Text) :
    (language.scan source).flatMap Lexeme.text = source := by
  simp [scan, flatMap_text_scanFrom]

end Language

end Literate
