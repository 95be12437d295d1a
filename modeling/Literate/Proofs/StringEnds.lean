import Literate.Proofs.Locality

/-!
# The end of a short string

The end of a short string is given by a pattern with choices: any number of pieces, among them an
escaped pair that can also be read as an escaped carriage return, and then what closes the string.
A pattern has its matches in an order of preference, and the first of them counts:

  `(stringEnd quote text).head? = Extent.shortString? quote text`.

For a quote of one character the first match is where a single walk from left to right ends
(`leftToRight`), without any way back: the walk remembers the last escaped pair that it passed, and
needs it only if it comes to the end of the text.
-/

namespace Literate

/-- The lengths that can be matched at the front of a text, preferred ones first. -/
abbrev Matcher := Text → List Nat

namespace Matcher

open Text

def token (expected : Text) : Matcher :=
  fun text => (literally expected text).toList

/-- One character of a class. -/
def oneOf (accepts : Char → Bool) : Matcher :=
  fun text => if text.head?.any accepts then [1] else []

/-- The first alternative is preferred. -/
def either (first second : Matcher) : Matcher :=
  fun text => first text ++ second text

def andThen (first second : Matcher) : Matcher :=
  fun text => (first text).flatMap fun n => (second (text.drop n)).map (n + ·)

/-- At most `count` times, and rather more often than less. -/
def upTo (piece : Matcher) : Nat → Matcher
  | 0 => fun _ => [0]
  | count + 1 => either (andThen piece (upTo piece count)) fun _ => [0]

/-- Any number of times, and rather more often than less.  Pieces that are not empty fit into the
text at most as often as it has characters. -/
def repeatedly (piece : Matcher) : Matcher :=
  fun text => upTo piece text.length text

/-- A piece of a short string: an escaped terminator, another escaped character, or any character
but a backslash, a line break and the characters of the quote. -/
def stringPiece (quote : Text) : Matcher :=
  either (token "\\\r\n") <| either (token "\\\n") <| either (token "\\\r") <|
    either (andThen (token "\\") (oneOf (!isLineBreak ·))) <|
      oneOf fun c => !(c == '\\' || isLineBreak c || quote.contains c)

def stringClose (quote : Text) : Matcher :=
  either (token quote) <| either (token "\r\n") <| either (token "\n") (token "\r")

def stringEnd (quote : Text) : Matcher :=
  andThen (repeatedly (stringPiece quote)) (stringClose quote)

/-! ### All choices -/

theorem andThen_either (a b c : Matcher) (text : Text) :
    andThen (either a b) c text = andThen a c text ++ andThen b c text := by
  simp [andThen, either]

theorem andThen_assoc (a b c : Matcher) (text : Text) :
    andThen (andThen a b) c text = andThen a (andThen b c) text := by
  simp [andThen, List.flatMap_assoc, List.map_flatMap, List.flatMap_map, Nat.add_assoc,
    Function.comp_def]

/-- **One more piece, or the close.** -/
theorem andThen_upTo_succ (piece close : Matcher) (count : Nat) (text : Text) :
    andThen (upTo piece (count + 1)) close text =
      andThen piece (andThen (upTo piece count) close) text ++ close text := by
  rw [upTo, andThen_either, andThen_assoc]
  simp [andThen]

theorem stringPiece_pair (quote rest : Text) :
    stringPiece quote ('\\' :: '\r' :: '\n' :: rest) = [3, 2] := by
  simp [stringPiece, either, token, andThen, oneOf, literally, List.isPrefixOf, isLineBreak]

theorem stringPiece_escape (quote : Text) {c : Char} {rest : Text}
    (hpair : ∀ tail, c = '\r' → rest = '\n' :: tail → False) :
    stringPiece quote ('\\' :: c :: rest) = [2] := by
  have hcrlf : ¬ (c = '\r' ∧ ['\n'] <+: rest) := by
    rintro ⟨hc, tail, htail⟩
    exact hpair tail hc htail.symm
  by_cases hn : c = '\n'
  · simp [stringPiece, either, token, andThen, oneOf, literally, hn, isLineBreak]
  · by_cases hr : c = '\r'
    · have hrest : ¬ ['\n'] <+: rest := fun h => hcrlf ⟨hr, h⟩
      simp [stringPiece, either, token, andThen, oneOf, literally, hr, hrest, isLineBreak]
    · simp [stringPiece, either, token, andThen, oneOf, literally, hn, hr, isLineBreak,
        Ne.symm hn, Ne.symm hr]

theorem stringPiece_cons (quote : Text) {c : Char} {rest : Text}
    (hescape : ∀ d tail, c = '\\' → rest = d :: tail → False) :
    stringPiece quote (c :: rest) =
      if c == '\\' || isLineBreak c || quote.contains c then [] else [1] := by
  by_cases hc : c = '\\'
  · have hrest : rest = [] := by
      cases rest with
      | nil => rfl
      | cons d tail => exact (hescape d tail hc rfl).elim
    simp [stringPiece, either, token, andThen, oneOf, literally, hc, hrest]
  · have hone : stringPiece quote (c :: rest) =
        oneOf (fun c => !(c == '\\' || isLineBreak c || quote.contains c)) (c :: rest) := by
      simp [stringPiece, either, token, andThen, literally, Ne.symm hc]
    rw [hone, oneOf, List.head?_cons, Option.any_some]
    cases c == '\\' || isLineBreak c || quote.contains c <;> rfl

theorem head?_stringClose (quote text : Text) :
    (stringClose quote text).head? = Extent.shortStringClose? quote text := by
  unfold Extent.shortStringClose? stringClose either
  rw [List.head?_append, token, Option.head?_toList]
  congr 1
  split
  · simp [token, literally]
  · next rest hpair =>
    have hrest : ¬ ['\n'] <+: rest := by
      rintro ⟨tail, rfl⟩
      exact hpair tail rfl
    simp [token, literally, hrest]
  · simp [token, literally]
  · next hpair hr hn =>
    cases text with
    | nil => simp [token, literally]
    | cons c rest =>
      have hcr : '\r' ≠ c := fun h => hr rest (by rw [h])
      have hlf : '\n' ≠ c := fun h => hn rest (by rw [h])
      simp [token, literally, hcr, hlf]

/-- **The end of a short string is the preferred match.** -/
theorem head?_stringEnd {quote : Text} (hquote : quote ≠ []) (text : Text) :
    (stringEnd quote text).head? = Extent.shortString? quote text := by
  -- The induction is along the string; how many pieces are still allowed does not matter, as long
  -- as they are enough.
  suffices h : ∀ count, text.length ≤ count →
      (andThen (upTo (stringPiece quote) count) (stringClose quote) text).head? =
        Extent.shortString? quote text from h _ (Nat.le_refl _)
  fun_induction Extent.shortString? quote text with
  | case1 =>
    intro count _
    have hclose : stringClose quote [] = [] := by
      simp [stringClose, either, token, literally, hquote]
    simp [andThen, hclose]
  | case2 rest ih =>
    intro count hcount
    obtain ⟨less, rfl⟩ : ∃ less, count = less + 2 := ⟨count - 2, by simp at hcount; omega⟩
    have hbreak : (andThen (upTo (stringPiece quote) (less + 1)) (stringClose quote)
        ('\n' :: rest)).head? = Extent.shortStringClose? quote ('\n' :: rest) := by
      rw [andThen_upTo_succ, andThen, stringPiece_cons quote (by simp)]
      simp [isLineBreak, head?_stringClose]
    obtain ⟨n, hclose⟩ : ∃ n, Extent.shortStringClose? quote ('\n' :: rest) = some n := by
      cases hliteral : literally quote ('\n' :: rest) with
      | some n => exact ⟨n, by simp [Extent.shortStringClose?, hliteral]⟩
      | none => exact ⟨1, by simp [Extent.shortStringClose?, hliteral]⟩
    simp only [List.length_cons] at hcount
    rw [andThen_upTo_succ, andThen, stringPiece_pair]
    simp [ih (less + 1) (by omega), hbreak, hclose]
  | case3 c rest hpair ih =>
    intro count hcount
    obtain ⟨less, rfl⟩ : ∃ less, count = less + 1 := ⟨count - 1, by simp at hcount; omega⟩
    rw [andThen_upTo_succ, andThen, stringPiece_escape quote hpair]
    simp only [List.length_cons] at hcount
    simp [ih less (by omega), head?_stringClose]
  | case4 c rest hpair hescape ih =>
    intro count hcount
    obtain ⟨less, rfl⟩ : ∃ less, count = less + 1 := ⟨count - 1, by simp at hcount; omega⟩
    rw [andThen_upTo_succ, andThen, stringPiece_cons quote hescape]
    simp only [List.length_cons] at hcount
    split
    · simp [head?_stringClose]
    · simp [ih less (by omega), head?_stringClose]

end Matcher

namespace Extent

/-! ### One walk from left to right -/

/-- Where a walk through a short string ends, with `passed` characters behind it, the last escaped
pair of which ended at `pair?`.  A backslash is passed together with the pair or the character
behind it, and the walk stops behind the first quote or terminator.  At the end of the text it
falls back on the escaped pair, if there is one. -/
def leftToRightFrom (quote : Char) (passed : Nat) (pair? : Option Nat) : Text → Nat
  | [] => pair?.getD passed
  | '\\' :: '\r' :: '\n' :: rest => leftToRightFrom quote (passed + 3) (some (passed + 3)) rest
  | '\\' :: _ :: rest => leftToRightFrom quote (passed + 2) pair? rest
  | '\r' :: '\n' :: _ => passed + 2
  | c :: rest =>
    if c == quote || isLineBreak c then passed + 1
    else leftToRightFrom quote (passed + 1) pair? rest

def leftToRight (quote : Char) (text : Text) : Nat :=
  leftToRightFrom quote 0 none text

variable {q : Char}

theorem leftToRightFrom_eq (passed : Nat) (pair? : Option Nat) (text : Text) :
    leftToRightFrom q passed pair? text =
      ((((firstClose? q text).or (lastEscapedPair? text)).map (passed + ·)).or pair?).getD
        (passed + text.length) := by
  fun_induction leftToRightFrom q passed pair? text with
  | case1 passed pair? => simp [firstClose?, lastEscapedPair?]
  | case2 passed pair? rest ih =>
    rw [ih, firstClose?, lastEscapedPair?]
    cases firstClose? q rest <;> cases lastEscapedPair? rest <;> simp [Nat.add_assoc]
  | case3 passed pair? c rest hpair ih =>
    rw [ih, firstClose?, lastEscapedPair?]
    · cases firstClose? q rest <;> cases lastEscapedPair? rest <;> cases pair? <;>
        simp [Nat.add_assoc, Nat.add_comm 2]
    · exact hpair
    · exact hpair
  | case4 passed pair? rest => rfl
  | case5 passed pair? c rest hpair hescape hcrlf hc =>
    rw [firstClose?, if_pos hc]
    · rfl
    · exact hpair
    · exact hescape
    · exact hcrlf
  | case6 passed pair? c rest hpair hescape hcrlf hc ih =>
    rw [ih, firstClose?, if_neg hc, lastEscapedPair?]
    · cases firstClose? q rest <;> cases lastEscapedPair? rest <;> cases pair? <;>
        simp [Nat.add_assoc, Nat.add_comm 1]
    all_goals assumption

/-- **A short string ends where one walk from left to right ends.**  The first match of the pattern
ends there too, and so does the token of every language that finds the opening quote. -/
theorem extent_shortString (hescape : q ≠ '\\') (hcr : q ≠ '\r') (hlf : q ≠ '\n')
    (text : Text) :
    (Opening.shortString [q]).extent text = leftToRight q text ∧
      (Matcher.stringEnd [q] text).head?.getD text.length = leftToRight q text ∧
      leftToRight q text ≤ text.length ∧
      ∀ (language : Language) (lineStart : Bool),
        language.opening? lineStart (q :: text) = some (.shortString [q]) →
          language.token? lineStart (q :: text) =
            some ⟨.shortString [q], text.take (leftToRight q text)⟩ := by
  have hbreak : isLineBreak q = false := isLineBreak_eq_false_iff.2 ⟨hlf, hcr⟩
  have hwalk : shortString [q] text = leftToRight q text := by
    rw [shortString_eq hescape hbreak, leftToRight, leftToRightFrom_eq]
    simp
  refine ⟨hwalk, ?_, ?_, ?_⟩
  · rw [Matcher.head?_stringEnd (by simp), ← hwalk, shortString]
  · rw [← hwalk]
    exact shortString_le hescape hbreak text
  · intro language lineStart hopening
    refine Language.token?_eq_some_iff.2 ⟨text, rfl, hopening, ?_⟩
    rw [← hwalk]
    rfl

/-- A string that never closes, with an escaped pair in it and a backslash at its end. -/
theorem extent_shortString_python :
    Language.python.token? true "\"a\\\r\nb\\" = some ⟨.shortString ['\x22'], "a\\\r\n"⟩ :=
  (extent_shortString (q := '\x22') (by decide) (by decide) (by decide) "a\\\r\nb\\").2.2.2
    .python true (by decide)

end Extent

end Literate
