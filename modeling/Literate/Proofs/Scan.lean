import Literate.Proofs.Lines
import Literate.Token.Scan

/-!
# Scanning from a border

`Language.scan` walks over a text and counts down the characters of the token it is in.  Seen from
the outside it is a plain recursion, with the lexeme at the front of the text as its step:

  `lexemes lineStart (lexeme.text ++ rest) = lexeme :: lexemes lineStart' rest`,

where `lineStart'` says that the lexeme ended a line.  `scan_induction` is the induction that
belongs to it.  A *border* of a text is an offset between two of its lexemes, and
`exists_of_lexemes_eq_append` says that the scan of what stands after a border does not depend on
what stands before it, the flag `lineStart` apart.
-/

namespace Literate

@[simp]
theorem Text.lineStartAfter_nil (lineStart : Bool) : Text.lineStartAfter lineStart [] = lineStart :=
  rfl

theorem Text.lineStartAfter_append (lineStart : Bool) (a b : Text) :
    Text.lineStartAfter lineStart (a ++ b) =
      Text.lineStartAfter (Text.lineStartAfter lineStart a) b := by
  unfold Text.lineStartAfter
  rw [List.getLast?_append]
  cases b.getLast? <;> rfl

theorem Text.lineStartAfter_cons (lineStart : Bool) (c : Char) (text : Text) :
    Text.lineStartAfter lineStart (c :: text) = Text.lineStartAfter (c == '\n') text :=
  Text.lineStartAfter_append lineStart [c] text

namespace Language

variable {language : Language} {lineStart : Bool}

/-- The lexemes of a text.  `lineStart` says that the text before it ended a line. -/
def lexemes (language : Language) (lineStart : Bool) (text : Text) : List Lexeme :=
  language.scanFrom 0 lineStart [] text

/-- The lexeme at the front of a text: a token, or else the first character. -/
def lexeme? (language : Language) (lineStart : Bool) : Text → Option Lexeme
  | [] => none
  | c :: rest => some ((language.token? lineStart (c :: rest)).elim (.plain c) .token)

theorem scan_eq_lexemes (language : Language) (source : Text) :
    language.scan source = language.lexemes true source := rfl

theorem lexeme?_plain {c : Char} {rest : Text} :
    language.lexeme? lineStart (c :: rest) = some (.plain c) ↔
      language.token? lineStart (c :: rest) = none := by
  cases h : language.token? lineStart (c :: rest) <;> simp [lexeme?, h]

theorem lexeme?_token {token : Token} {text : Text} :
    language.lexeme? lineStart text = some (.token token) ↔
      language.token? lineStart text = some token := by
  cases text with
  | nil =>
    have : language.token? lineStart [] = none := by
      cases h : language.token? lineStart [] with
      | none => rfl
      | some found =>
        have hfront := token?_isPrefix h
        exact absurd (List.prefix_nil.1 hfront.2) hfront.1
    simp [lexeme?, this]
  | cons c rest => cases h : language.token? lineStart (c :: rest) <;> simp [lexeme?, h]

theorem lexeme?_isPrefix {text : Text} {lexeme : Lexeme}
    (h : language.lexeme? lineStart text = some lexeme) :
    lexeme.text ≠ [] ∧ lexeme.text <+: text := by
  cases lexeme with
  | plain c =>
    cases text with
    | nil => simp [lexeme?] at h
    | cons d rest =>
      have hd : d = c := by
        cases ht : language.token? lineStart (d :: rest) <;> simp [lexeme?, ht] at h
        exact h
      subst hd
      exact ⟨by simp [Lexeme.text], by simp [Lexeme.text]⟩
  | token token => exact token?_isPrefix (lexeme?_token.1 h)

theorem exists_lexeme? (language : Language) (lineStart : Bool) {text : Text} (h : text ≠ []) :
    ∃ lexeme rest, text = lexeme.text ++ rest ∧
      language.lexeme? lineStart (lexeme.text ++ rest) = some lexeme := by
  obtain ⟨lexeme, hl⟩ : ∃ lexeme, language.lexeme? lineStart text = some lexeme := by
    cases text with
    | nil => exact absurd rfl h
    | cons c rest => exact ⟨_, rfl⟩
  obtain ⟨rest, rfl⟩ := (lexeme?_isPrefix hl).2
  exact ⟨lexeme, rest, rfl, hl⟩

/-! ### The scan as a recursion -/

theorem scanFrom_eq_append (inside : Nat) (lineStart : Bool) (found : List Lexeme) (text : Text) :
    language.scanFrom inside lineStart found text =
      found.reverse ++ language.scanFrom inside lineStart [] text := by
  induction text generalizing inside lineStart found with
  | nil => cases inside <;> simp [scanFrom]
  | cons c rest ih =>
    cases inside with
    | succ inside => rw [scanFrom, scanFrom, ih]
    | zero =>
      rw [scanFrom, scanFrom]
      split
      · rw [ih, ih 0 _ [_]]
        simp
      · next token _ =>
        rw [ih, ih _ _ [_]]
        simp

theorem scanFrom_length_append (lineStart : Bool) (text rest : Text) :
    language.scanFrom text.length lineStart [] (text ++ rest) =
      language.lexemes (text.lineStartAfter lineStart) rest := by
  induction text generalizing lineStart with
  | nil => rfl
  | cons c text ih =>
    rw [List.length_cons, List.cons_append, scanFrom, ih, Text.lineStartAfter_cons]

@[simp]
theorem lexemes_nil : language.lexemes lineStart [] = [] := rfl

/-- **One step of the scan.** -/
theorem lexemes_append {lexeme : Lexeme} {rest : Text}
    (h : language.lexeme? lineStart (lexeme.text ++ rest) = some lexeme) :
    language.lexemes lineStart (lexeme.text ++ rest) =
      lexeme :: language.lexemes (lexeme.text.lineStartAfter lineStart) rest := by
  cases lexeme with
  | plain c =>
    have ht : language.token? lineStart (c :: rest) = none := lexeme?_plain.1 h
    show language.scanFrom 0 lineStart [] (c :: rest) = _
    rw [scanFrom, ht]
    dsimp only
    rw [scanFrom_eq_append]
    rfl
  | token token =>
    have ht := lexeme?_token.1 h
    have hne := (token?_isPrefix ht).1
    rw [Lexeme.text] at ht ⊢
    cases htext : token.text with
    | nil => exact absurd htext hne
    | cons c more =>
      rw [htext] at ht
      rw [lexemes, List.cons_append, scanFrom]
      rw [List.cons_append] at ht
      rw [ht]
      dsimp only
      rw [htext, List.length_cons, Nat.add_sub_cancel, scanFrom_eq_append, scanFrom_length_append,
        Text.lineStartAfter_cons]
      rfl

/-- **Induction along a scan.** -/
theorem scan_induction (language : Language) {motive : Bool → Text → Prop}
    (nil : ∀ lineStart, motive lineStart [])
    (step : ∀ lineStart lexeme rest,
      language.lexeme? lineStart (lexeme.text ++ rest) = some lexeme →
      motive (lexeme.text.lineStartAfter lineStart) rest → motive lineStart (lexeme.text ++ rest))
    (lineStart : Bool) (text : Text) : motive lineStart text := by
  induction hn : text.length using Nat.strongRecOn generalizing lineStart text with
  | ind n ih =>
    by_cases h : text = []
    · subst h
      exact nil lineStart
    · obtain ⟨lexeme, rest, rfl, hl⟩ := exists_lexeme? language lineStart h
      refine step lineStart lexeme rest hl (ih rest.length ?_ _ rest rfl)
      have := List.length_pos_iff.2 (lexeme?_isPrefix hl).1
      rw [List.length_append] at hn
      omega

theorem flatMap_text_lexemes (language : Language) (lineStart : Bool) (text : Text) :
    (language.lexemes lineStart text).flatMap Lexeme.text = text := by
  simp [lexemes, flatMap_text_scanFrom]

theorem lexemes_eq_nil {text : Text} : language.lexemes lineStart text = [] ↔ text = [] := by
  constructor
  · intro h
    rw [← flatMap_text_lexemes language lineStart text, h]
    rfl
  · rintro rfl
    rfl

theorem text_ne_nil_of_mem_lexemes {text : Text} {lexeme : Lexeme}
    (h : lexeme ∈ language.lexemes lineStart text) : lexeme.text ≠ [] := by
  induction lineStart, text using scan_induction language with
  | nil => simp at h
  | step lineStart first rest hl ih =>
    rw [lexemes_append hl, List.mem_cons] at h
    rcases h with rfl | h
    · exact (lexeme?_isPrefix hl).1
    · exact ih h

/-! ### Borders -/

/-- **Behind a border the scan starts anew.** -/
theorem exists_of_lexemes_eq_append {text : Text} {before after : List Lexeme}
    (h : language.lexemes lineStart text = before ++ after) :
    ∃ rest, text = before.flatMap Lexeme.text ++ rest ∧
      after =
        language.lexemes (Text.lineStartAfter lineStart (before.flatMap Lexeme.text)) rest := by
  induction before generalizing lineStart text with
  | nil => exact ⟨text, rfl, h.symm⟩
  | cons first before ih =>
    have hne : text ≠ [] := by
      rintro rfl
      simp at h
    obtain ⟨lexeme, rest, rfl, hl⟩ := exists_lexeme? language lineStart hne
    rw [lexemes_append hl, List.cons_append, List.cons.injEq] at h
    obtain ⟨rfl, h⟩ := h
    obtain ⟨rest', rfl, rfl⟩ := ih h
    exact ⟨rest', by simp, by simp [Text.lineStartAfter_append]⟩

theorem exists_rest_of_lexemes_eq {text : Text} {before after : List Lexeme} {lexeme : Lexeme}
    (h : language.lexemes lineStart text = before ++ lexeme :: after) :
    ∃ rest, text = before.flatMap Lexeme.text ++ (lexeme.text ++ rest) ∧
      language.lexeme? (Text.lineStartAfter lineStart (before.flatMap Lexeme.text))
        (lexeme.text ++ rest) = some lexeme ∧
      after = language.lexemes (Text.lineStartAfter lineStart
        (before.flatMap Lexeme.text ++ lexeme.text)) rest := by
  obtain ⟨behind, rfl, hbehind⟩ := exists_of_lexemes_eq_append h
  have hne : behind ≠ [] := by
    rintro rfl
    simp at hbehind
  obtain ⟨first, rest, rfl, hl⟩ := exists_lexeme? language
    (Text.lineStartAfter lineStart (before.flatMap Lexeme.text)) hne
  rw [lexemes_append hl, ← Text.lineStartAfter_append, List.cons.injEq] at hbehind
  obtain ⟨rfl, hafter⟩ := hbehind
  exact ⟨rest, rfl, hl, hafter⟩

theorem exists_rest_of_lexemes_eq_cons {text : Text} {first : Lexeme} {after : List Lexeme}
    (h : language.lexemes lineStart text = first :: after) :
    ∃ rest, text = first.text ++ rest ∧ language.lexeme? lineStart text = some first ∧
      after = language.lexemes (first.text.lineStartAfter lineStart) rest := by
  rw [← List.nil_append (first :: after)] at h
  obtain ⟨rest, rfl, hl, hafter⟩ := exists_rest_of_lexemes_eq h
  exact ⟨rest, rfl, hl, hafter⟩

/-- The scan of the source finds the token behind `before`. -/
def Finds (language : Language) (source before : Text) (token : Token) : Prop :=
  ∃ lexemes later, language.scan source = lexemes ++ .token token :: later ∧
    lexemes.flatMap Lexeme.text = before

theorem finds_iff_range {source before : Text} {token : Token} :
    language.Finds source before token ↔ ∃ n ∈ List.range (language.scan source).length,
      ((language.scan source).take n).flatMap Lexeme.text = before ∧
        (language.scan source)[n]? = some (.token token) := by
  constructor
  · rintro ⟨lexemes, later, hscan, hcover⟩
    refine ⟨lexemes.length, ?_, ?_, ?_⟩
    · rw [hscan, List.mem_range, List.length_append, List.length_cons]
      omega
    · rw [hscan, List.take_left, hcover]
    · rw [hscan, List.getElem?_append_right (Nat.le_refl _), Nat.sub_self]
      rfl
  · rintro ⟨n, _, hcover, hget⟩
    obtain ⟨hlt, hget⟩ := List.getElem?_eq_some_iff.1 hget
    refine ⟨(language.scan source).take n, (language.scan source).drop (n + 1), ?_, hcover⟩
    rw [← hget, ← List.drop_eq_getElem_cons hlt, List.take_append_drop]

instance (source before : Text) (token : Token) : Decidable (language.Finds source before token) :=
  decidable_of_iff' _ finds_iff_range

theorem exists_lexemes_of_finds {before behind : Text} {token : Token}
    (h : language.Finds (before ++ (token.text ++ behind)) before token) :
    ∃ lexemes, lexemes.flatMap Lexeme.text = before ∧
      language.token? (Text.lineStartAfter true before) (token.text ++ behind) = some token ∧
      language.lexemes true (before ++ (token.text ++ behind)) = lexemes ++ .token token ::
        language.lexemes (Text.lineStartAfter true (before ++ token.text)) behind := by
  obtain ⟨lexemes, later, hscan, hcover⟩ := h
  rw [scan_eq_lexemes] at hscan
  obtain ⟨rest, htext, hl, hlater⟩ := exists_rest_of_lexemes_eq hscan
  rw [hcover] at htext hl hlater
  obtain rfl : behind = rest := List.append_cancel_left (List.append_cancel_left htext)
  exact ⟨lexemes, hcover, lexeme?_token.1 hl, hscan.trans (by rw [hlater]; rfl)⟩

theorem exists_behind_of_finds {source before : Text} {token : Token}
    (h : language.Finds source before token) :
    ∃ behind, source = before ++ (token.text ++ behind) := by
  obtain ⟨lexemes, later, hscan, rfl⟩ := h
  obtain ⟨rest, htext, _⟩ := exists_rest_of_lexemes_eq hscan
  exact ⟨rest, htext⟩

/-- Two rows of lexemes with the same scan, of which the first covers no more than the second. -/
theorem isPrefix_of_flatMap_isPrefix {a b c d : List Lexeme} (h : a ++ b = c ++ d)
    (hne : ∀ lexeme ∈ a ++ b, lexeme.text ≠ [])
    (hle : (a.flatMap Lexeme.text).length ≤ (c.flatMap Lexeme.text).length) : a <+: c := by
  rcases List.append_eq_append_iff.1 h with ⟨e, rfl, _⟩ | ⟨e, rfl, _⟩
  · exact List.prefix_append ..
  · rw [List.flatMap_append, List.length_append] at hle
    have he : e.flatMap Lexeme.text = [] := List.eq_nil_of_length_eq_zero (by omega)
    have : e = [] := by
      cases e with
      | nil => rfl
      | cons lexeme e =>
        rw [List.flatMap_cons, List.append_eq_nil_iff] at he
        exact absurd he.1 (hne lexeme (by simp))
    subst this
    simp

end Language

end Literate
