import Literate.Text.Line
import Mathlib.Data.List.SplitBy
import Mathlib.Data.List.TakeWhile

/-!
# The line structure of a text

A text is a row of terminated lines and a last line without terminator, and `Text.line_induction`
reads it so.  What the line functions answer then follows line by line:

  `lines (line ++ ending.text ++ rest) = ⟨line, some ending⟩ :: lines rest`,

as long as the border between `ending` and `rest` does not cut a carriage return off its line feed
(`CutsPair`).  The same proviso stands wherever two texts are put together: `pairs` counts the
carriage returns with a line feed after them, and is additive up to one pair that the border makes.
-/

namespace Literate

theorem isLineBreak_iff {c : Char} : isLineBreak c = true ↔ c = '\n' ∨ c = '\r' := by
  simp [isLineBreak]

theorem isLineBreak_eq_false_iff {c : Char} : isLineBreak c = false ↔ c ≠ '\n' ∧ c ≠ '\r' := by
  simp [isLineBreak]

theorem not_isBlank_of_isLineBreak {c : Char} (h : isLineBreak c = true) : isBlank c = false := by
  rw [Bool.eq_false_iff]
  intro hblank
  rw [not_isLineBreak_of_isBlank hblank] at h
  simp at h

namespace Text

def Unbroken (text : Text) : Prop :=
  ∀ c ∈ text, isLineBreak c = false

instance (text : Text) : Decidable text.Unbroken :=
  List.decidableBAll (isLineBreak · = false) text

/-- The last character of the text is a line break. -/
def EndsLine (text : Text) : Prop :=
  ∃ c, text.getLast? = some c ∧ isLineBreak c = true

instance (text : Text) : Decidable text.EndsLine :=
  decidable_of_iff (text.getLast?.any isLineBreak = true) (Option.any_eq_true ..)

/-- The border between the two texts would cut a carriage return off its line feed. -/
def CutsPair (before after : Text) : Prop :=
  before.getLast? = some '\r' ∧ after.head? = some '\n'

instance (before after : Text) : Decidable (CutsPair before after) :=
  inferInstanceAs (Decidable (_ ∧ _))

theorem unbroken_nil : Unbroken [] := by
  intro c hc
  simp at hc

theorem unbroken_cons {c : Char} {text : Text} :
    Unbroken (c :: text) ↔ isLineBreak c = false ∧ Unbroken text := by
  simp [Unbroken]

theorem unbroken_append {a b : Text} : Unbroken (a ++ b) ↔ Unbroken a ∧ Unbroken b := by
  simp [Unbroken, or_imp, forall_and]

theorem unbroken_of_isBlank {text : Text} (h : text.isBlank = true) : Unbroken text := by
  intro c hc
  rw [isBlank, List.all_eq_true] at h
  exact not_isLineBreak_of_isBlank (h c hc)

theorem Unbroken.not_endsLine {text : Text} (h : Unbroken text) : ¬ EndsLine text := by
  rintro ⟨c, hc, hbreak⟩
  rw [h c (List.mem_of_getLast? hc)] at hbreak
  simp at hbreak

theorem endsLine_append_of_ne_nil {a b : Text} (hb : b ≠ []) : EndsLine (a ++ b) ↔ EndsLine b := by
  obtain ⟨c, hc⟩ : ∃ c, b.getLast? = some c := ⟨b.getLast hb, List.getLast?_eq_some_getLast hb⟩
  unfold EndsLine
  rw [List.getLast?_append, hc, Option.some_or]

theorem EndsLine.ne_nil {text : Text} (h : EndsLine text) : text ≠ [] := by
  rintro rfl
  obtain ⟨c, hc, _⟩ := h
  simp at hc

theorem EndsLine.cons {text : Text} (h : EndsLine text) (c : Char) : EndsLine (c :: text) :=
  (endsLine_append_of_ne_nil h.ne_nil (a := [c])).2 h

theorem endsLine_ending (ending : LineEnding) : EndsLine ending.text := by
  cases ending
  · exact ⟨'\n', rfl, rfl⟩
  · exact ⟨'\n', rfl, rfl⟩
  · exact ⟨'\r', rfl, rfl⟩

theorem ending_ne_nil (ending : LineEnding) : ending.text ≠ [] := (endsLine_ending ending).ne_nil

theorem endsLine_append_ending (text : Text) (ending : LineEnding) :
    EndsLine (text ++ ending.text) :=
  (endsLine_append_of_ne_nil (ending_ne_nil ending)).2 (endsLine_ending ending)

theorem not_cutsPair_cons {a b : Text} (h : ¬ CutsPair a b) (c : Char) (hne : a = [] → b = []) :
    ¬ CutsPair (c :: a) b := by
  cases a with
  | nil => simp [hne rfl, CutsPair]
  | cons d a => simpa [CutsPair] using h

def Ended (text : Text) : Prop :=
  text = [] ∨ text.EndsLine

instance (text : Text) : Decidable text.Ended :=
  inferInstanceAs (Decidable (_ ∨ _))

theorem Ended.of_append {a b : Text} (h : Ended (a ++ b)) : Ended b := by
  by_cases hb : b = []
  · exact Or.inl hb
  · rcases h with h | h
    · exact absurd (List.append_eq_nil_iff.1 h).2 hb
    · exact Or.inr ((endsLine_append_of_ne_nil hb).1 h)

theorem Ended.of_cons {c : Char} {text : Text} (h : Ended (c :: text)) : Ended text :=
  of_append (a := [c]) h

theorem Ended.isLineBreak {c : Char} (h : Ended [c]) : isLineBreak c = true := by
  rcases h with h | ⟨d, hd, hbreak⟩
  · simp at h
  · obtain rfl : c = d := by simpa using hd
    exact hbreak

theorem CutsPair.append_left {b rest : Text} (h : CutsPair b rest) (a : Text) :
    CutsPair (a ++ b) rest := by
  refine ⟨?_, h.2⟩
  rw [List.getLast?_append, h.1]
  rfl

theorem CutsPair.cons {a rest : Text} (h : CutsPair a rest) (c : Char) : CutsPair (c :: a) rest :=
  h.append_left [c]

/-- If there is a pair in the text, there is one at its end. -/
def PairsToEnd (text : Text) : Prop :=
  ∀ a b, text = a ++ '\r' :: '\n' :: b → ∃ front, text = front ++ ['\r', '\n']

theorem exists_append_pair {a b front : Text} (h : a ++ b = front ++ ['\r', '\n']) (hb : b ≠ [])
    (hcut : ¬ CutsPair a b) : ∃ front', b = front' ++ ['\r', '\n'] := by
  rcases List.append_eq_append_iff.1 h with ⟨middle, _, hmiddle⟩ | ⟨middle, rfl, hmiddle⟩
  · exact ⟨middle, hmiddle⟩
  · match middle with
    | [] => exact ⟨[], hmiddle.symm⟩
    | [c] =>
      obtain ⟨rfl, rfl⟩ : '\r' = c ∧ ['\n'] = b := by simpa using hmiddle
      exact absurd ⟨by simp, rfl⟩ hcut
    | [c, d] =>
      obtain ⟨_, _, rfl⟩ : '\r' = c ∧ '\n' = d ∧ b = [] := by simpa using hmiddle
      exact absurd rfl hb
    | c :: d :: e :: middle => simp at hmiddle

theorem PairsToEnd.of_append {a b : Text} (h : PairsToEnd (a ++ b)) : PairsToEnd b := by
  rintro front back rfl
  obtain ⟨c, hc⟩ := h (a ++ front) back (by simp)
  have hlast : ¬ CutsPair (a ++ front) ('\r' :: '\n' :: back) := by simp [CutsPair]
  rw [← List.append_assoc] at hc
  obtain ⟨front', hfront'⟩ := exists_append_pair hc (by simp) hlast
  exact ⟨front ++ front', by rw [hfront', List.append_assoc]⟩

/-! ### One line at a time -/

/-- A text without line breaks, or a line, its terminator and the rest of the text.  The rest does
not start with the second half of the terminator. -/
theorem exists_line (text : Text) :
    Unbroken text ∨ ∃ (line : Text) (ending : LineEnding) (rest : Text),
      Unbroken line ∧ ¬ CutsPair ending.text rest ∧ text = line ++ ending.text ++ rest := by
  induction text with
  | nil => exact Or.inl unbroken_nil
  | cons c text ih =>
    by_cases hc : isLineBreak c = true
    · right
      rcases isLineBreak_iff.1 hc with rfl | rfl
      · exact ⟨[], .lf, text, unbroken_nil, by simp [CutsPair, LineEnding.text], rfl⟩
      · cases text with
        | nil => exact ⟨[], .cr, [], unbroken_nil, by simp [CutsPair], rfl⟩
        | cons d text =>
          by_cases hd : d = '\n'
          · subst hd
            exact ⟨[], .crlf, text, unbroken_nil, by simp [CutsPair, LineEnding.text], rfl⟩
          · exact ⟨[], .cr, d :: text, unbroken_nil, by simp [CutsPair, hd], rfl⟩
    · have hc' : isLineBreak c = false := by simpa using hc
      rcases ih with h | ⟨line, ending, rest, hline, hcut, rfl⟩
      · exact Or.inl (unbroken_cons.2 ⟨hc', h⟩)
      · exact Or.inr ⟨c :: line, ending, rest, unbroken_cons.2 ⟨hc', hline⟩, hcut, by simp⟩

/-- **Induction over the lines of a text.** -/
theorem line_induction {motive : Text → Prop} (last : ∀ text, Unbroken text → motive text)
    (line : ∀ (line : Text) (ending : LineEnding) (rest : Text), Unbroken line →
      ¬ CutsPair ending.text rest → motive rest → motive (line ++ ending.text ++ rest))
    (text : Text) : motive text := by
  induction hn : text.length using Nat.strongRecOn generalizing text with
  | ind n ih =>
    rcases exists_line text with h | ⟨first, ending, rest, hfirst, hcut, rfl⟩
    · exact last text h
    · refine line first ending rest hfirst hcut (ih rest.length ?_ rest rfl)
      have := List.length_pos_iff.2 (ending_ne_nil ending)
      simp only [List.length_append] at hn
      omega

theorem lines_cons {c : Char} (hc : isLineBreak c = false) (rest : Text) :
    lines (c :: rest) =
      (lines rest).modifyHead fun line => { line with text := c :: line.text } := by
  obtain ⟨hn, hr⟩ := isLineBreak_eq_false_iff.1 hc
  rw [lines]
  · exact fun _ h _ => hr h
  · exact hr
  · exact hn

theorem lines_of_unbroken {text : Text} (h : Unbroken text) : lines text = [⟨text, none⟩] := by
  induction text with
  | nil => rfl
  | cons c text ih =>
    rw [unbroken_cons] at h
    rw [lines_cons h.1, ih h.2]
    rfl

theorem lines_ending_append (ending : LineEnding) {rest : Text}
    (hcut : ¬ CutsPair ending.text rest) :
    lines (ending.text ++ rest) = ⟨[], some ending⟩ :: lines rest := by
  cases ending with
  | lf => rfl
  | crlf => rfl
  | cr =>
    cases rest with
    | nil => rfl
    | cons d rest =>
      have hd : d ≠ '\n' := by
        rintro rfl
        exact hcut ⟨rfl, rfl⟩
      show lines ('\r' :: d :: rest) = _
      rw [lines]
      exact fun _ h => hd (List.cons.inj h).1

theorem lines_append {line : Text} {ending : LineEnding} {rest : Text} (h : Unbroken line)
    (hcut : ¬ CutsPair ending.text rest) :
    lines (line ++ ending.text ++ rest) = ⟨line, some ending⟩ :: lines rest := by
  induction line with
  | nil => exact lines_ending_append ending hcut
  | cons c line ih =>
    rw [unbroken_cons] at h
    rw [List.cons_append, List.cons_append, lines_cons h.1, ih h.2]
    rfl

theorem flatMap_lines (text : Text) :
    (lines text).flatMap (fun line => line.text ++ (line.terminator.map LineEnding.text).getD []) =
      text := by
  induction text using line_induction with
  | last text h =>
    rw [lines_of_unbroken h]
    simp
  | line line ending rest h hcut ih =>
    rw [lines_append h hcut, List.flatMap_cons, ih]
    rfl

theorem unbroken_of_mem_lines {text : Text} {line : Line} (h : line ∈ lines text) :
    Unbroken line.text := by
  induction text using line_induction with
  | last text hu =>
    rw [lines_of_unbroken hu, List.mem_singleton] at h
    rw [h]
    exact hu
  | line first ending rest hu hcut ih =>
    rw [lines_append hu hcut, List.mem_cons] at h
    rcases h with rfl | h
    · exact hu
    · exact ih h

/-! ### Pairs and terminators -/

/-- The number of carriage returns with a line feed right after them. -/
def pairs : Text → Nat
  | [] => 0
  | c :: rest => (c == '\r' && rest.head? == some '\n').toNat + pairs rest

/-- **Pairs are counted part by part**, and the border may make one more. -/
theorem pairs_append (a b : Text) :
    pairs (a ++ b) = pairs a + pairs b + if CutsPair a b then 1 else 0 := by
  induction a with
  | nil => simp [pairs, CutsPair]
  | cons c a ih =>
    rw [List.cons_append, pairs, pairs, ih]
    cases a with
    | nil =>
      by_cases hc : c = '\r'
      · by_cases hb : b.head? = some '\n' <;> simp [CutsPair, hc, hb, pairs, Nat.add_comm]
      · simp [CutsPair, hc, pairs]
    | cons d a =>
      have hcut : CutsPair (c :: d :: a) b ↔ CutsPair (d :: a) b := by simp [CutsPair]
      rw [if_congr hcut rfl rfl]
      simp only [List.cons_append, List.head?_cons]
      omega

theorem pairs_append_of_not_cutsPair {a b : Text} (h : ¬ CutsPair a b) :
    pairs (a ++ b) = pairs a + pairs b := by
  rw [pairs_append, if_neg h, Nat.add_zero]

theorem pairs_of_unbroken {text : Text} (h : Unbroken text) : pairs text = 0 := by
  induction text with
  | nil => rfl
  | cons c text ih =>
    rw [unbroken_cons] at h
    have hc := (isLineBreak_eq_false_iff.1 h.1).2
    simp [pairs, hc, ih h.2]

/-- Every line break is a terminator of its own or the second half of a pair. -/
theorem countTerminators_add_pairs (text : Text) :
    countTerminators text + pairs text = text.countP isLineBreak := by
  induction text with
  | nil => rfl
  | cons c text ih =>
    rw [countTerminators, pairs, List.countP_cons, ← ih]
    by_cases hn : c = '\n'
    · subst hn
      simp [isLineBreak]
      omega
    · by_cases hr : c = '\r'
      · subst hr
        by_cases hh : text.head? = some '\n'
        · simp [isLineBreak, hh]
          omega
        · have hb : (text.head? == some '\n') = false := by simpa using hh
          simp [isLineBreak, hh, hb]
          omega
      · simp [isLineBreak, hn, hr]

theorem countTerminators_append (a b : Text) :
    countTerminators (a ++ b) + (if CutsPair a b then 1 else 0) =
      countTerminators a + countTerminators b := by
  have ha := countTerminators_add_pairs a
  have hb := countTerminators_add_pairs b
  have hab := countTerminators_add_pairs (a ++ b)
  rw [List.countP_append, pairs_append] at hab
  omega

theorem countTerminators_of_unbroken {text : Text} (h : Unbroken text) :
    countTerminators text = 0 := by
  have hcount := countTerminators_add_pairs text
  have hnone : text.countP isLineBreak = 0 := by
    rw [List.countP_eq_zero]
    intro c hc
    simp [h c hc]
  omega

theorem countTerminators_ending (ending : LineEnding) : countTerminators ending.text = 1 := by
  cases ending <;> rfl

theorem countTerminators_pos {text : Text} (h : EndsLine text) : 1 ≤ countTerminators text := by
  obtain ⟨c, hc, hbreak⟩ := h
  obtain ⟨front, rfl⟩ := List.getLast?_eq_some_iff.1 hc
  have happend := countTerminators_append front [c]
  have hone : countTerminators [c] = 1 := by
    rcases isLineBreak_iff.1 hbreak with rfl | rfl <;> rfl
  by_cases hcut : CutsPair front [c]
  · obtain ⟨before, rfl⟩ := List.getLast?_eq_some_iff.1 hcut.1
    have hfront := countTerminators_append before ['\r']
    have hr : ¬ CutsPair before ['\r'] := by simp [CutsPair]
    rw [if_neg hr] at hfront
    have : countTerminators ['\r'] = 1 := rfl
    rw [if_pos hcut] at happend
    omega
  · rw [if_neg hcut] at happend
    omega

theorem length_lines (text : Text) : (lines text).length = countTerminators text + 1 := by
  induction text using line_induction with
  | last text h => rw [lines_of_unbroken h, countTerminators_of_unbroken h]; rfl
  | line line ending rest h hcut ih =>
    have hline := countTerminators_append (line ++ ending.text) rest
    have hfirst := countTerminators_append line ending.text
    have hu : ¬ CutsPair line ending.text := fun hc => by
      have := h _ (List.mem_of_getLast? hc.1)
      simp [isLineBreak] at this
    have hcut' : ¬ CutsPair (line ++ ending.text) rest := by
      unfold CutsPair at hcut ⊢
      rw [List.getLast?_append]
      cases ending <;> exact hcut
    rw [if_neg hcut', Nat.add_zero] at hline
    rw [if_neg hu, Nat.add_zero, countTerminators_ending,
      countTerminators_of_unbroken h] at hfirst
    rw [lines_append h hcut, List.length_cons, ih]
    omega

/-- Every line that is terminated ends with the given terminator. -/
def Styled (ending : LineEnding) (text : Text) : Prop :=
  ∀ line ∈ lines text, ∀ terminator, line.terminator = some terminator → terminator = ending

instance (ending : LineEnding) (text : Text) : Decidable (Styled ending text) :=
  inferInstanceAs (Decidable (∀ line ∈ lines text, ∀ terminator ∈ line.terminator,
    terminator = ending))

theorem exists_crlf_of_pairs_pos {text : Text} (h : 0 < pairs text) :
    ∃ line ∈ lines text, line.terminator = some .crlf := by
  induction text using line_induction with
  | last text hu =>
    rw [pairs_of_unbroken hu] at h
    omega
  | line line ending rest hu hcut ih =>
    rw [lines_append hu hcut]
    by_cases hcrlf : ending = .crlf
    · exact ⟨_, List.mem_cons_self .., by rw [hcrlf]⟩
    · have hline : pairs (line ++ ending.text) = 0 := by
        rw [pairs_append, pairs_of_unbroken hu, if_neg]
        · cases ending with
          | lf => rfl
          | cr => rfl
          | crlf => exact absurd rfl hcrlf
        · rintro ⟨hlast, _⟩
          simpa [isLineBreak] using hu _ (List.mem_of_getLast? hlast)
      have hcut' : ¬ CutsPair (line ++ ending.text) rest := by
        rintro ⟨hlast, hhead⟩
        rw [List.getLast?_append_of_ne_nil _ (ending_ne_nil ending)] at hlast
        exact hcut ⟨hlast, hhead⟩
      rw [pairs_append_of_not_cutsPair hcut', hline, Nat.zero_add] at h
      obtain ⟨found, hmem, hfound⟩ := ih h
      exact ⟨found, List.mem_cons_of_mem _ hmem, hfound⟩

theorem Styled.exists_append_pair {text : Text} (h : Styled .crlf text) (hends : EndsLine text) :
    ∃ front, text = front ++ ['\r', '\n'] := by
  induction text using line_induction with
  | last text hu => exact absurd hends hu.not_endsLine
  | line line ending rest hu hcut ih =>
    rw [Styled, lines_append hu hcut] at h
    obtain rfl := h _ (List.mem_cons_self ..) ending rfl
    by_cases hrest : rest = []
    · exact ⟨line, by rw [hrest, List.append_nil]; rfl⟩
    · obtain ⟨front, hfront⟩ := ih (fun found hmem => h found (List.mem_cons_of_mem _ hmem))
        ((endsLine_append_of_ne_nil hrest).1 hends)
      exact ⟨line ++ LineEnding.crlf.text ++ front, by rw [hfront]; simp⟩

/-- **A text in one style keeps its pairs to the end.** -/
theorem Styled.pairsToEnd {ending : LineEnding} {text : Text} (h : Styled ending text)
    (hended : Ended text) : PairsToEnd text := by
  rintro a b rfl
  have hpairs : 0 < pairs (a ++ '\r' :: '\n' :: b) := by
    have hpair : pairs ('\r' :: '\n' :: b) = 1 + pairs ('\n' :: b) := rfl
    rw [pairs_append, hpair]
    omega
  obtain ⟨line, hmem, hcrlf⟩ := exists_crlf_of_pairs_pos hpairs
  obtain rfl := h line hmem _ hcrlf
  exact h.exists_append_pair (hended.resolve_left (by simp))

/-! ### The terminator at the end -/

/-- A text that ends a line is what stands before its last terminator, and the terminator. -/
theorem exists_ending {text : Text} (h : EndsLine text) :
    ∃ (content : Text) (ending : LineEnding),
      text = content ++ ending.text ∧ ¬ CutsPair content ending.text := by
  obtain ⟨c, hc, hbreak⟩ := h
  obtain ⟨front, rfl⟩ := List.getLast?_eq_some_iff.1 hc
  rcases isLineBreak_iff.1 hbreak with rfl | rfl
  · by_cases hr : front.getLast? = some '\r'
    · obtain ⟨content, rfl⟩ := List.getLast?_eq_some_iff.1 hr
      exact ⟨content, .crlf, by simp [LineEnding.text], by simp [CutsPair, LineEnding.text]⟩
    · exact ⟨front, .lf, rfl, fun hcut => hr hcut.1⟩
  · exact ⟨front, .cr, rfl, by simp [CutsPair, LineEnding.text]⟩

theorem unbroken_of_countTerminators_eq_zero {text : Text} (h : countTerminators text = 0) :
    Unbroken text := by
  rcases exists_line text with hu | ⟨line, ending, rest, hline, hcut, rfl⟩
  · exact hu
  · have hlength := length_lines (line ++ ending.text ++ rest)
    rw [lines_append hline hcut, h, List.length_cons, length_lines rest] at hlength
    omega

/-- A text with one terminator, at its end, is one line. -/
theorem exists_unbroken_append_ending {text : Text} (h : EndsLine text)
    (hcount : countTerminators text = 1) :
    ∃ (line : Text) (ending : LineEnding), Unbroken line ∧ text = line ++ ending.text := by
  obtain ⟨content, ending, rfl, hcut⟩ := exists_ending h
  have hadd := countTerminators_append content ending.text
  rw [if_neg hcut, hcount, countTerminators_ending] at hadd
  exact ⟨content, ending, unbroken_of_countTerminators_eq_zero (by omega), rfl⟩

theorem stripTerminator_append {content : Text} {ending : LineEnding}
    (h : ¬ CutsPair content ending.text) :
    stripTerminator (content ++ ending.text) = (content, some ending) := by
  cases ending with
  | lf =>
    rw [stripTerminator, LineEnding.text, List.reverse_append]
    cases hr : content.reverse with
    | nil => simp_all
    | cons d rest =>
      have hd : d ≠ '\r' := by
        rintro rfl
        refine h ⟨?_, rfl⟩
        rw [List.getLast?_eq_head?_reverse, hr]
        rfl
      have hcontent : content = (d :: rest).reverse := by rw [← hr, List.reverse_reverse]
      rw [hcontent]
      simp [hd]
  | crlf => simp [stripTerminator, LineEnding.text]
  | cr => simp [stripTerminator, LineEnding.text]

theorem stripTerminator_of_not_endsLine {text : Text} (h : ¬ EndsLine text) :
    stripTerminator text = (text, none) := by
  rw [stripTerminator]
  have hhead : ∀ c, text.reverse.head? = some c → isLineBreak c = false := by
    intro c hc
    rw [← List.getLast?_eq_head?_reverse] at hc
    cases hbreak : isLineBreak c with
    | false => rfl
    | true => exact absurd ⟨c, hc, hbreak⟩ h
  cases hr : text.reverse with
  | nil => rfl
  | cons c rest =>
    have hc := isLineBreak_eq_false_iff.1 (hhead c (by rw [hr]; rfl))
    split
    · exact absurd (by simp_all) hc.1
    · exact absurd (by simp_all) hc.1
    · exact absurd (by simp_all) hc.2
    · rfl

/-- **A terminator can be split off exactly from a text that ends a line.** -/
theorem isSome_stripTerminator {text : Text} :
    (stripTerminator text).2.isSome = true ↔ EndsLine text := by
  by_cases h : EndsLine text
  · obtain ⟨content, ending, rfl, hcut⟩ := exists_ending h
    simp [stripTerminator_append hcut, h]
  · simp [stripTerminator_of_not_endsLine h, h]

theorem exists_of_stripTerminator {text : Text} {ending : LineEnding}
    (h : (stripTerminator text).2 = some ending) :
    ∃ content, text = content ++ ending.text ∧ ¬ CutsPair content ending.text := by
  have hends : EndsLine text := isSome_stripTerminator.1 (by rw [h]; rfl)
  obtain ⟨content, ending', rfl, hcut⟩ := exists_ending hends
  rw [stripTerminator_append hcut] at h
  obtain rfl := Option.some.inj h
  exact ⟨content, rfl, hcut⟩

theorem getLast?_of_stripTerminator {text : Text} {ending : LineEnding}
    (h : (stripTerminator text).2 = some ending) : text.getLast? = ending.text.getLast? := by
  obtain ⟨content, rfl, _⟩ := exists_of_stripTerminator h
  exact List.getLast?_append_of_ne_nil _ (ending_ne_nil ending)

/-! ### The last line -/

theorem lastLine_append_of_unbroken {b : Text} (h : b.Unbroken) (a : Text) :
    lastLine (a ++ b) = lastLine a ++ b := by
  have hb : ∀ c ∈ b.reverse, (!isLineBreak c) = true := by
    intro c hc
    rw [h c (List.mem_reverse.1 hc)]
    rfl
  rw [lastLine, List.reverse_append, List.takeWhile_append_of_pos hb, List.reverse_append,
    List.reverse_reverse]
  rfl

theorem lastLine_append_of_mem {b : Text} {c : Char} (hc : c ∈ b) (hbreak : isLineBreak c = true)
    (a : Text) : lastLine (a ++ b) = lastLine b := by
  have hshort : (b.reverse.takeWhile (!isLineBreak ·)).length ≠ b.reverse.length := by
    intro hlength
    have hall := (List.takeWhile_prefix _).eq_of_length hlength
    rw [List.takeWhile_eq_self_iff] at hall
    have := hall c (List.mem_reverse.2 hc)
    simp [hbreak] at this
  rw [lastLine, List.reverse_append, List.takeWhile_append, if_neg hshort]
  rfl

theorem lastLine_of_ended {text : Text} (h : Ended text) : lastLine text = [] := by
  rcases h with rfl | ⟨c, hc, hbreak⟩
  · rfl
  · obtain ⟨front, rfl⟩ := List.getLast?_eq_some_iff.1 hc
    simp [lastLine, hbreak]

end Text

end Literate
