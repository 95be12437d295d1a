import Literate.Proofs.Lines
import Literate.Text.Form

/-!
# Reading forms

A form is read from the front of a text and never looks further than it reads.  So the ways to read
it that stay within a text do not depend on what stands behind the text, and they keep their order
(`filter_lengths_append`).  A form without line breaks does not even see what stands behind the line
(`lengths_append_break`).
-/

namespace Literate

namespace Text

variable {b : Char}

theorem takeWhile_append_break {p : Char → Bool} (hb : p b = false) (text rest : Text) :
    (text ++ b :: rest).takeWhile p = text.takeWhile p := by
  rw [List.takeWhile_append]
  split
  · next h =>
    rw [List.takeWhile_cons_of_neg (by simp [hb]), List.append_nil]
    exact ((List.takeWhile_prefix p).eq_of_length h).symm
  · rfl

theorem le_length_takeWhile {p : Char → Bool} {text : Text} {n : Nat} :
    n ≤ (text.takeWhile p).length ↔ n ≤ text.length ∧ ∀ c ∈ text.take n, p c = true := by
  induction text generalizing n with
  | nil => simp
  | cons c text ih =>
    cases n with
    | zero => simp
    | succ n =>
      by_cases hc : p c = true
      · rw [List.takeWhile_cons_of_pos hc]
        simp [ih, hc]
      · rw [List.takeWhile_cons_of_neg hc]
        simp [hc]

theorem le_length_takeWhile_append {p : Char → Bool} {text : Text} {n : Nat} (hn : n ≤ text.length)
    (rest rest' : Text) : n ≤ ((text ++ rest).takeWhile p).length ↔
      n ≤ ((text ++ rest').takeWhile p).length := by
  rw [le_length_takeWhile, le_length_takeWhile, List.take_append_of_le_length hn,
    List.take_append_of_le_length hn, List.length_append, List.length_append]
  exact and_congr_left fun _ => by omega

theorem filter_descending (low high bound : Nat) :
    ((List.range high).drop low).reverse.filter (· ≤ bound) =
      ((List.range (min high (bound + 1))).drop low).reverse := by
  induction high with
  | zero => simp
  | succ high ih =>
    by_cases hlow : low ≤ high
    · have hdrop : ∀ n, low ≤ n → ((List.range (n + 1)).drop low).reverse =
          n :: ((List.range n).drop low).reverse := by
        intro n hn
        rw [List.range_succ, List.drop_append_of_le_length (by simpa using hn),
          List.reverse_append]
        rfl
      rw [hdrop high hlow]
      by_cases hbound : high ≤ bound
      · rw [List.filter_cons_of_pos (by simpa using hbound), ih,
          Nat.min_eq_left (show high + 1 ≤ bound + 1 by omega), hdrop high hlow,
          Nat.min_eq_left (show high ≤ bound + 1 by omega)]
      · rw [List.filter_cons_of_neg (by simpa using hbound), ih,
          Nat.min_eq_right (show bound + 1 ≤ high + 1 by omega),
          Nat.min_eq_right (show bound + 1 ≤ high by omega)]
    · have hnil : ∀ n ≤ high + 1, (List.range n).drop low = [] := by
        intro n hn
        rw [List.drop_eq_nil_iff, List.length_range]
        omega
      rw [hnil _ (Nat.le_refl _), hnil _ (Nat.min_le_left ..)]
      rfl

end Text

namespace Form

open Text

variable {form first second : Form} {bracket : Bracket} {least n : Nat} {most : Option Nat}
  {start : Bool} {text : Text}

theorem mem_lengths_run : n ∈ (run bracket least most).lengths start text ↔
    least ≤ n ∧ n ≤ (text.takeWhile bracket.contains).length ∧ ∀ bound ∈ most, n ≤ bound := by
  simp only [lengths, List.mem_reverse, List.mem_drop_iff_getElem, List.getElem_range,
    List.length_range]
  constructor
  · rintro ⟨i, hi, rfl⟩
    refine ⟨by omega, by omega, ?_⟩
    rintro bound rfl
    simp only [Option.getD_some] at hi
    omega
  · rintro ⟨hleast, hlongest, hmost⟩
    refine ⟨n - least, ?_, by omega⟩
    cases most with
    | none =>
      simp only [Option.getD_none]
      omega
    | some bound =>
      have := hmost bound rfl
      simp only [Option.getD_some]
      omega

theorem mem_lengths_both : n ∈ (both first second).lengths start text ↔
    ∃ i ∈ first.lengths start text,
      ∃ j ∈ second.lengths (lineStartAfter start (text.take i)) (text.drop i), i + j = n := by
  simp [lengths]

theorem mem_lengths_either : n ∈ (either first second).lengths start text ↔
    n ∈ first.lengths start text ∨ n ∈ second.lengths start text :=
  List.mem_append

theorem mem_lengths_lineStart : n ∈ lineStart.lengths start text ↔ start = true ∧ n = 0 := by
  cases start <;> simp [lengths]

/-- **A form is read from its text.** -/
theorem le_length_of_mem (h : n ∈ form.lengths start text) : n ≤ text.length := by
  induction form generalizing start text n with
  | empty =>
    rw [List.mem_singleton.1 h]
    exact Nat.zero_le _
  | lineStart =>
    rw [(mem_lengths_lineStart.1 h).2]
    exact Nat.zero_le _
  | run bracket least most =>
    exact (mem_lengths_run.1 h).2.1.trans (List.takeWhile_prefix _).length_le
  | both first second ihFirst ihSecond =>
    obtain ⟨i, hi, j, hj, rfl⟩ := mem_lengths_both.1 h
    have hfirst := ihFirst hi
    have hsecond := ihSecond hj
    rw [List.length_drop] at hsecond
    omega
  | either first second ihFirst ihSecond =>
    exact (mem_lengths_either.1 h).elim ihFirst ihSecond

/-! ### Bounds -/

def fewest : Form → Nat
  | empty => 0
  | lineStart => 0
  | run _ least _ => least
  | both first second => first.fewest + second.fewest
  | either first second => min first.fewest second.fewest

theorem fewest_le_of_mem (h : n ∈ form.lengths start text) : form.fewest ≤ n := by
  induction form generalizing start text n with
  | empty => exact Nat.zero_le _
  | lineStart => exact Nat.zero_le _
  | run bracket least most => exact (mem_lengths_run.1 h).1
  | both first second ihFirst ihSecond =>
    obtain ⟨i, hi, j, hj, rfl⟩ := mem_lengths_both.1 h
    exact Nat.add_le_add (ihFirst hi) (ihSecond hj)
  | either first second ihFirst ihSecond =>
    rcases mem_lengths_either.1 h with h | h
    · exact (Nat.min_le_left ..).trans (ihFirst h)
    · exact (Nat.min_le_right ..).trans (ihSecond h)

def isWithin (bound : Nat) : Form → Bool
  | empty => true
  | lineStart => true
  | run _ _ most => most.any (· ≤ bound)
  | both .. => false
  | either first second => first.isWithin bound && second.isWithin bound

theorem le_of_isWithin {bound : Nat} (hform : form.isWithin bound = true)
    (h : n ∈ form.lengths start text) : n ≤ bound := by
  induction form generalizing n with
  | empty =>
    rw [List.mem_singleton.1 h]
    exact Nat.zero_le _
  | lineStart =>
    rw [(mem_lengths_lineStart.1 h).2]
    exact Nat.zero_le _
  | run bracket least most =>
    obtain ⟨top, rfl, htop⟩ := (Option.any_eq_true _ _).1 hform
    have := (mem_lengths_run.1 h).2.2 top rfl
    simp only [decide_eq_true_eq] at htop
    omega
  | both first second => simp [isWithin] at hform
  | either first second ihFirst ihSecond =>
    simp only [isWithin, Bool.and_eq_true] at hform
    exact (mem_lengths_either.1 h).elim (ihFirst hform.1) (ihSecond hform.2)

/-- A character can be the first that is read. -/
def startsWith (c : Char) : Form → Bool
  | empty => false
  | lineStart => false
  | run bracket _ _ => bracket.contains c
  | both first second => first.startsWith c || second.startsWith c
  | either first second => first.startsWith c || second.startsWith c

theorem eq_zero_of_startsWith_eq_false {c : Char} (hform : form.startsWith c = false)
    (h : n ∈ form.lengths start (c :: text)) : n = 0 := by
  induction form generalizing start n with
  | empty => exact List.mem_singleton.1 h
  | lineStart => exact (mem_lengths_lineStart.1 h).2
  | run bracket least most =>
    have hle := (mem_lengths_run.1 h).2.1
    rw [List.takeWhile_cons_of_neg (by simpa [startsWith] using hform)] at hle
    exact Nat.le_zero.1 hle
  | both first second ihFirst ihSecond =>
    simp only [startsWith, Bool.or_eq_false_iff] at hform
    obtain ⟨i, hi, j, hj, rfl⟩ := mem_lengths_both.1 h
    obtain rfl := ihFirst hform.1 hi
    rw [ihSecond hform.2 hj]
  | either first second ihFirst ihSecond =>
    simp only [startsWith, Bool.or_eq_false_iff] at hform
    exact (mem_lengths_either.1 h).elim (ihFirst hform.1) (ihSecond hform.2)

/-! ### What stands behind -/

/-- The first form has to stay within the bound, and the second within what it leaves. -/
theorem filter_lengths_both (first second : Form) (start : Bool) {text : Text} {bound : Nat}
    (hbound : bound ≤ text.length) (rest : Text) :
    ((both first second).lengths start (text ++ rest)).filter (· ≤ bound) =
      ((first.lengths start (text ++ rest)).filter (· ≤ bound)).flatMap fun n =>
        ((second.lengths (lineStartAfter start (text.take n)) (text.drop n ++ rest)).filter
          (· ≤ bound - n)).map (n + ·) := by
  rw [lengths, List.filter_flatMap]
  induction first.lengths start (text ++ rest) with
  | nil => rfl
  | cons n lengths ih =>
    rw [List.flatMap_cons, ih]
    by_cases hle : n ≤ bound
    · rw [List.filter_cons_of_pos (by simpa using hle), List.flatMap_cons, List.filter_map,
        List.take_append_of_le_length (hle.trans hbound),
        List.drop_append_of_le_length (hle.trans hbound)]
      congr 2
      apply List.filter_congr
      intro m _
      simp only [Function.comp_apply, decide_eq_decide]
      omega
    · have hnil : (second.lengths (lineStartAfter start ((text ++ rest).take n))
          ((text ++ rest).drop n) |>.map (n + ·)).filter (· ≤ bound) = [] := by
        rw [List.filter_eq_nil_iff]
        intro m hm
        obtain ⟨k, -, rfl⟩ := List.mem_map.1 hm
        simp only [decide_eq_true_eq]
        omega
      rw [List.filter_cons_of_neg (by simpa using hle), hnil, List.nil_append]

/-- **The ways within a text.**  They do not depend on what stands behind it. -/
theorem filter_lengths_append (form : Form) (start : Bool) {text : Text} {bound : Nat}
    (hbound : bound ≤ text.length) (rest rest' : Text) :
    (form.lengths start (text ++ rest)).filter (· ≤ bound) =
      (form.lengths start (text ++ rest')).filter (· ≤ bound) := by
  induction form generalizing start text bound with
  | empty => rfl
  | lineStart => rfl
  | run bracket least most =>
    have hsame : ∀ m ≤ bound, (m ≤ ((text ++ rest).takeWhile bracket.contains).length ↔
        m ≤ ((text ++ rest').takeWhile bracket.contains).length) := by
      intro m hm
      exact le_length_takeWhile_append (hm.trans hbound) rest rest'
    rw [lengths, lengths, filter_descending, filter_descending]
    congr 3
    have hleft := hsame (min ((text ++ rest).takeWhile bracket.contains).length bound)
      (Nat.min_le_right ..)
    have hright := hsame (min ((text ++ rest').takeWhile bracket.contains).length bound)
      (Nat.min_le_right ..)
    cases most with
    | none =>
      simp only [Option.getD_none]
      omega
    | some top =>
      simp only [Option.getD_some]
      omega
  | both first second ihFirst ihSecond =>
    rw [filter_lengths_both _ _ _ hbound, filter_lengths_both _ _ _ hbound, ihFirst start hbound]
    apply List.flatMap_congr
    intro n hn
    have hle : n ≤ bound := by simpa using (List.mem_filter.1 hn).2
    rw [ihSecond]
    rw [List.length_drop]
    omega
  | either first second ihFirst ihSecond =>
    rw [lengths, lengths, List.filter_append, List.filter_append, ihFirst start hbound,
      ihSecond start hbound]

/-- No line break can be read. -/
def isUnbroken : Form → Bool
  | empty => true
  | lineStart => true
  | run bracket _ _ => !bracket.contains '\n' && !bracket.contains '\r'
  | both first second => first.isUnbroken && second.isUnbroken
  | either first second => first.isUnbroken && second.isUnbroken

/-- **A form without line breaks does not see past one.** -/
theorem lengths_append_break (hform : form.isUnbroken = true) {b : Char}
    (hb : isLineBreak b = true) (start : Bool) (text rest : Text) :
    form.lengths start (text ++ b :: rest) = form.lengths start text := by
  induction form generalizing start text with
  | empty => rfl
  | lineStart => rfl
  | run bracket least most =>
    have hnot : bracket.contains b = false := by
      simp only [isUnbroken, Bool.and_eq_true, Bool.not_eq_true'] at hform
      rcases isLineBreak_iff.1 hb with rfl | rfl
      · exact hform.1
      · exact hform.2
    rw [lengths, lengths, takeWhile_append_break hnot]
  | both first second ihFirst ihSecond =>
    simp only [isUnbroken, Bool.and_eq_true] at hform
    rw [lengths, lengths, ihFirst hform.1]
    apply List.flatMap_congr
    intro n hn
    have hle := le_length_of_mem hn
    rw [List.take_append_of_le_length hle, List.drop_append_of_le_length hle, ihSecond hform.2]
  | either first second ihFirst ihSecond =>
    simp only [isUnbroken, Bool.and_eq_true] at hform
    rw [lengths, lengths, ihFirst hform.1, ihSecond hform.2]

theorem unbroken_take (hform : form.isUnbroken = true) (h : n ∈ form.lengths start text) :
    Text.Unbroken (text.take n) := by
  intro b hmem
  by_contra hb
  rw [Bool.not_eq_false] at hb
  -- What is read up to a line break would be longer than what stands before it.
  obtain ⟨front, back, hsplit⟩ := List.append_of_mem hmem
  have htext : text = front ++ b :: (back ++ text.drop n) := by
    rw [← List.cons_append, ← List.append_assoc, ← hsplit, List.take_append_drop]
  have hlength := congrArg List.length hsplit
  rw [List.length_take, List.length_append, List.length_cons] at hlength
  rw [htext, lengths_append_break hform hb] at h
  have hle := le_length_of_mem h
  omega

end Form

end Literate
