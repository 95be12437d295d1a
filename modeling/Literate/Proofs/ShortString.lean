import Literate.Proofs.Lines
import Literate.Token.Extent

/-!
# Short strings from left to right

`Extent.shortString?` is a search with a way back: where it cannot close, it takes the last place
where it could have closed.  For a quote of one character there is only one such place that counts.
A walk from left to right passes over escaped characters and escaped terminators and closes at the
first quote or terminator (`firstClose?`); only if it never closes does the string end behind the
last escaped pair (`lastEscapedPair?`):

  `shortString? [q] text = (firstClose? q text).or (lastEscapedPair? text)`.

Both are then followed through a text that is put together from two.
-/

namespace Literate

namespace Extent

open Text

/-- The end of the first quote or terminator that is not escaped. -/
def firstClose? (quote : Char) : Text → Option Nat
  | [] => none
  | '\\' :: '\r' :: '\n' :: rest => (firstClose? quote rest).map (3 + ·)
  | '\\' :: _ :: rest => (firstClose? quote rest).map (2 + ·)
  | '\r' :: '\n' :: _ => some 2
  | c :: rest =>
    if c == quote || isLineBreak c then some 1 else (firstClose? quote rest).map (1 + ·)

/-- The end of the last pair that is escaped. -/
def lastEscapedPair? : Text → Option Nat
  | [] => none
  | '\\' :: '\r' :: '\n' :: rest => ((lastEscapedPair? rest).map (3 + ·)).or (some 3)
  | '\\' :: _ :: rest => (lastEscapedPair? rest).map (2 + ·)
  | _ :: rest => (lastEscapedPair? rest).map (1 + ·)

-- Most of what follows is by induction along one of the two walks.
attribute [elab_as_elim] firstClose?.induct_unfolding lastEscapedPair?.induct_unfolding

variable {q : Char}

theorem shortStringClose?_eq_none {c : Char} (hq : c ≠ q) (hc : isLineBreak c = false)
    (rest : Text) : shortStringClose? [q] (c :: rest) = none := by
  obtain ⟨hn, hr⟩ := isLineBreak_eq_false_iff.1 hc
  have hquote : (q == c) = false := beq_eq_false_iff_ne.2 (Ne.symm hq)
  simp [shortStringClose?, literally, List.isPrefixOf, hquote, hn, hr]

theorem shortStringClose?_eq_one {c : Char} {rest : Text} (hc : (c == q || isLineBreak c) = true)
    (hpair : ∀ tail, c = '\r' → rest = '\n' :: tail → False) :
    shortStringClose? [q] (c :: rest) = some 1 := by
  by_cases hq : c = q
  · simp [shortStringClose?, literally, List.isPrefixOf, hq]
  · have hquote : (q == c) = false := beq_eq_false_iff_ne.2 (Ne.symm hq)
    simp only [beq_eq_false_iff_ne.2 hq, Bool.false_or] at hc
    simp only [shortStringClose?, literally, List.isPrefixOf, hquote, Bool.false_and,
      Bool.false_eq_true, if_false, Option.none_or]
    rcases isLineBreak_iff.1 hc with rfl | rfl
    · rfl
    · split
      · next h => exact (hpair _ rfl (List.cons.inj h).2).elim
      · rfl
      · rfl
      · next h _ => exact (h _ rfl).elim

/-- **A short string, read from left to right.** -/
theorem shortString?_eq (hescape : q ≠ '\\') (hbreak : isLineBreak q = false) (text : Text) :
    shortString? [q] text = (firstClose? q text).or (lastEscapedPair? text) := by
  obtain ⟨hn, hr⟩ := isLineBreak_eq_false_iff.1 hbreak
  fun_induction firstClose? q text with
  | case1 => rfl
  | case2 rest ih =>
    have hclose : shortStringClose? [q] ('\n' :: rest) = some 1 := by
      simp [shortStringClose?, literally, List.isPrefixOf, hn]
    rw [shortString?, ih, hclose, lastEscapedPair?]
    cases firstClose? q rest <;> cases lastEscapedPair? rest <;> rfl
  | case3 c rest hpair ih =>
    rw [shortString?, lastEscapedPair?, ih, shortStringClose?_eq_none (Ne.symm hescape) rfl]
    · cases firstClose? q rest <;> cases lastEscapedPair? rest <;> rfl
    · exact hpair
    · exact hpair
  | case4 rest =>
    simp [shortString?, shortStringClose?, literally, List.isPrefixOf, hr, isLineBreak]
  | case5 c rest hpair hescaped hcrlf hc =>
    have hstop : (c == '\\' || isLineBreak c || [q].contains c) = true := by
      rcases Bool.or_eq_true_iff.1 hc with hq | hb
      · simp [beq_iff_eq.1 hq]
      · simp [hb]
    rw [shortString?, hstop, if_pos rfl, Option.none_or, shortStringClose?_eq_one hc hcrlf]
    · rfl
    · exact hpair
    · exact hescaped
  | case6 c rest hpair hescaped hcrlf hc ih =>
    obtain ⟨hq, hb⟩ : c ≠ q ∧ isLineBreak c = false := by
      simpa using hc
    rw [shortString?, lastEscapedPair?, shortStringClose?_eq_none hq hb]
    · by_cases hback : c = '\\'
      · -- A backslash at the end of the text escapes nothing.
        have hrest : rest = [] := by
          cases rest with
          | nil => rfl
          | cons d rest => exact (hescaped d rest hback rfl).elim
        subst hrest
        simp [hback, firstClose?, lastEscapedPair?]
      · rw [if_neg (by simp [hback, hb, hq]), ih]
        cases firstClose? q rest <;> cases lastEscapedPair? rest <;> rfl
    · exact hpair
    · exact hescaped
    · exact hpair
    · exact hescaped

/-! ### Two texts in a row -/

theorem firstClose?_cons {c : Char} {rest : Text} (hescape : c ≠ '\\')
    (hpair : ¬ CutsPair [c] rest) :
    firstClose? q (c :: rest) =
      if c == q || isLineBreak c then some 1 else (firstClose? q rest).map (1 + ·) := by
  rw [firstClose?]
  · rintro rest' rfl _
    exact hescape rfl
  · rintro d rest' rfl _
    exact hescape rfl
  · rintro tail rfl rfl
    exact hpair ⟨rfl, rfl⟩

theorem firstClose?_escape {c : Char} {rest : Text} (hpair : ¬ CutsPair [c] rest) :
    firstClose? q ('\\' :: c :: rest) = (firstClose? q rest).map (2 + ·) := by
  rw [firstClose?]
  rintro rest' hc rfl
  exact hpair ⟨by simp [hc], rfl⟩

theorem not_cutsPair_singleton {c : Char} {text rest : Text}
    (hpair : ∀ tail, c = '\r' → text = '\n' :: tail → False) (hcut : ¬ CutsPair (c :: text) rest) :
    ¬ CutsPair [c] (text ++ rest) := by
  rintro ⟨hc, hhead⟩
  obtain rfl : c = '\r' := by simpa using hc
  cases text with
  | nil => exact hcut ⟨rfl, hhead⟩
  | cons d text =>
    obtain rfl : d = '\n' := by simpa using hhead
    exact hpair text rfl rfl

theorem getLast?_ne_of_cons {c d : Char} {text : Text} (h : (c :: text).getLast? ≠ some d) :
    text.getLast? ≠ some d := by
  intro hlast
  rw [List.getLast?_cons, hlast] at h
  exact h rfl

theorem getLast?_ne_of_ended {text : Text} (h : text.Ended) : text.getLast? ≠ some '\\' := by
  intro hlast
  rcases h with rfl | ⟨c, hc, hbreak⟩
  · simp at hlast
  · obtain rfl := Option.some.inj (hc.symm.trans hlast)
    simp [isLineBreak] at hbreak

/-- A walk that does not close in the first text goes on in the second, unless a backslash stands
between them. -/
theorem firstClose?_append {text rest : Text} (h : text.getLast? ≠ some '\\')
    (hcut : ¬ CutsPair text rest) :
    firstClose? q (text ++ rest) =
      (firstClose? q text).or ((firstClose? q rest).map (text.length + ·)) := by
  have hadd : ∀ (n : Nat) (found : Option Nat) (tail : Text) (all : Text),
      n + tail.length = all.length →
      (found.or ((firstClose? q rest).map (tail.length + ·))).map (n + ·) =
        (found.map (n + ·)).or ((firstClose? q rest).map (all.length + ·)) := by
    intro n found tail all hlength
    cases found with
    | some m => rfl
    | none =>
      cases firstClose? q rest with
      | none => rfl
      | some m =>
        simp only [Option.none_or, Option.map_some, Option.map_none, Option.some.injEq]
        omega
  fun_induction firstClose? q text with
  | case1 => simp
  | case2 tail ih =>
    simp only [List.cons_append]
    rw [firstClose?, ih (getLast?_ne_of_cons (getLast?_ne_of_cons (getLast?_ne_of_cons h)))
      fun hc => hcut (((hc.cons _).cons _).cons _)]
    exact hadd 3 _ _ _ (by simp; omega)
  | case3 c tail hpair ih =>
    simp only [List.cons_append]
    have hc := not_cutsPair_singleton (fun tail' hc ht => hpair tail' hc ht)
      fun hc => hcut (hc.cons '\\')
    rw [firstClose?_escape hc, ih (getLast?_ne_of_cons (getLast?_ne_of_cons h))
      fun hc => hcut ((hc.cons _).cons _)]
    exact hadd 2 _ _ _ (by simp; omega)
  | case4 tail => rfl
  | case5 c tail hpair hescaped hcrlf hc =>
    have hback : c ≠ '\\' := by
      rintro rfl
      cases tail with
      | nil => exact absurd rfl h
      | cons d tail => exact hescaped d tail rfl rfl
    rw [List.cons_append, firstClose?_cons hback (not_cutsPair_singleton hcrlf hcut), if_pos hc]
    rfl
  | case6 c tail hpair hescaped hcrlf hc ih =>
    have hback : c ≠ '\\' := by
      rintro rfl
      cases tail with
      | nil => exact absurd rfl h
      | cons d tail => exact hescaped d tail rfl rfl
    rw [List.cons_append, firstClose?_cons hback (not_cutsPair_singleton hcrlf hcut), if_neg hc,
      ih (getLast?_ne_of_cons h) fun hc => hcut (hc.cons _)]
    exact hadd 1 _ _ _ (by simp; omega)

theorem lastEscapedPair?_cons {c : Char} (hescape : c ≠ '\\') (rest : Text) :
    lastEscapedPair? (c :: rest) = (lastEscapedPair? rest).map (1 + ·) := by
  rw [lastEscapedPair?]
  · rintro rest' rfl _
    exact hescape rfl
  · rintro d rest' rfl _
    exact hescape rfl

theorem lastEscapedPair?_escape {c : Char} {rest : Text} (hpair : ¬ CutsPair [c] rest) :
    lastEscapedPair? ('\\' :: c :: rest) = (lastEscapedPair? rest).map (2 + ·) := by
  rw [lastEscapedPair?]
  rintro rest' hc rfl
  exact hpair ⟨by simp [hc], rfl⟩

theorem lastEscapedPair?_append {text rest : Text} (h : text.getLast? ≠ some '\\')
    (hcut : ¬ CutsPair text rest) :
    lastEscapedPair? (text ++ rest) =
      ((lastEscapedPair? rest).map (text.length + ·)).or (lastEscapedPair? text) := by
  have hadd : ∀ (n : Nat) (tail all : Text) (found : Option Nat), n + tail.length = all.length →
      (((lastEscapedPair? rest).map (tail.length + ·)).or found).map (n + ·) =
        ((lastEscapedPair? rest).map (all.length + ·)).or (found.map (n + ·)) := by
    intro n tail all found hlength
    cases lastEscapedPair? rest with
    | none => rfl
    | some m =>
      simp only [Option.map_some, Option.some_or, Option.some.injEq]
      omega
  fun_induction lastEscapedPair? text with
  | case1 => simp
  | case2 tail ih =>
    simp only [List.cons_append]
    rw [lastEscapedPair?, ih (getLast?_ne_of_cons (getLast?_ne_of_cons (getLast?_ne_of_cons h)))
        fun hc => hcut (((hc.cons _).cons _).cons _),
      hadd 3 tail ('\\' :: '\r' :: '\n' :: tail) _ (by simp; omega), Option.or_assoc]
  | case3 c tail hpair ih =>
    simp only [List.cons_append]
    have hc := not_cutsPair_singleton (fun tail' hc ht => hpair tail' hc ht)
      fun hc => hcut (hc.cons '\\')
    rw [lastEscapedPair?_escape hc, ih (getLast?_ne_of_cons (getLast?_ne_of_cons h))
      fun hc => hcut ((hc.cons _).cons _)]
    exact hadd 2 _ _ _ (by simp; omega)
  | case4 c tail hpair hescaped ih =>
    have hback : c ≠ '\\' := by
      rintro rfl
      cases tail with
      | nil => exact absurd rfl h
      | cons d tail => exact hescaped d tail rfl rfl
    rw [List.cons_append, lastEscapedPair?_cons hback,
      ih (getLast?_ne_of_cons h) fun hc => hcut (hc.cons _)]
    exact hadd 1 _ _ _ (by simp; omega)

theorem exists_pair_of_lastEscapedPair? {text : Text} {n : Nat}
    (h : lastEscapedPair? text = some n) : ∃ a b, text = a ++ '\r' :: '\n' :: b := by
  fun_induction lastEscapedPair? text generalizing n with
  | case1 => simp at h
  | case2 rest ih => exact ⟨['\\'], rest, rfl⟩
  | case3 c rest hpair ih =>
    obtain ⟨m, hm, _⟩ := Option.map_eq_some_iff.1 h
    obtain ⟨a, b, rfl⟩ := ih hm
    exact ⟨'\\' :: c :: a, b, rfl⟩
  | case4 c rest hpair hescaped ih =>
    obtain ⟨m, hm, _⟩ := Option.map_eq_some_iff.1 h
    obtain ⟨a, b, rfl⟩ := ih hm
    exact ⟨c :: a, b, rfl⟩

theorem firstClose?_pos {text : Text} {n : Nat} (h : firstClose? q text = some n) : 0 < n := by
  fun_induction firstClose? q text generalizing n with
  | case1 => simp at h
  | case2 rest ih =>
    obtain ⟨m, _, rfl⟩ := Option.map_eq_some_iff.1 h
    omega
  | case3 c rest hpair ih =>
    obtain ⟨m, _, rfl⟩ := Option.map_eq_some_iff.1 h
    omega
  | case4 rest =>
    obtain rfl := Option.some.inj h
    omega
  | case5 c rest hpair hescaped hcrlf hc =>
    obtain rfl := Option.some.inj h
    omega
  | case6 c rest hpair hescaped hcrlf hc ih =>
    obtain ⟨m, _, rfl⟩ := Option.map_eq_some_iff.1 h
    omega

theorem lastEscapedPair?_of_firstClose?_eq_none {front : Text}
    (h : firstClose? q (front ++ ['\r', '\n']) = none) :
    lastEscapedPair? (front ++ ['\r', '\n']) = some (front.length + 2) := by
  generalize htext : front ++ ['\r', '\n'] = text at h ⊢
  fun_induction firstClose? q text generalizing front with
  | case1 => simp at htext
  | case2 rest ih =>
    rw [Option.map_eq_none_iff] at h
    match front with
    | [] => simp at htext
    | [a] =>
      obtain ⟨rfl, rfl⟩ : '\\' = a ∧ rest = [] := by simpa using htext.symm
      rfl
    | [a, b] => simp at htext
    | a :: b :: c :: front =>
      obtain ⟨_, _, _, hrest⟩ : a = '\\' ∧ b = '\r' ∧ c = '\n' ∧ front ++ ['\r', '\n'] = rest := by
        simpa using htext
      rw [lastEscapedPair?, ih hrest h]
      simp only [List.length_cons, Option.map_some, Option.some_or, Option.some.injEq]
      omega
  | case3 c rest hpair ih =>
    rw [Option.map_eq_none_iff] at h
    match front with
    | [] => simp at htext
    | [a] =>
      obtain ⟨_, rfl, rfl⟩ : a = '\\' ∧ '\r' = c ∧ ['\n'] = rest := by simpa using htext
      exact (hpair [] rfl rfl).elim
    | a :: b :: front =>
      obtain ⟨_, _, hrest⟩ : a = '\\' ∧ b = c ∧ front ++ ['\r', '\n'] = rest := by
        simpa using htext
      rw [lastEscapedPair?, ih hrest h]
      · simp only [List.length_cons, Option.map_some, Option.some.injEq]
        omega
      · exact hpair
  | case4 rest => simp at h
  | case5 c rest hpair hescaped hcrlf hc => simp at h
  | case6 c rest hpair hescaped hcrlf hc ih =>
    rw [Option.map_eq_none_iff] at h
    match front with
    | [] =>
      obtain ⟨rfl, rfl⟩ : '\r' = c ∧ ['\n'] = rest := by simpa using htext
      exact (hcrlf [] rfl rfl).elim
    | a :: front =>
      obtain ⟨_, hrest⟩ : a = c ∧ front ++ ['\r', '\n'] = rest := by simpa using htext
      rw [lastEscapedPair?, ih hrest h]
      · simp only [List.length_cons, Option.map_some, Option.some.injEq]
        omega
      · exact hpair
      · exact hescaped

/-! ### What stands within the first text -/

theorem lastEscapedPair?_pos {text : Text} {n : Nat} (h : lastEscapedPair? text = some n) :
    0 < n := by
  fun_induction lastEscapedPair? text generalizing n with
  | case1 => simp at h
  | case2 rest ih =>
    rcases Option.or_eq_some_iff.1 h with h | ⟨_, h⟩
    · obtain ⟨m, _, rfl⟩ := Option.map_eq_some_iff.1 h
      omega
    · obtain rfl := Option.some.inj h
      omega
  | case3 c rest hpair ih =>
    obtain ⟨m, _, rfl⟩ := Option.map_eq_some_iff.1 h
    omega
  | case4 c rest hpair hescaped ih =>
    obtain ⟨m, _, rfl⟩ := Option.map_eq_some_iff.1 h
    omega

theorem two_le_of_firstClose? (hescape : q ≠ '\\') {rest : Text} {n : Nat}
    (h : firstClose? q ('\\' :: rest) = some n) : 2 ≤ n := by
  cases rest with
  | nil =>
    have hquote : ('\\' == q) = false := beq_eq_false_iff_ne.2 (Ne.symm hescape)
    simp [firstClose?, hquote, isLineBreak] at h
  | cons c rest =>
    by_cases hpair : CutsPair [c] rest
    · obtain rfl : c = '\r' := by simpa using hpair.1
      obtain ⟨rest, rfl⟩ := List.head?_eq_some_iff.1 hpair.2
      rw [firstClose?] at h
      obtain ⟨m, _, rfl⟩ := Option.map_eq_some_iff.1 h
      omega
    · rw [firstClose?_escape hpair] at h
      obtain ⟨m, _, rfl⟩ := Option.map_eq_some_iff.1 h
      omega

theorem two_le_of_lastEscapedPair? {rest : Text} {n : Nat}
    (h : lastEscapedPair? ('\\' :: rest) = some n) : 2 ≤ n := by
  cases rest with
  | nil => simp [lastEscapedPair?] at h
  | cons c rest =>
    by_cases hpair : CutsPair [c] rest
    · obtain rfl : c = '\r' := by simpa using hpair.1
      obtain ⟨rest, rfl⟩ := List.head?_eq_some_iff.1 hpair.2
      rw [lastEscapedPair?, Option.or_eq_some_iff] at h
      rcases h with h | ⟨_, h⟩
      · obtain ⟨m, _, rfl⟩ := Option.map_eq_some_iff.1 h
        omega
      · obtain rfl := Option.some.inj h
        omega
    · rw [lastEscapedPair?_escape hpair] at h
      obtain ⟨m, _, rfl⟩ := Option.map_eq_some_iff.1 h
      omega

theorem firstClose?_append_of_le (hescape : q ≠ '\\') {text rest rest' : Text} {n : Nat}
    (hcut : ¬ CutsPair text rest) (hcut' : ¬ CutsPair text rest')
    (h : firstClose? q (text ++ rest) = some n) (hle : n ≤ text.length) :
    firstClose? q (text ++ rest') = some n := by
  fun_induction firstClose? q text generalizing n with
  | case1 =>
    have := firstClose?_pos h
    rw [List.length_nil] at hle
    omega
  | case2 tail ih =>
    simp only [List.cons_append, firstClose?, List.length_cons] at h hle ⊢
    obtain ⟨m, hm, rfl⟩ := Option.map_eq_some_iff.1 h
    rw [ih (fun hc => hcut (((hc.cons _).cons _).cons _))
      (fun hc => hcut' (((hc.cons _).cons _).cons _)) hm (by omega)]
    rfl
  | case3 c tail hpair ih =>
    have hc := not_cutsPair_singleton (fun tail' hc ht => hpair tail' hc ht)
      fun hc => hcut (hc.cons '\\')
    have hc' := not_cutsPair_singleton (fun tail' hc ht => hpair tail' hc ht)
      fun hc => hcut' (hc.cons '\\')
    simp only [List.cons_append, List.length_cons] at h hle ⊢
    rw [firstClose?_escape hc] at h
    rw [firstClose?_escape hc']
    obtain ⟨m, hm, rfl⟩ := Option.map_eq_some_iff.1 h
    rw [ih (fun hc => hcut ((hc.cons _).cons _)) (fun hc => hcut' ((hc.cons _).cons _)) hm
      (by omega)]
    rfl
  | case4 tail => exact h
  | case5 c tail hpair hescaped hcrlf hc =>
    have hback : c ≠ '\\' := by
      rintro rfl
      simp [isLineBreak, Ne.symm hescape] at hc
    rw [List.cons_append, firstClose?_cons hback (not_cutsPair_singleton hcrlf hcut),
      if_pos hc] at h
    rw [List.cons_append, firstClose?_cons hback (not_cutsPair_singleton hcrlf hcut'), if_pos hc, h]
  | case6 c tail hpair hescaped hcrlf hc ih =>
    by_cases hback : c = '\\'
    · subst hback
      have htail : tail = [] := by
        cases tail with
        | nil => rfl
        | cons d tail => exact (hescaped d tail rfl rfl).elim
      subst htail
      have := two_le_of_firstClose? hescape h
      rw [List.length_singleton] at hle
      omega
    · rw [List.cons_append, firstClose?_cons hback (not_cutsPair_singleton hcrlf hcut),
        if_neg hc] at h
      rw [List.cons_append, firstClose?_cons hback (not_cutsPair_singleton hcrlf hcut'), if_neg hc]
      obtain ⟨m, hm, rfl⟩ := Option.map_eq_some_iff.1 h
      rw [List.length_cons] at hle
      rw [ih (fun hc => hcut (hc.cons _)) (fun hc => hcut' (hc.cons _)) hm (by omega)]
      rfl

theorem lastEscapedPair?_append_of_le {text rest : Text}
    (hcut : ¬ CutsPair text rest)
    (hle : ∀ n, lastEscapedPair? (text ++ rest) = some n → n ≤ text.length) :
    lastEscapedPair? (text ++ rest) = lastEscapedPair? text := by
  fun_induction lastEscapedPair? text with
  | case1 =>
    rw [List.nil_append] at hle ⊢
    cases hrest : lastEscapedPair? rest with
    | none => rfl
    | some n =>
      have := lastEscapedPair?_pos hrest
      have := hle n hrest
      rw [List.length_nil] at this
      omega
  | case2 tail ih =>
    simp only [List.cons_append, lastEscapedPair?, List.length_cons] at hle ⊢
    rw [ih fun hc => hcut (((hc.cons _).cons _).cons _)]
    intro n hn
    have := hle (3 + n) (by rw [hn]; rfl)
    omega
  | case3 c tail hpair ih =>
    have hc := not_cutsPair_singleton (fun tail' hc ht => hpair tail' hc ht)
      fun hc => hcut (hc.cons '\\')
    simp only [List.cons_append, lastEscapedPair?_escape hc, List.length_cons] at hle ⊢
    rw [ih fun hc => hcut ((hc.cons _).cons _)]
    intro n hn
    have := hle (2 + n) (by rw [hn]; rfl)
    omega
  | case4 c tail hpair hescaped ih =>
    by_cases hback : c = '\\'
    · subst hback
      have htail : tail = [] := by
        cases tail with
        | nil => rfl
        | cons d tail => exact (hescaped d tail rfl rfl).elim
      subst htail
      cases hfound : lastEscapedPair? (['\\'] ++ rest) with
      | none => rfl
      | some n =>
        have := two_le_of_lastEscapedPair? hfound
        have := hle n hfound
        rw [List.length_singleton] at this
        omega
    · simp only [List.cons_append, lastEscapedPair?_cons hback, List.length_cons] at hle ⊢
      rw [ih fun hc => hcut (hc.cons _)]
      intro n hn
      have := hle (1 + n) (by rw [hn]; rfl)
      omega

/-! ### The extent -/

theorem shortString_eq (hescape : q ≠ '\\') (hbreak : isLineBreak q = false) (text : Text) :
    shortString [q] text =
      ((firstClose? q text).or (lastEscapedPair? text)).getD text.length := by
  rw [shortString, shortString?_eq hescape hbreak]

theorem shortString_append_of_firstClose? (hescape : q ≠ '\\') (hbreak : isLineBreak q = false)
    {text rest : Text} {n : Nat} (h : text.Ended) (hcut : ¬ CutsPair text rest)
    (hn : firstClose? q text = some n) : shortString [q] (text ++ rest) = n := by
  rw [shortString_eq hescape hbreak, firstClose?_append (getLast?_ne_of_ended h) hcut, hn]
  rfl

/-- **A short string that ends in the first of two texts closes there**, if the second one ends its
line and does not break off the pairs. -/
theorem exists_firstClose? (hescape : q ≠ '\\') (hbreak : isLineBreak q = false)
    {text rest : Text} (h : text.Ended) (hcut : ¬ CutsPair text rest) (hrest : rest.EndsLine)
    (hpairs : PairsToEnd (text ++ rest)) (hle : shortString [q] (text ++ rest) ≤ text.length) :
    ∃ n, firstClose? q text = some n := by
  cases htext : firstClose? q text with
  | some n => exact ⟨n, rfl⟩
  | none =>
    have hpos := List.length_pos_iff.2 hrest.ne_nil
    rw [shortString_eq hescape hbreak, firstClose?_append (getLast?_ne_of_ended h) hcut, htext,
      Option.none_or] at hle
    cases hclose : firstClose? q rest with
    | some n =>
      have := firstClose?_pos hclose
      simp only [hclose, Option.map_some, Option.some_or, Option.getD_some] at hle
      omega
    | none =>
      rw [hclose, Option.map_none, Option.none_or] at hle
      cases hescaped : lastEscapedPair? (text ++ rest) with
      | none =>
        rw [hescaped, Option.getD_none, List.length_append] at hle
        omega
      | some n =>
        -- There is a pair, so there is one at the end, and it is escaped too.
        obtain ⟨a, b, hab⟩ := exists_pair_of_lastEscapedPair? hescaped
        obtain ⟨front, hfront⟩ := hpairs a b hab
        obtain ⟨front', rfl⟩ := exists_append_pair hfront hrest.ne_nil hcut
        rw [lastEscapedPair?_append (getLast?_ne_of_ended h) hcut,
          lastEscapedPair?_of_firstClose?_eq_none hclose, Option.map_some, Option.some_or,
          Option.getD_some] at hle
        omega

/-- **A short string that ends within a text on two occasions is the same on both.** -/
theorem shortString_append_of_le (hescape : q ≠ '\\') (hbreak : isLineBreak q = false)
    {text rest rest' : Text} (hne : rest ≠ []) (hcut : ¬ CutsPair text rest)
    (hcut' : ¬ CutsPair text rest') (hle : shortString [q] (text ++ rest) ≤ text.length)
    (hle' : shortString [q] (text ++ rest') ≤ text.length) :
    shortString [q] (text ++ rest') = shortString [q] (text ++ rest) := by
  have hpos := List.length_pos_iff.2 hne
  rw [shortString_eq hescape hbreak] at hle hle' ⊢
  rw [shortString_eq hescape hbreak]
  cases hclose : firstClose? q (text ++ rest) with
  | some n =>
    rw [hclose, Option.some_or, Option.getD_some] at hle
    rw [firstClose?_append_of_le hescape hcut hcut' hclose hle]
    rfl
  | none =>
    have hclose' : firstClose? q (text ++ rest') = none := by
      cases hclose' : firstClose? q (text ++ rest') with
      | none => rfl
      | some n =>
        rw [hclose', Option.some_or, Option.getD_some] at hle'
        rw [firstClose?_append_of_le hescape hcut' hcut hclose' hle'] at hclose
        simp at hclose
    rw [hclose, Option.none_or] at hle
    rw [hclose', Option.none_or] at hle' ⊢
    -- Neither string closes, so both go back to the same escaped pair.
    have hpair : lastEscapedPair? (text ++ rest) = lastEscapedPair? text := by
      refine lastEscapedPair?_append_of_le hcut ?_
      intro n hn
      rwa [hn, Option.getD_some] at hle
    have hpair' : lastEscapedPair? (text ++ rest') = lastEscapedPair? text := by
      refine lastEscapedPair?_append_of_le hcut' ?_
      intro n hn
      rwa [hn, Option.getD_some] at hle'
    rw [hpair] at hle ⊢
    rw [hpair', Option.none_or]
    cases hfound : lastEscapedPair? text with
    | some n => rfl
    | none =>
      rw [hfound, Option.getD_none, List.length_append] at hle
      omega

end Extent

end Literate
