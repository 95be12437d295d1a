import Literate.Proofs.Extents

/-!
# Tokens with other line endings

`withEnding ending` puts another terminator in the place of every line feed of a text.  Openings do
not notice, as they are decided by the first line.  An extent does not notice either: on a text
without carriage returns

  `extent (withEnding ending text) = (withEnding ending (text.take (extent text))).length`.

There are two exceptions, and both are stated as hypotheses.  A here-document that closes with a
line feed does not close with a carriage return.  And a short string that never closes takes the
whole text, unless there is an escaped pair in it to go back to; so with pairs for line feeds it
ends behind its last terminator.
-/

namespace Literate

namespace Text

variable {ending : LineEnding}

/-- The text with another terminator in the place of its line feeds. -/
def withEnding (ending : LineEnding) (text : Text) : Text :=
  text.flatMap fun c => if c = '\n' then ending.text else [c]

@[simp]
theorem withEnding_nil (ending : LineEnding) : withEnding ending [] = [] := rfl

theorem withEnding_append (ending : LineEnding) (a b : Text) :
    withEnding ending (a ++ b) = withEnding ending a ++ withEnding ending b :=
  List.flatMap_append

theorem withEnding_break (ending : LineEnding) (rest : Text) :
    withEnding ending ('\n' :: rest) = ending.text ++ withEnding ending rest := rfl

theorem withEnding_cons {c : Char} (h : c ≠ '\n') (rest : Text) :
    withEnding ending (c :: rest) = c :: withEnding ending rest := by
  rw [withEnding, List.flatMap_cons, if_neg h]
  rfl

theorem withEnding_of_notMem {text : Text} (h : '\n' ∉ text) : withEnding ending text = text := by
  induction text with
  | nil => rfl
  | cons c text ih =>
    rw [List.mem_cons, not_or] at h
    rw [withEnding_cons (Ne.symm h.1), ih h.2]

theorem withEnding_of_unbroken {text : Text} (h : text.Unbroken) : withEnding ending text = text :=
  withEnding_of_notMem (h.notMem rfl)

@[simp]
theorem withEnding_lf (text : Text) : withEnding .lf text = text := by
  induction text with
  | nil => rfl
  | cons c text ih =>
    by_cases hc : c = '\n'
    · rw [hc, withEnding_break, ih]
      rfl
    · rw [withEnding_cons hc, ih]

theorem withEnding_eq_nil {text : Text} : withEnding ending text = [] ↔ text = [] := by
  constructor
  · intro h
    cases text with
    | nil => rfl
    | cons c text =>
      by_cases hc : c = '\n'
      · rw [hc, withEnding_break, List.append_eq_nil_iff] at h
        exact absurd h.1 (ending_ne_nil ending)
      · rw [withEnding_cons hc] at h
        simp at h
  · rintro rfl
    rfl

theorem head?_withEnding {text : Text} {c : Char} (hc : isLineBreak c = false) :
    (withEnding ending text).head? = some c ↔ text.head? = some c := by
  obtain ⟨hn, hr⟩ := isLineBreak_eq_false_iff.1 hc
  cases text with
  | nil => rfl
  | cons d text =>
    by_cases hd : d = '\n'
    · subst hd
      rw [withEnding_break]
      cases ending with
      | lf | crlf | cr => simp [LineEnding.text, Ne.symm hn, Ne.symm hr]
    · rw [withEnding_cons hd]
      rfl

theorem notMem_withEnding_cr (text : Text) : '\n' ∉ withEnding .cr text := by
  rw [withEnding, List.mem_flatMap]
  rintro ⟨c, _, hc⟩
  split at hc
  · simp [LineEnding.text] at hc
  · next hne => exact hne (List.mem_singleton.1 hc).symm

theorem not_cutsPair_withEnding (ending : LineEnding) (rest : Text) :
    ¬ CutsPair ending.text (withEnding ending rest) := by
  rintro ⟨hlast, hhead⟩
  cases ending with
  | lf | crlf => simp [LineEnding.text] at hlast
  | cr => exact notMem_withEnding_cr rest (List.mem_of_head? hhead)

/-- **What does not see past a line break does not see which one it is.** -/
theorem withEnding_congr {α : Type} {f : Text → α}
    (hf : ∀ b text rest, isLineBreak b = true → f (text ++ b :: rest) = f text)
    (ending : LineEnding) (text : Text) : f (withEnding ending text) = f text := by
  by_cases h : '\n' ∈ text
  · obtain ⟨line, rest, rfl, hline⟩ := List.eq_append_cons_of_mem h
    rw [withEnding_append, withEnding_of_notMem hline, withEnding_break, hf '\n' line rest rfl]
    cases ending with
    | lf => exact hf '\n' line _ rfl
    | crlf => exact hf '\r' line _ rfl
    | cr => exact hf '\r' line _ rfl
  · rw [withEnding_of_notMem h]

/-! ### Offsets -/

/-- Where an offset of the text comes to lie. -/
def offsetWith (ending : LineEnding) (text : Text) (n : Nat) : Nat :=
  (withEnding ending (text.take n)).length

theorem offsetWith_cons (ending : LineEnding) (c : Char) (rest : Text) (n : Nat) :
    offsetWith ending (c :: rest) (1 + n) =
      (withEnding ending [c]).length + offsetWith ending rest n := by
  rw [offsetWith, Nat.add_comm 1 n, List.take_succ_cons, ← List.singleton_append, withEnding_append,
    List.length_append]
  rfl

theorem offsetWith_cons_of_ne {c : Char} (h : c ≠ '\n') (rest : Text) (n : Nat) :
    offsetWith ending (c :: rest) (1 + n) = 1 + offsetWith ending rest n := by
  rw [offsetWith_cons, withEnding_cons h]
  rfl

theorem offsetWith_break (ending : LineEnding) (rest : Text) (n : Nat) :
    offsetWith ending ('\n' :: rest) (1 + n) = ending.text.length + offsetWith ending rest n := by
  rw [offsetWith_cons, withEnding_break, withEnding_nil, List.append_nil]

theorem offsetWith_length (ending : LineEnding) (text : Text) :
    offsetWith ending text text.length = (withEnding ending text).length := by
  rw [offsetWith, List.take_length]

theorem take_offsetWith (ending : LineEnding) (text : Text) (n : Nat) :
    (withEnding ending text).take (offsetWith ending text n) = withEnding ending (text.take n) := by
  have hsplit := withEnding_append ending (text.take n) (text.drop n)
  rw [List.take_append_drop] at hsplit
  rw [hsplit, offsetWith, List.take_left]

/-! ### Searches -/

variable {reading : Text → Option Nat}

/-- What is read is on one line, its first character apart. -/
theorem Nearsighted.offsetWith_eq (h : Nearsighted reading) (ending : LineEnding) {c : Char}
    {rest : Text} {n : Nat} (hn : reading (c :: rest) = some (1 + n)) :
    offsetWith ending (c :: rest) (1 + n) = (withEnding ending [c]).length + n := by
  have hlength := h.le hn
  rw [List.length_cons] at hlength
  have hline : '\n' ∉ rest.take n := by
    by_cases hmem : '\n' ∈ rest
    · obtain ⟨line, tail, rfl, hline⟩ := List.eq_append_cons_of_mem hmem
      rw [h.sight c line tail rfl] at hn
      have hle := h.le hn
      rw [List.length_cons] at hle
      rw [List.take_append_of_le_length (by omega)]
      intro hmem
      exact hline (List.mem_of_mem_take hmem)
    · intro hmem'
      exact hmem (List.mem_of_mem_take hmem')
  rw [offsetWith_cons, offsetWith, withEnding_of_notMem hline, List.length_take,
    Nat.min_eq_left (by omega)]

/-- **A search ends at the same place**, with a carriage return in the place of a line feed only if
the reading needs none. -/
theorem Nearsighted.endOfFirst_withEnding (h : Nearsighted reading)
    (hreturn : ∀ rest, reading ('\r' :: rest) = none)
    (hfeed : ending = .cr → ∀ rest, reading ('\n' :: rest) = none) (text : Text) :
    (withEnding ending text).endOfFirst reading =
      (text.endOfFirst reading).map (offsetWith ending text) := by
  have hsame : ∀ (c : Char) (rest : Text),
      reading (c :: withEnding ending rest) = reading (c :: rest) := by
    intro c rest
    exact withEnding_congr (f := fun rest => reading (c :: rest))
      (fun b text rest hb => h.sight c text rest hb) ending rest
  induction text with
  | nil =>
    have hnil : reading [] = none := by
      cases hn : reading [] with
      | none => rfl
      | some n =>
        have hpos := h.pos hn
        have hle := h.le hn
        rw [List.length_nil] at hle
        omega
    rw [withEnding_nil, endOfFirst_nil, hnil]
    rfl
  | cons c rest ih =>
    -- One step of the search, `k` characters behind where the terminator starts.
    have hstep : ∀ k, (withEnding ending [c]).length = k + 1 →
        ((reading (c :: rest)).or ((endOfFirst reading (withEnding ending rest)).map (1 + ·))).map
            (k + ·) =
          ((reading (c :: rest)).or ((endOfFirst reading rest).map (1 + ·))).map
            (offsetWith ending (c :: rest)) := by
      intro k hk
      cases hread : reading (c :: rest) with
      | some n =>
        obtain ⟨m, rfl⟩ : ∃ m, n = 1 + m := Nat.exists_eq_add_of_le (h.pos hread)
        simp only [Option.some_or, Option.map_some, h.offsetWith_eq ending hread, hk,
          Option.some.injEq]
        omega
      | none =>
        rw [ih, Option.none_or, Option.none_or, Option.map_map, Option.map_map, Option.map_map]
        refine Option.map_congr fun n _ => ?_
        simp only [Function.comp_apply, offsetWith_cons, hk]
        omega
    have hzero : ∀ found : Option Nat, found.map (0 + ·) = found := by
      intro found
      cases found <;> simp
    by_cases hc : c = '\n'
    · subst hc
      rw [withEnding_break, endOfFirst_cons _ '\n' rest]
      cases ending with
      | lf =>
        show endOfFirst reading ('\n' :: withEnding .lf rest) = _
        rw [← hstep 0 rfl, hzero, endOfFirst_cons, hsame]
      | crlf =>
        show endOfFirst reading ('\r' :: '\n' :: withEnding .crlf rest) = _
        rw [← hstep 1 rfl, endOfFirst_cons, hreturn, Option.none_or, endOfFirst_cons, hsame]
      | cr =>
        show endOfFirst reading ('\r' :: withEnding .cr rest) = _
        rw [← hstep 0 rfl, hzero, endOfFirst_cons, hreturn, hfeed rfl]
    · rw [withEnding_cons hc, endOfFirst_cons, endOfFirst_cons, hsame, ← hstep 0, hzero]
      rw [withEnding_cons hc]
      rfl

theorem Nearsighted.getD_endOfFirst_withEnding (h : Nearsighted reading)
    (hreturn : ∀ rest, reading ('\r' :: rest) = none)
    (hfeed : ending = .cr → ∀ rest, reading ('\n' :: rest) = none) (text : Text) :
    ((withEnding ending text).endOfFirst reading).getD (withEnding ending text).length =
      offsetWith ending text ((text.endOfFirst reading).getD text.length) := by
  rw [h.endOfFirst_withEnding hreturn hfeed]
  cases text.endOfFirst reading with
  | none => exact (offsetWith_length ending text).symm
  | some n => rfl

end Text

namespace Extent

open Text

variable {ending : LineEnding}

/-! ### Inline comments -/

theorem inlineComment_withEnding {text : Text} (h : '\r' ∉ text) (afterBackslash : Bool) :
    inlineComment afterBackslash (withEnding ending text) =
      offsetWith ending text (inlineComment afterBackslash text) := by
  induction text generalizing afterBackslash with
  | nil => rfl
  | cons c rest ih =>
    rw [List.mem_cons, not_or] at h
    have hpair : ∀ rest', ¬ CutsPair [c] rest' := by
      rintro rest' ⟨hlast, _⟩
      exact h.1 (Option.some.inj hlast).symm
    rw [inlineComment_cons (hpair rest)]
    by_cases hc : c = '\n'
    · subst hc
      rw [withEnding_break, inlineComment_ending (not_cutsPair_withEnding ending rest),
        if_pos (show isLineBreak '\n' = true from rfl)]
      cases afterBackslash with
      | true => rw [if_pos rfl, if_pos rfl, offsetWith_break, ih h.2]
      | false => exact (offsetWith_break ending rest 0).symm
    · have hbreak : ¬ isLineBreak c = true := by
        rw [isLineBreak_iff]
        exact not_or.2 ⟨hc, Ne.symm h.1⟩
      rw [withEnding_cons hc, inlineComment_cons (hpair _), if_neg hbreak, if_neg hbreak,
        offsetWith_cons_of_ne hc, ih h.2]

/-! ### Template literals -/

theorem templateFrom_break (place : Place) {b : Char} (hb : isLineBreak b = true) (rest : Text) :
    templateFrom place (b :: rest) = 1 + templateFrom place rest := by
  have hafter : place.after b = place := by
    rcases isLineBreak_iff.1 hb with rfl | rfl <;> cases place <;> rfl
  have hne : ∀ c, isLineBreak c = false → b ≠ c := by
    rintro c hc rfl
    rw [hc] at hb
    simp at hb
  rw [templateFrom_pass, hafter]
  · intro _
    exact ⟨fun h => absurd h (hne '\\' rfl), fun h => absurd h (hne '$' rfl)⟩
  · intro _
    exact hne '\x60' rfl

theorem templateFrom_ending (place : Place) (ending : LineEnding) (rest : Text) :
    templateFrom place (ending.text ++ rest) = ending.text.length + templateFrom place rest := by
  cases ending with
  | lf => exact templateFrom_break place rfl rest
  | crlf =>
    show templateFrom place ('\r' :: '\n' :: rest) = 2 + templateFrom place rest
    rw [templateFrom_break place rfl, templateFrom_break place rfl]
    omega
  | cr => exact templateFrom_break place rfl rest

theorem templateFrom_escape_ending {place : Place} (h : place.isLiteral = true)
    (ending : LineEnding) (rest : Text) :
    templateFrom place ('\\' :: (ending.text ++ rest)) =
      1 + (ending.text.length + templateFrom place rest) := by
  cases ending with
  | lf =>
    show templateFrom place ('\\' :: '\n' :: rest) = 1 + (1 + templateFrom place rest)
    rw [templateFrom_escape h]
    omega
  | crlf =>
    show templateFrom place ('\\' :: '\r' :: '\n' :: rest) = 1 + (2 + templateFrom place rest)
    rw [templateFrom_escape h, templateFrom_break place rfl]
    omega
  | cr =>
    show templateFrom place ('\\' :: '\r' :: rest) = 1 + (1 + templateFrom place rest)
    rw [templateFrom_escape h]
    omega

theorem templateFrom_withEnding (place : Place) (text : Text) :
    templateFrom place (withEnding ending text) =
      offsetWith ending text (templateFrom place text) := by
  induction place, text using template_induction with
  | nil place => rfl
  | escape place c rest hp ih =>
    rw [templateFrom_escape hp, withEnding_cons (by decide)]
    by_cases hc : c = '\n'
    · rw [hc, withEnding_break, templateFrom_escape_ending hp, ih,
        show 2 + templateFrom place rest = 1 + (1 + templateFrom place rest) by omega,
        offsetWith_cons_of_ne (by decide), offsetWith_break]
    · rw [withEnding_cons hc, templateFrom_escape hp, ih,
        show 2 + templateFrom place rest = 1 + (1 + templateFrom place rest) by omega,
        offsetWith_cons_of_ne (by decide), offsetWith_cons_of_ne hc]
      omega
  | hole place rest hp ih =>
    rw [templateFrom_open hp, withEnding_cons (by decide), withEnding_cons (by decide),
      templateFrom_open hp, ih,
      show 2 + templateFrom place.opened rest = 1 + (1 + templateFrom place.opened rest) by omega,
      offsetWith_cons_of_ne (by decide), offsetWith_cons_of_ne (by decide)]
    omega
  | close rest =>
    rw [templateFrom_close, withEnding_cons (by decide), templateFrom_close]
    exact (offsetWith_cons_of_ne (by decide) rest 0).symm
  | pass place c rest hpass hclose ih =>
    rw [templateFrom_pass hpass hclose]
    by_cases hc : c = '\n'
    · have hafter : place.after '\n' = place := by cases place <;> rfl
      rw [hc, hafter] at ih
      rw [hc, hafter, withEnding_break, templateFrom_ending, offsetWith_break, ih]
    · have hpass' : place.Passes c (withEnding ending rest) := by
        intro hp
        obtain ⟨hescape, hopen⟩ := hpass hp
        refine ⟨fun hback => withEnding_eq_nil.2 (hescape hback), fun hdollar hhead => ?_⟩
        exact hopen hdollar ((head?_withEnding rfl).1 hhead)
      rw [withEnding_cons hc, templateFrom_pass hpass' hclose, offsetWith_cons_of_ne hc, ih]

/-! ### Short strings -/

variable {q : Char}

theorem firstClose?_ending {rest : Text} (h : ¬ CutsPair ending.text rest) :
    firstClose? q (ending.text ++ rest) = some ending.text.length := by
  cases ending with
  | lf =>
    refine (firstClose?_cons (by decide) (by simp [CutsPair])).trans ?_
    rw [if_pos (by simp [isLineBreak])]
    rfl
  | crlf => rfl
  | cr =>
    refine (firstClose?_cons (by decide) h).trans ?_
    rw [if_pos (by simp [isLineBreak])]
    rfl

theorem firstClose?_escape_ending {rest : Text} (h : ¬ CutsPair ending.text rest) :
    firstClose? q ('\\' :: (ending.text ++ rest)) =
      (firstClose? q rest).map (1 + ending.text.length + ·) := by
  cases ending with
  | lf => exact firstClose?_escape (by simp [CutsPair])
  | crlf => rfl
  | cr => exact firstClose?_escape h

theorem firstClose?_withEnding (ending : LineEnding) (hescape : q ≠ '\\') {text : Text}
    (h : '\r' ∉ text) :
    firstClose? q (withEnding ending text) = (firstClose? q text).map (offsetWith ending text) := by
  have hpair : ∀ (c : Char) (rest : Text), c ≠ '\r' → ¬ CutsPair [c] rest := by
    rintro c rest hc ⟨hlast, _⟩
    exact hc (Option.some.inj hlast)
  fun_induction firstClose? q text with
  | case1 => rfl
  | case2 rest ih => simp at h
  | case3 c rest _ ih =>
    simp only [List.mem_cons, not_or] at h
    obtain ⟨_, hc, hrest⟩ := h
    rw [withEnding_cons (by decide)]
    by_cases hbreak : c = '\n'
    · rw [hbreak, withEnding_break, firstClose?_escape_ending (not_cutsPair_withEnding ending rest),
        ih hrest, Option.map_map, Option.map_map]
      refine Option.map_congr fun n _ => ?_
      simp only [Function.comp_apply]
      rw [show 2 + n = 1 + (1 + n) by omega, offsetWith_cons_of_ne (by decide), offsetWith_break]
      omega
    · rw [withEnding_cons hbreak, firstClose?_escape (hpair c _ (Ne.symm hc)), ih hrest,
        Option.map_map, Option.map_map]
      refine Option.map_congr fun n _ => ?_
      simp only [Function.comp_apply]
      rw [show 2 + n = 1 + (1 + n) by omega, offsetWith_cons_of_ne (by decide),
        offsetWith_cons_of_ne hbreak]
      omega
  | case4 rest => simp at h
  | case5 c rest _ _ _ hc =>
    rw [List.mem_cons, not_or] at h
    by_cases hbreak : c = '\n'
    · rw [hbreak, withEnding_break, firstClose?_ending (not_cutsPair_withEnding ending rest)]
      exact congrArg some (offsetWith_break ending rest 0).symm
    · have hback : c ≠ '\\' := by
        rintro rfl
        rcases Bool.or_eq_true_iff.1 hc with hq | hb
        · exact hescape (beq_iff_eq.1 hq).symm
        · exact absurd hb (by decide)
      rw [withEnding_cons hbreak, firstClose?_cons hback (hpair c _ (Ne.symm h.1)), if_pos hc]
      exact congrArg some (offsetWith_cons_of_ne hbreak rest 0).symm
  | case6 c rest _ hescaped _ hc ih =>
    rw [List.mem_cons, not_or] at h
    have hbreak : c ≠ '\n' := by
      rintro rfl
      exact hc (by simp [isLineBreak])
    by_cases hback : c = '\\'
    · have hrest : rest = [] := by
        cases rest with
        | nil => rfl
        | cons d rest => exact (hescaped d rest hback rfl).elim
      rw [hrest, hback]
      exact (if_neg (by simp [isLineBreak, Ne.symm hescape])).trans rfl
    · rw [withEnding_cons hbreak, firstClose?_cons hback (hpair c _ (Ne.symm h.1)), if_neg hc,
        ih h.2, Option.map_map, Option.map_map]
      refine Option.map_congr fun n _ => ?_
      simp only [Function.comp_apply]
      rw [offsetWith_cons_of_ne hbreak]

theorem lastEscapedPair?_eq_none {text : Text} (h : '\r' ∉ text ∨ '\n' ∉ text) :
    lastEscapedPair? text = none := by
  cases hlast : lastEscapedPair? text with
  | none => rfl
  | some n =>
    obtain ⟨a, b, rfl⟩ := exists_pair_of_lastEscapedPair? hlast
    simp at h

/-- A short string that never closes still takes the whole text, unless the line feeds in it have
become pairs. -/
theorem shortString_withEnding (hescape : q ≠ '\\') (hbreak : isLineBreak q = false) {text : Text}
    (h : '\r' ∉ text) (hclose : ending = .crlf → shortString? [q] text = none → '\n' ∉ text) :
    shortString [q] (withEnding ending text) = offsetWith ending text (shortString [q] text) := by
  rw [shortString_eq hescape hbreak, shortString_eq hescape hbreak,
    firstClose?_withEnding ending hescape h, lastEscapedPair?_eq_none (Or.inl h), Option.or_none]
  cases hfirst : firstClose? q text with
  | some n => rfl
  | none =>
    have hnone : shortString? [q] text = none := by
      rw [shortString?_eq hescape hbreak, hfirst, lastEscapedPair?_eq_none (Or.inl h)]
      rfl
    have hlast : lastEscapedPair? (withEnding ending text) = none := by
      cases ending with
      | lf => rw [withEnding_lf, lastEscapedPair?_eq_none (Or.inl h)]
      | crlf =>
        rw [withEnding_of_notMem (hclose rfl hnone), lastEscapedPair?_eq_none (Or.inl h)]
      | cr => exact lastEscapedPair?_eq_none (Or.inr (notMem_withEnding_cr text))
    rw [hlast]
    exact (offsetWith_length ending text).symm

/-- **A short string that never closes goes back**, if its line feeds become pairs, to the end of
its last terminator. -/
theorem shortString_withEnding_crlf (hescape : q ≠ '\\') (hbreak : isLineBreak q = false)
    {front line : Text} (h : '\r' ∉ front ++ '\n' :: line) (hline : '\n' ∉ line)
    (hnone : shortString? [q] (front ++ '\n' :: line) = none) :
    shortString [q] (withEnding .crlf (front ++ '\n' :: line)) =
      (withEnding .crlf (front ++ ['\n'])).length := by
  have hfirst : firstClose? q (front ++ '\n' :: line) = none := by
    rw [shortString?_eq hescape hbreak] at hnone
    exact (Option.or_eq_none_iff.1 hnone).1
  have hconverted := firstClose?_withEnding .crlf hescape h
  have hsplit : withEnding .crlf (front ++ '\n' :: line) =
      withEnding .crlf front ++ ['\r', '\n'] ++ line := by
    rw [withEnding_append, withEnding_break, withEnding_of_notMem hline, List.append_assoc]
    rfl
  have hends : EndsLine (withEnding .crlf front ++ ['\r', '\n']) :=
    endsLine_append_ending (withEnding .crlf front) .crlf
  have hcut : ¬ CutsPair (withEnding .crlf front ++ ['\r', '\n']) line := by
    rintro ⟨_, hhead⟩
    exact hline (List.mem_of_head? hhead)
  have hr : '\r' ∉ line := by
    simp only [List.mem_append, List.mem_cons, not_or] at h
    exact h.2.2
  have hlast := getLast?_ne_of_ended (Or.inr hends)
  rw [hfirst, Option.map_none, hsplit, firstClose?_append hlast hcut,
    Option.or_eq_none_iff] at hconverted
  rw [hsplit, shortString_eq hescape hbreak, firstClose?_append hlast hcut, hconverted.1,
    hconverted.2, lastEscapedPair?_append hlast hcut,
    lastEscapedPair?_eq_none (Or.inl hr), lastEscapedPair?_of_firstClose?_eq_none hconverted.1,
    withEnding_append]
  simp [withEnding_break, LineEnding.text]

end Extent

namespace Heredoc

theorem closing?_eq_none {rule : Heredoc} {c : Char} (hne : rule.stop ≠ [])
    (h : rule.stop.head? ≠ some c) (delimiter rest : Text) :
    rule.closing? delimiter (c :: rest) = none := by
  cases hclosing : rule.closing? delimiter (c :: rest) with
  | none => rfl
  | some n =>
    have hfront := (closing?_length hclosing).1
    obtain ⟨d, stop, hstop⟩ := List.exists_cons_of_ne_nil hne
    rw [hstop] at hfront h
    obtain rfl := (List.cons_prefix_cons.1 hfront).1
    exact absurd rfl h

theorem head?_stop_ne {rule : Heredoc} (h : rule.stop.Unbroken) {b : Char}
    (hb : isLineBreak b = true) : rule.stop.head? ≠ some b := by
  intro hhead
  exact h.notMem hb (List.mem_of_head? hhead)

end Heredoc

namespace Language

/-- The terminator means to the language what a line feed means.  A lone carriage return does not
if a here-document can open at the start of a line only, or close there. -/
def Admits (language : Language) (ending : LineEnding) : Prop :=
  ending = .cr → ∀ rule ∈ language.heredocs, rule.lead = .anything ∧ rule.stop.Unbroken

theorem admits_crlf (language : Language) : language.Admits .crlf := by
  intro h
  simp at h

end Language

namespace Opening

open Text

variable {language : Language} {ending : LineEnding}

/-- **A token reaches equally far**, whatever its lines end with. -/
theorem extent_withEnding (h : language.Orderly) (hadmits : language.Admits ending)
    {opening : Opening} (ho : language.Has opening) {text : Text} (hr : '\r' ∉ text)
    (hclose : ending = .crlf → ∀ quote, opening = .shortString quote →
      Extent.shortString? quote text = none → '\n' ∉ text) :
    opening.extent (withEnding ending text) = offsetWith ending text (opening.extent text) := by
  cases opening with
  | blockComment opener closer =>
    obtain ⟨hopener, hcloser⟩ := h.blockComments _ ho
    refine ((nearsighted_literally hcloser).or
      (nearsighted_literally hopener)).getD_endOfFirst_withEnding ?_ ?_ text
    · intro rest
      rw [literally_break hcloser rfl, literally_break hopener rfl]
      rfl
    · intro _ rest
      rw [literally_break hcloser rfl, literally_break hopener rfl]
      rfl
  | longString delimiter =>
    have hsolid := h.longStrings _ ho
    refine (nearsighted_literally hsolid).getD_endOfFirst_withEnding ?_ ?_ text
    · intro rest
      exact literally_break hsolid rfl rest
    · intro _ rest
      exact literally_break hsolid rfl rest
  | heredoc rule opener delimiter =>
    obtain ⟨hrule, lineStart, source, hopen⟩ := ho
    have horderly := h.heredocs rule hrule
    have hunbroken := (Heredoc.delimiter_of_opening? horderly hopen).1
    refine (Heredoc.nearsighted_closing? horderly hunbroken).getD_endOfFirst_withEnding ?_ ?_ text
    · intro rest
      refine Heredoc.closing?_eq_none horderly.stop.1 ?_ delimiter rest
      rcases horderly.stopHead with hstop | ⟨hfeed, _⟩
      · exact Heredoc.head?_stop_ne hstop rfl
      · rw [hfeed]
        decide
    · intro hcr rest
      exact Heredoc.closing?_eq_none horderly.stop.1
        (Heredoc.head?_stop_ne (hadmits hcr rule hrule).2 rfl) delimiter rest
  | inlineComment marker => exact Extent.inlineComment_withEnding hr _
  | shortString quote =>
    obtain ⟨hsolid, hlength⟩ := h.shortStrings _ ho
    obtain ⟨q, rfl⟩ := List.length_eq_one_iff.1 hlength
    obtain ⟨hbreak, _, hescape⟩ := hsolid.2 q (List.mem_singleton_self q)
    exact Extent.shortString_withEnding hescape hbreak hr fun hcrlf => hclose hcrlf [q] rfl
  | template => exact Extent.templateFrom_withEnding .outer text

end Opening

namespace Language

open Text

variable {language : Language} {lineStart : Bool} {ending : LineEnding}

theorem opening?_withEnding (h : language.Orderly) (ending : LineEnding) (lineStart : Bool)
    (text : Text) :
    language.opening? lineStart (withEnding ending text) = language.opening? lineStart text :=
  withEnding_congr (fun _ text rest hb => opening?_append_break h hb lineStart text rest) ending
    text

theorem unbroken_of_opening? (h : language.Orderly) {text : Text} {opening : Opening}
    (ho : language.opening? lineStart text = some opening) : opening.text.Unbroken := by
  intro b hmem
  by_contra hb
  rw [Bool.not_eq_false] at hb
  obtain ⟨rest, rfl⟩ := (opening?_isPrefix ho).2
  obtain ⟨front, back, hsplit⟩ := List.append_of_mem hmem
  rw [hsplit, List.append_assoc, List.cons_append, opening?_append_break h hb] at ho
  have hlength := (opening?_isPrefix ho).2.length_le
  rw [hsplit, List.length_append, List.length_cons] at hlength
  omega

theorem opening?_lineStart (h : ∀ rule ∈ language.heredocs, rule.lead = .anything)
    (lineStart lineStart' : Bool) (text : Text) :
    language.opening? lineStart text = language.opening? lineStart' text := by
  have hheredoc : language.heredocOpening? lineStart text =
      language.heredocOpening? lineStart' text := by
    rw [heredocOpening?, heredocOpening?]
    generalize language.heredocs = rules at h
    induction rules with
    | nil => rfl
    | cons rule rules ih =>
      have hrule : rule.opening? lineStart text = rule.opening? lineStart' text := by
        rw [Heredoc.opening?, Heredoc.opening?, h rule (List.mem_cons_self ..)]
        rfl
      rw [List.findSome?_cons, List.findSome?_cons, hrule,
        ih fun other ho => h other (List.mem_cons_of_mem _ ho)]
  rw [opening?, opening?, hheredoc]

end Language

end Literate
