import Literate.Proofs.Neighbours
import Literate.Proofs.Writing

/-!
# Runs of blocks

One region shows one run of blocks: a block of code, a block comment, or inline comments with one
indent and one marker (`run_cases`).  This file compares the source of a run with what is written
for it (`writtenRun`) by two weights.  The number of pairs never falls, and grows where two comments
of the run leave a carriage return and a line feed side by side in the joined text.  Where that does
not happen, the length never falls either, and it stays the same only if every comment of the run
has its space and one terminator.  So whatever writing changes, it cannot change back.
-/

namespace Literate

namespace Region

/-- The blocks of inline comments with one indent and one marker: for each of them, whether a space
follows the marker, and the text. -/
def inlineRun (indent marker : Text) (items : List (Bool × Text)) : List Block :=
  items.map fun item => .inlineDoc indent marker item.1 item.2

/-- **The three kinds of runs.** -/
theorem run_cases {run : List Block} (hne : run ≠ [])
    (h : run.IsChain fun a b => joins a b = true) :
    (∃ text, run = [.code text]) ∨ (∃ marker text, run = [.blockDoc marker text]) ∨
      ∃ indent marker items, items ≠ [] ∧ run = inlineRun indent marker items := by
  induction run with
  | nil => exact absurd rfl hne
  | cons block run ih =>
    cases run with
    | nil =>
      cases block with
      | code text => exact Or.inl ⟨text, rfl⟩
      | blockDoc marker text => exact Or.inr (Or.inl ⟨marker, text, rfl⟩)
      | inlineDoc indent marker spaced text =>
        exact Or.inr (Or.inr ⟨indent, marker, [(spaced, text)], by simp, rfl⟩)
    | cons next run =>
      rw [List.isChain_cons_cons] at h
      rcases ih (by simp) h.2 with ⟨text, hrun⟩ | ⟨marker, text, hrun⟩ |
        ⟨indent, marker, items, hitems, hrun⟩
      · obtain ⟨rfl, -⟩ := List.cons.inj hrun
        cases block <;> simp [joins] at h
      · obtain ⟨rfl, -⟩ := List.cons.inj hrun
        cases block <;> simp [joins] at h
      · cases items with
        | nil => exact absurd rfl hitems
        | cons item items =>
          obtain ⟨rfl, -⟩ := List.cons.inj hrun
          cases block with
          | code text => simp [joins] at h
          | blockDoc marker text => simp [joins] at h
          | inlineDoc indent' marker' spaced text =>
            simp only [joins, Bool.and_eq_true, beq_iff_eq] at h
            obtain ⟨⟨rfl, rfl⟩, -⟩ := h
            exact Or.inr (Or.inr ⟨indent', marker', (spaced, text) :: item :: items, by simp,
              by rw [hrun]; rfl⟩)

/-- **Neighbours that are shown together stand in one run.** -/
theorem exists_run_of_joins {runs : List (List Block)} {before after : List Block} {a b : Block}
    (hne : [] ∉ runs)
    (hchain : runs.IsChain fun x y => ∃ hx hy, joins (x.getLast hx) (y.head hy) = false)
    (h : runs.flatten = before ++ a :: b :: after) (hjoins : joins a b = true) :
    ∃ run ∈ runs, ∃ front back, run = front ++ a :: b :: back := by
  induction runs generalizing before with
  | nil => simp at h
  | cons run runs ih =>
    rw [List.mem_cons, not_or] at hne
    have hrest : ∀ before', runs.flatten = before' ++ a :: b :: after →
        ∃ run' ∈ run :: runs, ∃ front back, run' = front ++ a :: b :: back := by
      intro before' h'
      obtain ⟨run', hmem, hrun'⟩ := ih hne.2 (List.IsChain.tail hchain) h'
      exact ⟨run', List.mem_cons_of_mem _ hmem, hrun'⟩
    rw [List.flatten_cons] at h
    rcases List.append_eq_append_iff.1 h with ⟨middle, _, hmiddle⟩ | ⟨middle, rfl, hmiddle⟩
    · exact hrest middle hmiddle
    · match middle with
      | [] => exact hrest [] hmiddle.symm
      | [c] =>
        obtain ⟨rfl, hb⟩ := List.cons.inj hmiddle
        cases runs with
        | nil => simp at hb
        | cons next runs =>
          obtain ⟨hx, hy, hfalse⟩ := (List.isChain_cons_cons.1 hchain).1
          have hhead : next.head hy = b := by
            cases next with
            | nil => exact absurd rfl hy
            | cons d next => exact (List.cons.inj hb).1.symm
          rw [List.getLast_append_singleton, hhead, hjoins] at hfalse
          simp at hfalse
      | c :: d :: middle =>
        obtain ⟨rfl, htail⟩ := List.cons.inj hmiddle
        obtain ⟨rfl, -⟩ := List.cons.inj htail
        exact ⟨_, List.mem_cons_self .., before, middle, rfl⟩

end Region

namespace Text

/-- No border between the texts cuts a pair. -/
def Separate : List Text → Prop
  | [] => True
  | text :: texts => ¬ CutsPair text texts.flatten ∧ Separate texts

end Text

namespace Region

open Text RegionWriter

variable {indent marker : Text}

/-- What stands before the text of an inline comment. -/
def lead (indent marker : Text) (spaced : Bool) : Text :=
  indent ++ marker ++ if spaced then [' '] else []

theorem sourceOf_inlineRun_cons (indent marker : Text) (item : Bool × Text)
    (items : List (Bool × Text)) :
    Block.sourceOf (inlineRun indent marker (item :: items)) =
      lead indent marker item.1 ++ (item.2 ++ Block.sourceOf (inlineRun indent marker items)) := by
  simp [inlineRun, Block.sourceOf, Block.source, lead]

theorem flatMap_text_inlineRun (indent marker : Text) (items : List (Bool × Text)) :
    (inlineRun indent marker items).flatMap Block.text = (items.map Prod.snd).flatten := by
  rw [inlineRun, List.flatMap_map]
  rfl

theorem unbroken_lead (hindent : indent.isBlank = true) (hmarker : marker.Solid) (spaced : Bool) :
    (lead indent marker spaced).Unbroken := by
  refine unbroken_append.2 ⟨unbroken_append.2 ⟨unbroken_of_isBlank hindent, hmarker.unbroken⟩, ?_⟩
  cases spaced
  · exact unbroken_nil
  · exact unbroken_cons.2 ⟨rfl, unbroken_nil⟩

theorem lead_ne_nil (hmarker : marker.Solid) (spaced : Bool) : lead indent marker spaced ≠ [] := by
  simp [lead, hmarker.1]

theorem head?_sourceOf_inlineRun_ne (hindent : indent.isBlank = true) (hmarker : marker.Solid)
    (items : List (Bool × Text)) {c : Char} (hc : isLineBreak c = true) :
    (Block.sourceOf (inlineRun indent marker items)).head? ≠ some c := by
  cases items with
  | nil => simp [inlineRun, Block.sourceOf]
  | cons item items =>
    rw [sourceOf_inlineRun_cons, List.head?_append_of_ne_nil _ (lead_ne_nil hmarker _)]
    intro h
    rw [unbroken_lead hindent hmarker item.1 c (List.mem_of_head? h)] at hc
    simp at hc

theorem not_cutsPair_of_unbroken {before : Text} (h : before.Unbroken) (after : Text) :
    ¬ CutsPair before after := by
  rintro ⟨hlast, _⟩
  simpa [isLineBreak] using h _ (List.mem_of_getLast? hlast)

theorem sourceOf_inlineRun_ne_nil (indent : Text) (hmarker : marker.Solid)
    {items : List (Bool × Text)} (hne : items ≠ []) :
    Block.sourceOf (inlineRun indent marker items) ≠ [] := by
  cases items with
  | nil => exact absurd rfl hne
  | cons item items =>
    rw [sourceOf_inlineRun_cons]
    exact List.append_ne_nil_of_left_ne_nil (lead_ne_nil hmarker _) _

theorem getLast?_flatten_of_sourceOf_inlineRun (hindent : indent.isBlank = true)
    (hmarker : marker.Solid) {items : List (Bool × Text)} {c : Char} (hc : isLineBreak c = true)
    (h : (Block.sourceOf (inlineRun indent marker items)).getLast? = some c) :
    (items.map Prod.snd).flatten.getLast? = some c := by
  induction items with
  | nil => simp [inlineRun, Block.sourceOf] at h
  | cons item items ih =>
    rw [sourceOf_inlineRun_cons] at h
    rw [List.map_cons, List.flatten_cons]
    by_cases hitems : items = []
    · subst hitems
      have htext : item.2 ≠ [] := by
        intro hnil
        rw [hnil] at h
        have hmem : c ∈ lead indent marker item.1 := List.mem_of_getLast? (by
          simpa [inlineRun, Block.sourceOf] using h)
        rw [unbroken_lead hindent hmarker item.1 c hmem] at hc
        simp at hc
      rw [← List.append_assoc, show Block.sourceOf (inlineRun indent marker []) = [] from rfl,
        List.append_nil, List.getLast?_append_of_ne_nil _ htext] at h
      simpa using h
    · have hsource := sourceOf_inlineRun_ne_nil indent hmarker hitems
      rw [← List.append_assoc, List.getLast?_append_of_ne_nil _ hsource] at h
      rw [List.getLast?_append, ih h]
      rfl

/-- **Joining the texts of a run makes no fewer pairs**, and as many only if no border between two
of them cuts a pair. -/
theorem pairs_sourceOf_inlineRun (hindent : indent.isBlank = true) (hmarker : marker.Solid)
    (items : List (Bool × Text)) :
    pairs (Block.sourceOf (inlineRun indent marker items)) ≤ pairs (items.map Prod.snd).flatten ∧
      (pairs (Block.sourceOf (inlineRun indent marker items)) = pairs (items.map Prod.snd).flatten →
        Separate (items.map Prod.snd)) := by
  induction items with
  | nil => exact ⟨Nat.le_refl _, fun _ => trivial⟩
  | cons item items ih =>
    have hnext : ¬ CutsPair item.2 (Block.sourceOf (inlineRun indent marker items)) :=
      fun h => head?_sourceOf_inlineRun_ne hindent hmarker items rfl h.2
    have hlead := unbroken_lead hindent hmarker item.1
    rw [sourceOf_inlineRun_cons, pairs_append_of_not_cutsPair (not_cutsPair_of_unbroken hlead _),
      pairs_of_unbroken hlead, pairs_append_of_not_cutsPair hnext, List.map_cons,
      List.flatten_cons, pairs_append]
    obtain ⟨hle, hseparate⟩ := ih
    refine ⟨by omega, fun heq => ⟨fun hcut => ?_, hseparate (by omega)⟩⟩
    rw [if_pos hcut] at heq
    omega

/-- **Writing a run takes no fewer characters than its source has**, and as many only if every
comment has its space and one terminator. -/
theorem length_sourceOf_inlineRun {items : List (Bool × Text)}
    (hseparate : Separate (items.map Prod.snd)) (hends : ∀ item ∈ items, item.2.EndsLine) :
    (Block.sourceOf (inlineRun indent marker items)).length ≤
        countTerminators (items.map Prod.snd).flatten * (indent ++ marker ++ [' ']).length +
          (items.map Prod.snd).flatten.length ∧
      ((Block.sourceOf (inlineRun indent marker items)).length =
          countTerminators (items.map Prod.snd).flatten * (indent ++ marker ++ [' ']).length +
            (items.map Prod.snd).flatten.length →
        ∀ item ∈ items, item.1 = true ∧ countTerminators item.2 = 1) := by
  induction items with
  | nil => simp [inlineRun, Block.sourceOf]
  | cons item items ih =>
    rw [List.map_cons] at hseparate
    obtain ⟨hle, heq⟩ := ih hseparate.2 fun other ho => hends other (List.mem_cons_of_mem _ ho)
    have hpos := countTerminators_pos (hends item (List.mem_cons_self ..))
    obtain ⟨extra, hextra⟩ : ∃ extra, countTerminators item.2 = extra + 1 :=
      ⟨countTerminators item.2 - 1, by omega⟩
    have hcount := countTerminators_append item.2 (items.map Prod.snd).flatten
    rw [if_neg hseparate.1, Nat.add_zero, hextra] at hcount
    have hlead : (lead indent marker item.1).length ≤ (indent ++ marker ++ [' ']).length ∧
        ((lead indent marker item.1).length = (indent ++ marker ++ [' ']).length →
          item.1 = true) := by
      cases hs : item.1 <;> simp [lead]
    generalize hwidth : (indent ++ marker ++ [' ']).length = width at *
    have hmul : extra ≤ extra * width := by
      refine Nat.le_mul_of_pos_right _ ?_
      rw [← hwidth, List.length_append]
      exact Nat.succ_pos _
    rw [sourceOf_inlineRun_cons, List.map_cons, List.flatten_cons, hcount, Nat.add_mul, Nat.add_mul,
      Nat.one_mul]
    simp only [List.length_append]
    refine ⟨by omega, fun hsum other ho => ?_⟩
    rcases List.mem_cons.1 ho with rfl | ho
    · exact ⟨hlead.2 (by omega), by omega⟩
    · exact heq (by omega) other ho

theorem eq_singleton_of_head? {text : Text} (hends : text.EndsLine)
    (hcount : countTerminators text = 1) (h : text.head? = some '\n') : text = ['\n'] := by
  obtain ⟨line, ending, hline, rfl⟩ := exists_unbroken_append_ending hends hcount
  cases line with
  | nil => cases ending <;> simp [LineEnding.text] at h ⊢
  | cons c line =>
    obtain rfl : c = '\n' := by simpa using h
    simp [unbroken_cons, isLineBreak] at hline

theorem separate_of_unpaired {items : List (Bool × Text)}
    (hends : ∀ item ∈ items, countTerminators item.2 = 1 ∧ item.2.EndsLine)
    (h : ∀ before after item next, items = before ++ item :: next :: after →
      next.2 = ['\n'] → item.2.getLast? ≠ some '\r') :
    Separate (items.map Prod.snd) := by
  induction items with
  | nil => trivial
  | cons item items ih =>
    refine ⟨?_, ih (fun other ho => hends other (List.mem_cons_of_mem _ ho)) ?_⟩
    · rintro ⟨hlast, hhead⟩
      cases items with
      | nil => simp at hhead
      | cons next items =>
        obtain ⟨hcount, hline⟩ := hends next (by simp)
        rw [List.map_cons, List.flatten_cons, List.head?_append_of_ne_nil _ hline.ne_nil] at hhead
        exact h [] items item next rfl (eq_singleton_of_head? hline hcount hhead) hlast
    · rintro before after item' next rfl
      exact h (item :: before) after item' next rfl

theorem not_separate_of_inlineRun_eq {items : List (Bool × Text)} {front back : List Block}
    {indent₁ indent₂ marker₁ marker₂ text : Text} {spaced spaced' : Bool}
    (h : inlineRun indent marker items = front ++ .inlineDoc indent₁ marker₁ spaced text ::
      .inlineDoc indent₂ marker₂ spaced' ['\n'] :: back)
    (hlast : text.getLast? = some '\r') : ¬ Separate (items.map Prod.snd) := by
  induction items generalizing front with
  | nil => simp [inlineRun] at h
  | cons item items ih =>
    rintro ⟨hcut, hseparate⟩
    cases front with
    | cons block front => exact ih (List.cons.inj h).2 hseparate
    | nil =>
      obtain ⟨hfirst, hnext⟩ := List.cons.inj h
      obtain ⟨_, _, _, rfl⟩ := Block.inlineDoc.inj hfirst
      cases items with
      | nil => simp at hnext
      | cons next items =>
        obtain ⟨_, _, _, hline⟩ := Block.inlineDoc.inj (List.cons.inj hnext).1
        exact hcut ⟨hlast, by rw [List.map_cons, List.flatten_cons, hline]; rfl⟩

theorem endsLine_flatten {items : List (Bool × Text)} (hne : items ≠ [])
    (hends : ∀ item ∈ items, item.2.EndsLine) : EndsLine (items.map Prod.snd).flatten := by
  have hlast := hends _ (List.getLast_mem hne)
  rw [← List.dropLast_append_getLast hne, List.map_append, List.flatten_append]
  simp only [List.map_cons, List.map_nil, List.flatten_cons, List.flatten_nil, List.append_nil]
  exact (endsLine_append_of_ne_nil hlast.ne_nil).2 hlast

/-- **A run of spaced comments, one line each, is written as it is.** -/
theorem writeText_flatten_eq_sourceOf {items : List (Bool × Text)} (hne : items ≠ [])
    (hseparate : Separate (items.map Prod.snd)) (hspaced : ∀ item ∈ items, item.1 = true)
    (hends : ∀ item ∈ items, countTerminators item.2 = 1 ∧ item.2.EndsLine) (ending : LineEnding) :
    writeText (indent ++ marker ++ [' ']) ending (items.map Prod.snd).flatten =
      Block.sourceOf (inlineRun indent marker items) := by
  induction items with
  | nil => exact absurd rfl hne
  | cons item items ih =>
    obtain ⟨hcount, hline⟩ := hends item (List.mem_cons_self ..)
    obtain ⟨line, ending', hunbroken, htext⟩ := exists_unbroken_append_ending hline hcount
    have hlead : lead indent marker item.1 = indent ++ marker ++ [' '] := by
      rw [lead, hspaced item (List.mem_cons_self ..)]
      rfl
    rw [sourceOf_inlineRun_cons, hlead, List.map_cons, List.flatten_cons, htext]
    by_cases hitems : items = []
    · subst hitems
      simp only [List.map_nil, List.flatten_nil, List.append_nil]
      rw [writeText_append_ending (not_cutsPair_of_unbroken hunbroken _),
        writeLines_of_unbroken hunbroken]
      simp [inlineRun, Block.sourceOf]
    · have hrest := endsLine_flatten hitems fun other ho =>
        (hends other (List.mem_cons_of_mem _ ho)).2
      have hcut : ¬ CutsPair ending'.text (items.map Prod.snd).flatten := by
        rintro ⟨hlast, hhead⟩
        refine hseparate.1 ⟨?_, hhead⟩
        rw [htext, List.getLast?_append_of_ne_nil _ (ending_ne_nil ending'), hlast]
      rw [writeText_append hunbroken hcut hrest,
        ih hitems hseparate.2 (fun other ho => hspaced other (List.mem_cons_of_mem _ ho))
          (fun other ho => hends other (List.mem_cons_of_mem _ ho))]
      simp

/-! ### What is written for a run -/

theorem writtenRun_code (marker : Text) (ending : LineEnding) (text : Text) :
    writtenRun marker ending [.code text] = writeText [] ending text := by
  rw [writtenRun, List.flatMap_cons, List.flatMap_nil, List.append_nil]
  rfl

theorem writtenRun_blockDoc (marker : Text) (ending : LineEnding) (opener text : Text) :
    writtenRun marker ending [.blockDoc opener text] = writeText (marker ++ [' ']) ending text := by
  rw [writtenRun, List.flatMap_cons, List.flatMap_nil, List.append_nil]
  rfl

theorem writtenRun_inlineRun (marker : Text) (ending : LineEnding) (indent marker' : Text)
    {items : List (Bool × Text)} (hne : items ≠ []) :
    writtenRun marker ending (inlineRun indent marker' items) =
      writeText (indent ++ marker ++ [' ']) ending (items.map Prod.snd).flatten := by
  cases items with
  | nil => exact absurd rfl hne
  | cons item items =>
    rw [← flatMap_text_inlineRun indent marker']
    rfl

/-- What is written for a text has the same line breaks at its borders, and no fewer pairs. -/
structure Covers (written source : Text) : Prop where
  ne_nil : source ≠ []
  head : source.head? = some '\n' → written.head? = some '\n'
  last : source.getLast? = some '\r' → written.getLast? = some '\r'
  pairs_le : pairs source ≤ pairs written

theorem covers_code {text : Text} (hne : text ≠ []) (ending : LineEnding) :
    Covers (writeText [] ending text) text where
  ne_nil := hne
  head h := by
    by_cases hends : text.EndsLine
    · rw [writeText_nil_of_endsLine hends, h]
    · rw [writeText_nil_of_not_endsLine hends, List.head?_append_of_ne_nil _ hne, h]
  last h := by
    rw [getLast?_writeText ⟨'\r', h, rfl⟩, h]
  pairs_le := pairs_le_pairs_writeText unbroken_nil ..

theorem covers_blockDoc {margin opener text : Text} (hmargin : margin.Unbroken)
    (hopener : opener.Solid) (htext : opener <+: text) (ending : LineEnding) :
    Covers (writeText margin ending text) text where
  ne_nil := by
    rintro rfl
    exact hopener.1 (List.prefix_nil.1 htext)
  head h := by
    obtain ⟨rest, rfl⟩ := htext
    rw [List.head?_append_of_ne_nil _ hopener.1] at h
    simpa [isLineBreak] using hopener.unbroken _ (List.mem_of_head? h)
  last h := by
    rw [getLast?_writeText ⟨'\r', h, rfl⟩, h]
  pairs_le := pairs_le_pairs_writeText hmargin ..

theorem covers_inlineRun {margin : Text} (hmargin : margin.Unbroken)
    (hindent : indent.isBlank = true) (hmarker : marker.Solid) {items : List (Bool × Text)}
    (hne : items ≠ []) (ending : LineEnding) :
    Covers (writeText margin ending (items.map Prod.snd).flatten)
      (Block.sourceOf (inlineRun indent marker items)) where
  ne_nil := sourceOf_inlineRun_ne_nil indent hmarker hne
  head h := absurd h (head?_sourceOf_inlineRun_ne hindent hmarker items rfl)
  last h := by
    have hlast := getLast?_flatten_of_sourceOf_inlineRun hindent hmarker rfl h
    rw [getLast?_writeText ⟨'\r', hlast, rfl⟩, hlast]
  pairs_le := (pairs_sourceOf_inlineRun hindent hmarker items).1.trans
    (pairs_le_pairs_writeText hmargin ..)

/-- **Pairs are compared part by part.**  If the parts of two texts have the same number of pairs in
sum, they have it one by one. -/
theorem pairs_flatMap_le {α : Type} {written source : α → Text} {parts : List α}
    (h : ∀ part ∈ parts, Covers (written part) (source part)) :
    pairs (parts.flatMap source) ≤ pairs (parts.flatMap written) ∧
      (pairs (parts.flatMap source) = pairs (parts.flatMap written) →
        ∀ part ∈ parts, pairs (source part) = pairs (written part)) := by
  induction parts with
  | nil => simp
  | cons part parts ih =>
    obtain ⟨hle, heq⟩ := ih fun other ho => h other (List.mem_cons_of_mem _ ho)
    have hpart := h part (List.mem_cons_self ..)
    have hcut : CutsPair (source part) (parts.flatMap source) →
        CutsPair (written part) (parts.flatMap written) := by
      rintro ⟨hlast, hhead⟩
      refine ⟨hpart.last hlast, ?_⟩
      cases parts with
      | nil => simp at hhead
      | cons next parts =>
        have hnext := h next (by simp)
        rw [List.flatMap_cons, List.head?_append_of_ne_nil _ hnext.ne_nil] at hhead
        rw [List.flatMap_cons, List.head?_append, hnext.head hhead]
        rfl
    have hcuts : (if CutsPair (source part) (parts.flatMap source) then 1 else 0) ≤
        if CutsPair (written part) (parts.flatMap written) then 1 else 0 := by
      split
      · next hs => rw [if_pos (hcut hs)]
      · exact Nat.zero_le _
    rw [List.flatMap_cons, List.flatMap_cons, pairs_append, pairs_append]
    have hparts := hpart.pairs_le
    refine ⟨by omega, fun hsum other ho => ?_⟩
    rcases List.mem_cons.1 ho with rfl | ho
    · omega
    · exact heq (by omega) other ho

theorem length_flatMap_le {α : Type} {written source : α → Text} {parts : List α}
    (h : ∀ part ∈ parts, (source part).length ≤ (written part).length) :
    (parts.flatMap source).length ≤ (parts.flatMap written).length ∧
      ((parts.flatMap source).length = (parts.flatMap written).length →
        ∀ part ∈ parts, (source part).length = (written part).length) := by
  induction parts with
  | nil => simp
  | cons part parts ih =>
    obtain ⟨hle, heq⟩ := ih fun other ho => h other (List.mem_cons_of_mem _ ho)
    have hpart := h part (List.mem_cons_self ..)
    rw [List.flatMap_cons, List.flatMap_cons, List.length_append, List.length_append]
    refine ⟨by omega, fun hsum other ho => ?_⟩
    rcases List.mem_cons.1 ho with rfl | ho
    · omega
    · exact heq (by omega) other ho

end Region

namespace Language

open Text

/-- **Inline documentation ends its line**, in a text that does. -/
theorem Layout.endsLine_of_mem {language : Language} {lineStart fresh : Bool} {source : Text}
    {blocks : List Block} (h : Layout language lineStart fresh source blocks)
    (horderly : language.Orderly) (hended : source.Ended) {indent marker text : Text}
    {spaced : Bool} (hmem : .inlineDoc indent marker spaced text ∈ blocks) : text.EndsLine := by
  obtain ⟨before, after, hblocks⟩ := List.append_of_mem hmem
  have hchain := h.isChain
  rw [hblocks] at hchain
  have hright := hchain.right_of_append
  cases after with
  | cons next after => exact (List.isChain_cons_cons.1 hright).1.1
  | nil =>
    obtain ⟨hindent, hmarker, _⟩ := h.ofLanguage _ hmem
    have hsolid := horderly.inlineComments _ hmarker
    have hlead := Region.unbroken_lead hindent hsolid spaced
    have hsource := h.sourceOf_eq
    have hlast : Block.sourceOf [.inlineDoc indent marker spaced text] =
        Region.lead indent marker spaced ++ text := by
      simp [Block.sourceOf, Block.source, Region.lead]
    rw [hblocks, Block.sourceOf_append, hlast, ← List.append_assoc] at hsource
    have hends : source.EndsLine := by
      refine hended.resolve_left ?_
      rintro rfl
      simp [Region.lead_ne_nil hsolid spaced] at hsource
    by_cases htext : text = []
    · subst htext
      rw [← hsource, List.append_nil,
        endsLine_append_of_ne_nil (Region.lead_ne_nil hsolid spaced)] at hends
      exact absurd hends hlead.not_endsLine
    · rwa [← hsource, endsLine_append_of_ne_nil htext] at hends

end Language

end Literate
