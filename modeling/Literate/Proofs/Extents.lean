import Literate.Proofs.Openings
import Literate.Proofs.ShortString
import Mathlib.Data.List.TakeWhile

/-!
# Tokens and what stands behind their line

A token that ends before a line does is not affected by what stands behind that line:

  `extent (text ++ rest) = extent (text ++ rest')`

whenever `text` ends a line and the left side reaches no further than `text`.  For short strings
this needs that the text before the edit ends its line and keeps its pairs to the end, because a
short string that never closes goes back to an escaped pair.  The last part of the file lifts this
from extents to lexemes and to whole scans.
-/

namespace Literate

namespace Text

/-- The reading takes characters that are there, and behind the first of them it does not see past a
line break. -/
structure Nearsighted (reading : Text → Option Nat) : Prop where
  pos : ∀ {text : Text} {n : Nat}, reading text = some n → 0 < n
  le : ∀ {text : Text} {n : Nat}, reading text = some n → n ≤ text.length
  sight : ∀ {b : Char} (c : Char) (text rest : Text), isLineBreak b = true →
    reading (c :: (text ++ b :: rest)) = reading (c :: text)

theorem Nearsighted.or {reading reading' : Text → Option Nat} (h : Nearsighted reading)
    (h' : Nearsighted reading') : Nearsighted fun text => (reading text).or (reading' text) where
  pos hn := (Option.or_eq_some_iff.1 hn).elim h.pos fun hn => h'.pos hn.2
  le hn := (Option.or_eq_some_iff.1 hn).elim h.le fun hn => h'.le hn.2
  sight c text rest hb := by rw [h.sight c text rest hb, h'.sight c text rest hb]

theorem literally_le {token text : Text} {n : Nat} (h : literally token text = some n) :
    n ≤ text.length := by
  rw [literally, Option.ite_none_right_eq_some] at h
  obtain rfl := Option.some.inj h.2
  exact (List.isPrefixOf_iff_prefix.1 h.1).length_le

theorem nearsighted_literally {token : Text} (h : token.Solid) :
    Nearsighted (literally token) where
  pos hn := by
    rw [literally, Option.ite_none_right_eq_some] at hn
    obtain rfl := Option.some.inj hn.2
    exact List.length_pos_iff.2 h.1
  le hn := literally_le hn
  sight c text rest hb := by
    rw [literally, literally, ← List.cons_append, isPrefixOf_append_break hb rest _ _ h.unbroken]

theorem literally_break {token : Text} (h : token.Solid) {b : Char} (hb : isLineBreak b = true)
    (rest : Text) : literally token (b :: rest) = none := by
  have hnil := isPrefixOf_append_break hb rest token [] h.unbroken
  rw [List.nil_append] at hnil
  rw [literally, hnil]
  obtain ⟨c, token, rfl, _⟩ := h.exists_cons
  rfl

variable {reading : Text → Option Nat}

theorem Nearsighted.endOfFirst_pos (h : Nearsighted reading) :
    ∀ (text : Text) (n : Nat), text.endOfFirst reading = some n → 0 < n := by
  intro text
  induction text with
  | nil =>
    intro n hn
    rw [endOfFirst_nil] at hn
    exact h.pos hn
  | cons c text ih =>
    intro n hn
    rw [endOfFirst_cons, Option.or_eq_some_iff] at hn
    rcases hn with hn | ⟨_, hn⟩
    · exact h.pos hn
    · obtain ⟨m, _, rfl⟩ := Option.map_eq_some_iff.1 hn
      omega

/-- A search that ends within a text that ends its line does not see what stands behind it, unless
the reading at the last character does. -/
theorem Nearsighted.endOfFirst_append (h : Nearsighted reading) {rest rest' : Text}
    (hat : ∀ b n, isLineBreak b = true → reading (b :: rest) = some n → 1 < n) :
    ∀ (text : Text) (n : Nat), EndsLine text → (text ++ rest).endOfFirst reading = some n →
      n ≤ text.length → (text ++ rest').endOfFirst reading = some n := by
  intro text
  induction text with
  | nil =>
    intro n hends
    exact absurd rfl hends.ne_nil
  | cons c text ih =>
    intro n hends hfirst hle
    rw [List.cons_append, endOfFirst_cons] at hfirst ⊢
    by_cases hnil : text = []
    · subst hnil
      have hc : isLineBreak c = true := Ended.isLineBreak (Or.inr hends)
      rw [List.nil_append, Option.or_eq_some_iff] at hfirst
      rcases hfirst with hread | ⟨_, hnext⟩
      · have := hat c n hc hread
        simp only [List.length_cons, List.length_nil] at hle
        omega
      · obtain ⟨m, hm, rfl⟩ := Option.map_eq_some_iff.1 hnext
        have := h.endOfFirst_pos _ _ hm
        simp only [List.length_cons, List.length_nil] at hle
        omega
    · have hends : EndsLine text := (endsLine_append_of_ne_nil (a := [c]) hnil).1 hends
      have hsame : reading (c :: (text ++ rest)) = reading (c :: (text ++ rest')) := by
        obtain ⟨b, hlast, hb⟩ := hends
        obtain ⟨front, rfl⟩ := List.getLast?_eq_some_iff.1 hlast
        rw [List.append_assoc, List.append_assoc, List.singleton_append, List.singleton_append,
          h.sight c front rest hb, h.sight c front rest' hb]
      rw [hsame] at hfirst
      cases hread : reading (c :: (text ++ rest')) with
      | some m =>
        rw [hread] at hfirst
        exact hfirst
      | none =>
        rw [hread, Option.none_or] at hfirst
        obtain ⟨m, hm, rfl⟩ := Option.map_eq_some_iff.1 hfirst
        rw [List.length_cons] at hle
        rw [ih m hends hm (by omega)]
        rfl

end Text

namespace Heredoc

open Text

variable {rule : Heredoc} {b : Char}

theorem delimiter_of_opening? (hrule : rule.Orderly) {lineStart : Bool}
    {text opener delimiter : Text} (h : rule.opening? lineStart text = some (opener, delimiter)) :
    delimiter.Unbroken ∧ rule.shape.fewest ≤ delimiter.length := by
  rw [opening?, Option.ite_none_left_eq_some] at h
  obtain ⟨width, _, hwidth⟩ := List.exists_of_findSome?_eq_some h.2
  simp only [Option.map_eq_some_iff, Prod.mk.injEq] at hwidth
  obtain ⟨d, hd, _, rfl⟩ := hwidth
  rw [delimiter?, Option.ite_none_right_eq_some] at hd
  obtain ⟨n, hn, rfl⟩ := Option.map_eq_some_iff.1 hd.2
  have hmem := List.mem_of_find?_eq_some hn
  refine ⟨Form.unbroken_take hrule.shape hmem, ?_⟩
  rw [List.length_take, Nat.min_eq_left (Form.le_length_of_mem hmem)]
  exact Form.fewest_le_of_mem hmem

theorem closing?_cons_append_break (h : rule.Orderly) {delimiter : Text} (hd : delimiter.Unbroken)
    (hb : isLineBreak b = true) (c : Char) (text rest : Text) :
    rule.closing? delimiter (c :: (text ++ b :: rest)) = rule.closing? delimiter (c :: text) := by
  obtain ⟨hne, hstop⟩ := h.stop
  cases hs : rule.stop with
  | nil => exact absurd hs hne
  | cons d stop =>
    rw [hs] at hstop
    have hstop : Text.Unbroken stop := hstop
    rw [closing?, closing?, hs, List.isPrefixOf_cons_cons, List.isPrefixOf_cons_cons,
      isPrefixOf_append_break hb rest stop text hstop]
    split
    · next hfront =>
      obtain ⟨body, rfl⟩ := List.isPrefixOf_iff_prefix.1 (Bool.and_eq_true_iff.1 hfront).2
      have hdrop : ∀ tail : Text,
          (c :: (stop ++ tail)).drop (d :: stop).length = tail := by
        intro tail
        rw [List.length_cons, List.drop_succ_cons, List.drop_left]
      have hindent : b ∉ rule.stopIndent := h.stopIndent.notMem hb
      dsimp only
      rw [List.append_assoc, hdrop, hdrop, takeWhile_append_break (by simpa using hindent)]
      rw [List.find?_congr]
      intro n hn
      have hn' : n ≤ body.length := by
        have := List.mem_range.1 (List.mem_reverse.1 hn)
        have := (List.takeWhile_prefix (l := body) rule.stopIndent.contains).length_le
        omega
      rw [List.drop_append_of_le_length hn',
        isPrefixOf_append_break hb rest _ _ (unbroken_append.2 ⟨hd, h.stopEnd⟩)]
    · rfl

theorem closing?_length {delimiter text : Text} {n : Nat}
    (h : rule.closing? delimiter text = some n) :
    rule.stop <+: text ∧ rule.stop.length + delimiter.length ≤ n := by
  rw [closing?, Option.ite_none_right_eq_some] at h
  obtain ⟨m, _, rfl⟩ := Option.map_eq_some_iff.1 h.2
  exact ⟨List.isPrefixOf_iff_prefix.1 h.1, by omega⟩

theorem closing?_le {delimiter text : Text} {n : Nat}
    (h : rule.closing? delimiter text = some n) : n ≤ text.length := by
  rw [closing?, Option.ite_none_right_eq_some] at h
  obtain ⟨m, hm, rfl⟩ := Option.map_eq_some_iff.1 h.2
  obtain ⟨body, rfl⟩ := List.isPrefixOf_iff_prefix.1 h.1
  rw [List.drop_left] at hm
  have hindent := List.mem_range.1 (List.mem_reverse.1 (List.mem_of_find?_eq_some hm))
  have hrun := (List.takeWhile_prefix (l := body) rule.stopIndent.contains).length_le
  have hend := List.find?_some hm
  have hlength := (List.isPrefixOf_iff_prefix.1 hend).length_le
  rw [List.length_append, List.length_drop] at hlength
  rw [List.length_append]
  omega

theorem nearsighted_closing? (h : rule.Orderly) {delimiter : Text} (hd : delimiter.Unbroken) :
    Nearsighted (rule.closing? delimiter) where
  pos hn := by
    have := List.length_pos_iff.2 h.stop.1
    have := (closing?_length hn).2
    omega
  le hn := closing?_le hn
  sight c text rest hb := closing?_cons_append_break h hd hb c text rest

end Heredoc

namespace Extent

open Text

theorem inlineComment_cons {c : Char} {rest : Text} (hpair : ¬ CutsPair [c] rest)
    (afterBackslash : Bool) :
    inlineComment afterBackslash (c :: rest) =
      if isLineBreak c then
        if afterBackslash then 1 + inlineComment false rest else 1
      else 1 + inlineComment (c == '\\') rest := by
  rw [inlineComment]
  rintro rest' rfl rfl
  exact hpair ⟨rfl, rfl⟩

theorem inlineComment_ending {ending : LineEnding} {rest : Text}
    (h : ¬ CutsPair ending.text rest) (afterBackslash : Bool) :
    inlineComment afterBackslash (ending.text ++ rest) =
      if afterBackslash then ending.text.length + inlineComment false rest
      else ending.text.length := by
  cases ending with
  | lf => exact inlineComment_cons (by simp [CutsPair]) afterBackslash
  | crlf => rfl
  | cr => exact inlineComment_cons h afterBackslash

theorem inlineComment_append {rest rest' : Text} (hne : rest ≠ []) {afterBackslash : Bool}
    {text : Text} (hcut : ¬ CutsPair text rest) (hcut' : ¬ CutsPair text rest')
    (hle : inlineComment afterBackslash (text ++ rest) ≤ text.length) :
    inlineComment afterBackslash (text ++ rest') = inlineComment afterBackslash (text ++ rest) := by
  fun_induction inlineComment afterBackslash text with
  | case1 afterBackslash =>
    have := inlineComment_pos afterBackslash hne
    rw [List.nil_append, List.length_nil] at hle
    omega
  | case2 tail ih =>
    simp only [List.cons_append, inlineComment, if_true, List.length_cons] at hle ⊢
    rw [ih (fun hc => hcut ((hc.cons _).cons _)) (fun hc => hcut' ((hc.cons _).cons _)) (by omega)]
  | case3 afterBackslash tail hback =>
    simp only [List.cons_append, inlineComment]
    rw [if_neg hback, if_neg hback]
  | case4 c tail hpair hbreak ih =>
    have hc := not_cutsPair_singleton hpair hcut
    have hc' := not_cutsPair_singleton hpair hcut'
    rw [List.cons_append, inlineComment_cons hc, if_pos hbreak, if_pos rfl, List.length_cons] at hle
    rw [List.cons_append, List.cons_append, inlineComment_cons hc, inlineComment_cons hc',
      if_pos hbreak, if_pos rfl, if_pos hbreak, if_pos rfl,
      ih (fun hc => hcut (hc.cons _)) (fun hc => hcut' (hc.cons _)) (by omega)]
  | case5 afterBackslash c tail hpair hbreak hback =>
    have hc := not_cutsPair_singleton hpair hcut
    have hc' := not_cutsPair_singleton hpair hcut'
    rw [List.cons_append, List.cons_append, inlineComment_cons hc, inlineComment_cons hc',
      if_pos hbreak, if_neg hback, if_pos hbreak, if_neg hback]
  | case6 afterBackslash c tail hpair hbreak ih =>
    have hc := not_cutsPair_singleton hpair hcut
    have hc' := not_cutsPair_singleton hpair hcut'
    rw [List.cons_append, inlineComment_cons hc, if_neg hbreak, List.length_cons] at hle
    rw [List.cons_append, List.cons_append, inlineComment_cons hc, inlineComment_cons hc',
      if_neg hbreak, if_neg hbreak,
      ih (fun hc => hcut (hc.cons _)) (fun hc => hcut' (hc.cons _)) (by omega)]

/-! ### Template literals -/

/-- The place is in a literal, where characters can be escaped and holes can open. -/
def Place.isLiteral : Place → Bool
  | .outer => true
  | .inner => true
  | .hole => false
  | .innerHole => false

def Place.opened : Place → Place
  | .outer => .hole
  | .inner => .innerHole
  | place => place

/-- The place behind a character that is neither escaped nor part of the opening of a hole. -/
def Place.after (c : Char) : Place → Place
  | .outer => .outer
  | .inner => if c == '\x60' then .hole else .inner
  | .hole => if c == '\x7d' then .outer else if c == '\x60' then .inner else .hole
  | .innerHole => if c == '\x7d' then .inner else .innerHole

/-- In a literal, the character neither escapes the next one nor opens a hole with it. -/
def Place.Passes (place : Place) (c : Char) (rest : Text) : Prop :=
  place.isLiteral = true → (c = '\\' → rest = []) ∧ (c = '$' → rest.head? ≠ some '\x7b')

theorem templateFrom_escape {place : Place} (h : place.isLiteral = true) (c : Char) (rest : Text) :
    templateFrom place ('\\' :: c :: rest) = 2 + templateFrom place rest := by
  cases place with
  | outer | inner => rw [templateFrom]
  | hole | innerHole => simp [Place.isLiteral] at h

theorem templateFrom_open {place : Place} (h : place.isLiteral = true) (rest : Text) :
    templateFrom place ('$' :: '\x7b' :: rest) = 2 + templateFrom place.opened rest := by
  cases place with
  | outer | inner => rw [templateFrom]; rfl
  | hole | innerHole => simp [Place.isLiteral] at h

theorem templateFrom_close (rest : Text) : templateFrom .outer ('\x60' :: rest) = 1 := by
  rw [templateFrom]
  · rfl
  · simp
  · simp

theorem templateFrom_pass {place : Place} {c : Char} {rest : Text} (h : place.Passes c rest)
    (hclose : place = .outer → c ≠ '\x60') :
    templateFrom place (c :: rest) = 1 + templateFrom (place.after c) rest := by
  have hescape : place.isLiteral = true → ∀ d rest', c = '\\' → rest = d :: rest' → False := by
    rintro hp d rest' hc rfl
    simpa using (h hp).1 hc
  have hopen : place.isLiteral = true → ∀ rest', c = '$' → rest = '\x7b' :: rest' → False := by
    rintro hp rest' hc rfl
    exact (h hp).2 hc rfl
  cases place with
  | outer =>
    rw [templateFrom, if_neg (by simpa using hclose rfl)]
    · rfl
    · exact hescape rfl
    · exact hopen rfl
  | inner =>
    rw [templateFrom]
    · rfl
    · exact hescape rfl
    · exact hopen rfl
  | hole => rw [templateFrom]; rfl
  | innerHole => rw [templateFrom]; rfl

/-- **Induction along a template literal.** -/
theorem template_induction {motive : Place → Text → Prop} (nil : ∀ place, motive place [])
    (escape : ∀ place c rest, place.isLiteral = true → motive place rest →
      motive place ('\\' :: c :: rest))
    (hole : ∀ place rest, place.isLiteral = true → motive place.opened rest →
      motive place ('$' :: '\x7b' :: rest))
    (close : ∀ rest, motive .outer ('\x60' :: rest))
    (pass : ∀ place c rest, place.Passes c rest → (place = .outer → c ≠ '\x60') →
      motive (place.after c) rest → motive place (c :: rest))
    (place : Place) (text : Text) : motive place text := by
  have hpasses : ∀ (place : Place) (c : Char) (rest : List Char),
      (∀ d rest', c = '\\' → rest = d :: rest' → False) →
      (∀ rest', c = '$' → rest = '\x7b' :: rest' → False) → place.Passes c rest := by
    intro place c rest hescape hopen _
    refine ⟨fun hc => ?_, fun hc hhead => ?_⟩
    · cases rest with
      | nil => rfl
      | cons d rest => exact (hescape d rest hc rfl).elim
    · obtain ⟨rest', rfl⟩ := List.head?_eq_some_iff.1 hhead
      exact hopen rest' hc rfl
  fun_induction templateFrom place text with
  | case1 place => exact nil place
  | case2 c rest ih => exact escape .outer c rest rfl ih
  | case3 c rest ih => exact escape .inner c rest rfl ih
  | case4 rest ih => exact hole .outer rest rfl ih
  | case5 rest ih => exact hole .inner rest rfl ih
  | case6 c rest hescape hopen hc =>
    obtain rfl : c = '\x60' := by simpa using hc
    exact close rest
  | case7 c rest hescape hopen hc ih =>
    exact pass .outer c rest (hpasses .outer c rest hescape hopen) (fun _ => by simpa using hc) ih
  | case8 c rest hescape hopen ih =>
    exact pass .inner c rest (hpasses .inner c rest hescape hopen) (by simp) ih
  | case9 c rest ih =>
    exact pass .hole c rest (by simp [Place.Passes, Place.isLiteral]) (by simp) ih
  | case10 c rest ih =>
    exact pass .innerHole c rest (by simp [Place.Passes, Place.isLiteral]) (by simp) ih

theorem templateFrom_pos (place : Place) {text : Text} (h : text ≠ []) :
    0 < templateFrom place text := by
  fun_cases templateFrom place text with
  | case1 => exact absurd rfl h
  | case2 | case3 | case4 | case5 | case6 | case7 | case8 | case9 | case10 => omega

theorem two_le_templateFrom {place : Place} {c : Char} {rest : Text}
    (hclose : place = .outer → c ≠ '\x60') (hne : rest ≠ []) :
    2 ≤ templateFrom place (c :: rest) := by
  have hpos := fun place => templateFrom_pos place hne
  by_cases hpass : place.Passes c rest
  · rw [templateFrom_pass hpass hclose]
    have := hpos (place.after c)
    omega
  · simp only [Place.Passes, not_forall, not_and_or, not_not] at hpass
    obtain ⟨hplace, ⟨rfl, _⟩ | ⟨rfl, hhead⟩⟩ := hpass
    · obtain ⟨d, rest, rfl⟩ := List.exists_cons_of_ne_nil hne
      rw [templateFrom_escape hplace]
      omega
    · obtain ⟨rest', rfl⟩ := List.head?_eq_some_iff.1 hhead
      rw [templateFrom_open hplace]
      omega

theorem templateFrom_append {rest rest' : Text} (hne : rest ≠ []) {place : Place} {text : Text}
    (hle : templateFrom place (text ++ rest) ≤ text.length) :
    templateFrom place (text ++ rest') = templateFrom place (text ++ rest) := by
  induction place, text using template_induction with
  | nil place =>
    have := templateFrom_pos place hne
    rw [List.nil_append, List.length_nil] at hle
    omega
  | escape place c tail hp ih =>
    simp only [List.cons_append, templateFrom_escape hp, List.length_cons] at hle ⊢
    rw [ih (by omega)]
  | hole place tail hp ih =>
    simp only [List.cons_append, templateFrom_open hp, List.length_cons] at hle ⊢
    rw [ih (by omega)]
  | close tail =>
    simp only [List.cons_append, templateFrom_close]
  | pass place c tail hpass hclose ih =>
    by_cases htail : tail = []
    · subst htail
      have := two_le_templateFrom hclose hne
      simp only [List.cons_append, List.nil_append, List.length_cons, List.length_nil] at hle
      omega
    · have hpass' : ∀ behind, place.Passes c (tail ++ behind) := by
        intro behind hp
        obtain ⟨hescape, hopen⟩ := hpass hp
        refine ⟨fun hc => absurd (hescape hc) htail, fun hc => ?_⟩
        rw [List.head?_append_of_ne_nil _ htail]
        exact hopen hc
      simp only [List.cons_append, templateFrom_pass (hpass' _) hclose, List.length_cons] at hle ⊢
      rw [ih (by omega)]

end Extent

namespace Opening

open Text

variable {language : Language}

theorem getD_endOfFirst_append {reading : Text → Option Nat} (h : Nearsighted reading)
    {text rest : Text} (rest' : Text)
    (hat : ∀ b n, isLineBreak b = true → reading (b :: rest) = some n → 1 < n)
    (hends : text.EndsLine) (hne : rest ≠ [])
    (hle : ((text ++ rest).endOfFirst reading).getD (text ++ rest).length ≤ text.length) :
    ((text ++ rest').endOfFirst reading).getD (text ++ rest').length =
      ((text ++ rest).endOfFirst reading).getD (text ++ rest).length := by
  cases hfirst : (text ++ rest).endOfFirst reading with
  | none =>
    have := List.length_pos_iff.2 hne
    rw [hfirst, Option.getD_none, List.length_append] at hle
    omega
  | some n =>
    rw [hfirst, Option.getD_some] at hle
    rw [h.endOfFirst_append hat text n hends hfirst hle]
    rfl

/-- A here-document that closes before a line ends does not see what stands behind it. -/
theorem heredoc_append {rule : Heredoc} (h : rule.Orderly) {delimiter : Text}
    (hunbroken : delimiter.Unbroken) (hleast : rule.shape.fewest ≤ delimiter.length)
    {text rest : Text} (rest' : Text) (hends : text.EndsLine) (hne : rest ≠ [])
    (hle : Extent.heredoc rule delimiter (text ++ rest) ≤ text.length) :
    Extent.heredoc rule delimiter (text ++ rest') =
      Extent.heredoc rule delimiter (text ++ rest) := by
  have hpos := List.length_pos_iff.2 h.stop.1
  refine getD_endOfFirst_append (Heredoc.nearsighted_closing? h hunbroken) rest' ?_ hends hne hle
  intro b n hb hn
  obtain ⟨hfront, hlength⟩ := Heredoc.closing?_length hn
  rcases h.stopHead with hstop | ⟨_, hone⟩
  · -- A closing without line breaks does not start with one.
    obtain ⟨c, stop, hcons⟩ := List.exists_cons_of_ne_nil h.stop.1
    rw [hcons] at hfront hstop
    obtain rfl := (List.cons_prefix_cons.1 hfront).1
    rw [(unbroken_cons.1 hstop).1] at hb
    simp at hb
  · omega

/-- **An extent does not see what stands behind the line it ends in.** -/
theorem extent_append (h : language.Orderly) {opening : Opening} (ho : language.Has opening)
    {text rest rest' : Text} (hends : text.EndsLine) (hrest : rest.EndsLine)
    (hcut : ¬ CutsPair text rest) (hcut' : ¬ CutsPair text rest')
    (hpairs : PairsToEnd (text ++ rest)) (hle : opening.extent (text ++ rest) ≤ text.length) :
    opening.extent (text ++ rest') = opening.extent (text ++ rest) := by
  cases opening with
  | blockComment opener closer =>
    obtain ⟨hopener, hcloser⟩ := h.blockComments _ ho
    have hreading := (nearsighted_literally hcloser).or (nearsighted_literally hopener)
    refine getD_endOfFirst_append hreading rest' ?_ hends hrest.ne_nil hle
    intro b n hb hn
    rw [literally_break hcloser hb, literally_break hopener hb] at hn
    simp at hn
  | longString delimiter =>
    have hsolid := h.longStrings _ ho
    refine getD_endOfFirst_append (nearsighted_literally hsolid) rest' ?_ hends hrest.ne_nil hle
    intro b n hb hn
    rw [literally_break hsolid hb] at hn
    simp at hn
  | heredoc rule opener delimiter =>
    obtain ⟨hrule, lineStart, source, hopen⟩ := ho
    obtain ⟨hunbroken, hleast⟩ := Heredoc.delimiter_of_opening? (h.heredocs _ hrule) hopen
    exact heredoc_append (h.heredocs _ hrule) hunbroken hleast rest' hends hrest.ne_nil hle
  | inlineComment marker => exact Extent.inlineComment_append hrest.ne_nil hcut hcut' hle
  | shortString quote =>
    obtain ⟨hsolid, hlength⟩ := h.shortStrings _ ho
    obtain ⟨q, rfl⟩ := List.length_eq_one_iff.1 hlength
    obtain ⟨hbreak, _, hescape⟩ := hsolid.2 q (List.mem_singleton_self q)
    have hended : text.Ended := Or.inr hends
    obtain ⟨n, hn⟩ := Extent.exists_firstClose? hescape hbreak hended hcut hrest hpairs hle
    simp only [extent, Extent.shortString_append_of_firstClose? hescape hbreak hended hcut hn,
      Extent.shortString_append_of_firstClose? hescape hbreak hended hcut' hn]
  | template => exact Extent.templateFrom_append hrest.ne_nil hle

end Opening

namespace Language

open Text

variable {language : Language} {lineStart : Bool} {text rest rest' : Text}

theorem token?_append (h : language.Orderly) (hends : text.EndsLine) (hrest : rest.EndsLine)
    (hcut : ¬ CutsPair text rest) (hcut' : ¬ CutsPair text rest')
    (hpairs : PairsToEnd (text ++ rest)) {token : Token}
    (ht : language.token? lineStart (text ++ rest) = some token)
    (hle : token.text.length ≤ text.length) :
    language.token? lineStart (text ++ rest') = some token := by
  have hhas := has_of_token? ht
  obtain ⟨behind, htext, ho, hbody⟩ := token?_eq_some_iff.1 ht
  rw [opening?_append_of_endsLine h hends] at ho
  obtain ⟨body, rfl, hbodyEnds⟩ := exists_append_of_opening? h hends ho
  obtain rfl : behind = body ++ rest := by simpa using htext.symm
  have hpos := List.length_pos_iff.2 hrest.ne_nil
  have hlength := congrArg List.length hbody
  rw [List.length_take, List.length_append] at hlength
  rw [Token.text, List.length_append, List.length_append] at hle
  have hextent : token.opening.extent (body ++ rest) ≤ body.length := by omega
  have hsame := Opening.extent_append h hhas hbodyEnds hrest (fun hc => hcut (hc.append_left _))
    (fun hc => hcut' (hc.append_left _)) (PairsToEnd.of_append (by rwa [← List.append_assoc]))
    hextent
  refine token?_eq_some_iff.2 ⟨body ++ rest', by simp, ?_, ?_⟩
  · rw [opening?_append_of_endsLine h hends, ho]
  · rw [hsame, hbody, List.take_append_of_le_length hextent, List.take_append_of_le_length hextent]

theorem lexeme?_append (h : language.Orderly) (hends : text.EndsLine) (hrest : rest.EndsLine)
    (hcut : ¬ CutsPair text rest) (hcut' : ¬ CutsPair text rest')
    (hpairs : PairsToEnd (text ++ rest)) {lexeme : Lexeme}
    (hl : language.lexeme? lineStart (text ++ rest) = some lexeme)
    (hle : lexeme.text.length ≤ text.length) :
    language.lexeme? lineStart (text ++ rest') = some lexeme := by
  cases lexeme with
  | token token =>
    exact lexeme?_token.2 (token?_append h hends hrest hcut hcut' hpairs (lexeme?_token.1 hl) hle)
  | plain c =>
    obtain ⟨d, text, rfl⟩ := List.exists_cons_of_ne_nil hends.ne_nil
    obtain rfl : c = d := by
      have hfront := (lexeme?_isPrefix hl).2
      rw [Lexeme.text, List.cons_append] at hfront
      exact (List.cons_prefix_cons.1 hfront).1
    have hnone : language.token? lineStart (c :: text ++ rest) = none := lexeme?_plain.1 hl
    have hsame : language.token? lineStart (c :: text ++ rest') = none := by
      rw [token?, Option.map_eq_none_iff, opening?_append_of_endsLine h hends] at hnone ⊢
      exact hnone
    exact lexeme?_plain.2 hsame

/-- **A scan up to a border does not depend on what stands behind the line** that the border is
in. -/
theorem lexemes_append_of_border (h : language.Orderly) (hrest : rest.EndsLine) (rest' : Text) :
    ∀ (before after : List Lexeme) (lineStart : Bool) (tail : Text),
      Ended (before.flatMap Lexeme.text ++ tail) →
      ¬ CutsPair (before.flatMap Lexeme.text ++ tail) rest →
      ¬ CutsPair (before.flatMap Lexeme.text ++ tail) rest' →
      PairsToEnd (before.flatMap Lexeme.text ++ tail ++ rest) →
      language.lexemes lineStart (before.flatMap Lexeme.text ++ tail ++ rest) = before ++ after →
      language.lexemes lineStart (before.flatMap Lexeme.text ++ tail ++ rest') =
        before ++ language.lexemes (lineStartAfter lineStart (before.flatMap Lexeme.text))
          (tail ++ rest') := by
  intro before after
  induction before with
  | nil =>
    intro lineStart tail _ _ _ _ _
    rfl
  | cons first before ih =>
    intro lineStart tail hended hcut hcut' hpairs hscan
    have hassoc : (first :: before).flatMap Lexeme.text ++ tail =
        first.text ++ (before.flatMap Lexeme.text ++ tail) := by simp
    rw [hassoc] at hended hcut hcut' hpairs hscan ⊢
    have hne : first.text ++ (before.flatMap Lexeme.text ++ tail) ++ rest ≠ [] := by
      simp [hrest.ne_nil]
    obtain ⟨lexeme, behind, htext, hl⟩ := exists_lexeme? language lineStart hne
    rw [htext, lexemes_append hl, List.cons_append, List.cons.injEq] at hscan
    obtain ⟨rfl, hscan⟩ := hscan
    rw [← htext] at hl
    obtain rfl : before.flatMap Lexeme.text ++ tail ++ rest = behind := by
      simpa [List.append_assoc] using htext
    have hfirst := (lexeme?_isPrefix hl).1
    have hends : EndsLine (lexeme.text ++ (before.flatMap Lexeme.text ++ tail)) := by
      refine hended.resolve_left ?_
      simp [hfirst]
    have hl' : language.lexeme? lineStart
        (lexeme.text ++ (before.flatMap Lexeme.text ++ tail) ++ rest') = some lexeme :=
      lexeme?_append h hends hrest hcut hcut' hpairs hl (by simp)
    rw [List.append_assoc] at hl' hpairs ⊢
    rw [lexemes_append hl', ih _ _ hended.of_append (fun hc => hcut (hc.append_left _))
      (fun hc => hcut' (hc.append_left _)) hpairs.of_append hscan, List.flatMap_cons,
      lineStartAfter_append]
    rfl

end Language

end Literate
