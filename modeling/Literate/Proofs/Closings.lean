import Literate.Proofs.Extents

/-!
# How tokens end

A token that does not run to the end of the text ends with what closes it: a quote, a delimiter, a
backtick, a closing token or a line break.  None of these ends with a blank, so a token that ends
with a blank is a here-document, whose delimiter its author chose (`heredoc_of_isBlank`).
-/

namespace Literate

namespace Text

/-- **Where a search ended, its reading applied**, and it applied nowhere before. -/
theorem exists_first_of_endOfFirst {reading : Text → Option Nat} :
    ∀ (text : Text) (n : Nat), text.endOfFirst reading = some n →
      ∃ front back m, text = front ++ back ∧ reading back = some m ∧ n = front.length + m ∧
        ∀ before behind, text = before ++ behind → before.length < front.length →
          reading behind = none := by
  intro text
  induction text with
  | nil =>
    intro n h
    rw [endOfFirst_nil] at h
    exact ⟨[], [], n, rfl, h, by simp, by simp⟩
  | cons c text ih =>
    intro n h
    rw [endOfFirst_cons, Option.or_eq_some_iff] at h
    rcases h with h | ⟨hnone, h⟩
    · exact ⟨[], c :: text, n, rfl, h, by simp, by simp⟩
    · obtain ⟨m, hm, rfl⟩ := Option.map_eq_some_iff.1 h
      obtain ⟨front, back, k, rfl, hk, rfl, hfirst⟩ := ih m hm
      refine ⟨c :: front, back, k, rfl, hk, by rw [List.length_cons]; omega, ?_⟩
      intro before behind hsplit hlt
      cases before with
      | nil =>
        rw [List.nil_append] at hsplit
        rwa [← hsplit]
      | cons d before =>
        refine hfirst before behind (List.cons.inj hsplit).2 ?_
        simpa using hlt

theorem exists_of_endOfFirst {reading : Text → Option Nat} (text : Text) (n : Nat)
    (h : text.endOfFirst reading = some n) :
    ∃ front back m, text = front ++ back ∧ reading back = some m ∧ n = front.length + m := by
  obtain ⟨front, back, m, htext, hm, hn, _⟩ := exists_first_of_endOfFirst text n h
  exact ⟨front, back, m, htext, hm, hn⟩

theorem eq_none_of_endOfFirst {reading : Text → Option Nat} {text : Text}
    (h : text.endOfFirst reading = none) :
    ∀ before behind, text = before ++ behind → reading behind = none := by
  intro before
  induction before generalizing text with
  | nil =>
    intro behind hsplit
    rw [hsplit, List.nil_append] at h
    cases behind with
    | nil => rwa [endOfFirst_nil] at h
    | cons c behind =>
      rw [endOfFirst_cons, Option.or_eq_none_iff] at h
      exact h.1
  | cons c before ih =>
    rintro behind rfl
    rw [List.cons_append, endOfFirst_cons, Option.or_eq_none_iff, Option.map_eq_none_iff] at h
    exact ih h.2 behind rfl

theorem take_eq_of_literally {token front back : Text} {m : Nat}
    (h : literally token back = some m) :
    (front ++ back).take (front.length + m) = front ++ token := by
  rw [literally, Option.ite_none_right_eq_some] at h
  obtain ⟨hfront, rfl⟩ : _ ∧ token.length = m := ⟨h.1, Option.some.inj h.2⟩
  obtain ⟨rest, rfl⟩ := List.isPrefixOf_iff_prefix.1 hfront
  rw [List.take_length_add_append, List.take_left]

theorem getLast?_take_append (front : Text) {rest : Text} {m : Nat} {c : Char}
    (h : (rest.take m).getLast? = some c) :
    ((front ++ rest).take (front.length + m)).getLast? = some c := by
  rw [List.take_length_add_append, List.getLast?_append, h]
  rfl

/-- A search for solid tokens ends with a character of one of them. -/
theorem exists_solid_of_endOfFirst {reading : Text → Option Nat}
    (hreading : ∀ rest m, reading rest = some m → ∃ token : Text, token.Solid ∧
      literally token rest = some m)
    {text : Text} (hlt : (text.endOfFirst reading).getD text.length < text.length) {c : Char}
    (hlast : (text.take ((text.endOfFirst reading).getD text.length)).getLast? = some c) :
    ∃ token : Text, token.Solid ∧ c ∈ token := by
  cases hfirst : text.endOfFirst reading with
  | none =>
    rw [hfirst, Option.getD_none] at hlt
    omega
  | some n =>
    obtain ⟨front, back, m, rfl, hread, rfl⟩ := exists_of_endOfFirst text n hfirst
    obtain ⟨token, hsolid, hliteral⟩ := hreading back m hread
    rw [hfirst, Option.getD_some, take_eq_of_literally hliteral,
      List.getLast?_append_of_ne_nil _ hsolid.1] at hlast
    exact ⟨token, hsolid, List.mem_of_getLast? hlast⟩

theorem not_isBlank_of_endOfFirst {reading : Text → Option Nat}
    (hreading : ∀ rest m, reading rest = some m → ∃ token : Text, token.Solid ∧
      literally token rest = some m)
    {text : Text} (hlt : (text.endOfFirst reading).getD text.length < text.length) {c : Char}
    (hlast : (text.take ((text.endOfFirst reading).getD text.length)).getLast? = some c) :
    Literate.isBlank c = false := by
  obtain ⟨token, hsolid, hc⟩ := exists_solid_of_endOfFirst hreading hlt hlast
  exact (hsolid.2 c hc).2.1

end Text

namespace Extent

open Text

variable {q : Char}

theorem getLast?_take_firstClose? {text : Text} {n : Nat} (h : firstClose? q text = some n) :
    ∃ c, (text.take n).getLast? = some c ∧ (c = q ∨ isLineBreak c = true) := by
  fun_induction firstClose? q text generalizing n with
  | case1 => simp at h
  | case2 rest ih =>
    obtain ⟨m, hm, rfl⟩ := Option.map_eq_some_iff.1 h
    obtain ⟨c, hlast, hc⟩ := ih hm
    exact ⟨c, getLast?_take_append ['\\', '\r', '\n'] hlast, hc⟩
  | case3 d rest hpair ih =>
    obtain ⟨m, hm, rfl⟩ := Option.map_eq_some_iff.1 h
    obtain ⟨c, hlast, hc⟩ := ih hm
    exact ⟨c, getLast?_take_append ['\\', d] hlast, hc⟩
  | case4 rest =>
    obtain rfl := Option.some.inj h
    exact ⟨'\n', rfl, Or.inr rfl⟩
  | case5 d rest hpair hescaped hcrlf hd =>
    obtain rfl := Option.some.inj h
    exact ⟨d, rfl, by simpa using hd⟩
  | case6 d rest hpair hescaped hcrlf hd ih =>
    obtain ⟨m, hm, rfl⟩ := Option.map_eq_some_iff.1 h
    obtain ⟨c, hlast, hc⟩ := ih hm
    exact ⟨c, getLast?_take_append [d] hlast, hc⟩

theorem getLast?_take_lastEscapedPair? {text : Text} {n : Nat}
    (h : lastEscapedPair? text = some n) : (text.take n).getLast? = some '\n' := by
  fun_induction lastEscapedPair? text generalizing n with
  | case1 => simp at h
  | case2 rest ih =>
    cases hrest : lastEscapedPair? rest with
    | none =>
      rw [hrest] at h
      obtain rfl : 3 = n := by simpa using h
      rfl
    | some m =>
      rw [hrest] at h
      obtain rfl : 3 + m = n := by simpa using h
      exact getLast?_take_append ['\\', '\r', '\n'] (ih hrest)
  | case3 d rest hpair ih =>
    obtain ⟨m, hm, rfl⟩ := Option.map_eq_some_iff.1 h
    exact getLast?_take_append ['\\', d] (ih hm)
  | case4 d rest hpair hescaped ih =>
    obtain ⟨m, hm, rfl⟩ := Option.map_eq_some_iff.1 h
    exact getLast?_take_append [d] (ih hm)

theorem getLast?_take_templateFrom {place : Place} {text : Text}
    (h : templateFrom place text < text.length) :
    (text.take (templateFrom place text)).getLast? = some '\x60' := by
  induction place, text using template_induction with
  | nil place => simp at h
  | escape place c rest hp ih =>
    rw [templateFrom_escape hp] at h ⊢
    simp only [List.length_cons] at h
    exact getLast?_take_append ['\\', c] (ih (by omega))
  | hole place rest hp ih =>
    rw [templateFrom_open hp] at h ⊢
    simp only [List.length_cons] at h
    exact getLast?_take_append ['$', '\x7b'] (ih (by omega))
  | close rest =>
    rw [templateFrom_close]
    rfl
  | pass place c rest hpass hclose ih =>
    rw [templateFrom_pass hpass hclose] at h ⊢
    simp only [List.length_cons] at h
    exact getLast?_take_append [c] (ih (by omega))

end Extent

namespace Language

open Text

variable {language : Language} {lineStart : Bool}

theorem not_isBlank_of_extent_lt (h : language.Orderly) {opening : Opening}
    (ho : language.Has opening)
    (hheredoc : ∀ rule opener delimiter, opening ≠ .heredoc rule opener delimiter) {text : Text}
    (hlt : opening.extent text < text.length) {c : Char}
    (hlast : (text.take (opening.extent text)).getLast? = some c) : isBlank c = false := by
  cases opening with
  | heredoc rule opener delimiter => exact absurd rfl (hheredoc rule opener delimiter)
  | blockComment opener closer =>
    obtain ⟨hopener, hcloser⟩ := h.blockComments _ ho
    refine not_isBlank_of_endOfFirst (fun rest m hread => ?_) hlt hlast
    rcases Option.or_eq_some_iff.1 hread with hread | ⟨_, hread⟩
    · exact ⟨closer, hcloser, hread⟩
    · exact ⟨opener, hopener, hread⟩
  | longString delimiter =>
    exact not_isBlank_of_endOfFirst (fun _ _ hread => ⟨delimiter, h.longStrings _ ho, hread⟩) hlt
      hlast
  | inlineComment marker =>
    obtain ⟨d, hd, hbreak⟩ := Extent.endsLine_take_inlineComment hlt
    simp only [Opening.extent] at hlast
    obtain rfl := Option.some.inj (hd.symm.trans hlast)
    exact not_isBlank_of_isLineBreak hbreak
  | shortString quote =>
    obtain ⟨hsolid, hlength⟩ := h.shortStrings _ ho
    obtain ⟨q, rfl⟩ := List.length_eq_one_iff.1 hlength
    obtain ⟨hbreak, hblank, hescape⟩ := hsolid.2 q (List.mem_singleton_self q)
    simp only [Opening.extent, Extent.shortString_eq hescape hbreak] at hlt hlast
    cases hclose : Extent.firstClose? q text with
    | some n =>
      rw [hclose, Option.some_or, Option.getD_some] at hlast
      obtain ⟨d, hd, hd'⟩ := Extent.getLast?_take_firstClose? hclose
      obtain rfl := Option.some.inj (hd.symm.trans hlast)
      rcases hd' with rfl | hd'
      · exact hblank
      · exact not_isBlank_of_isLineBreak hd'
    | none =>
      cases hescaped : Extent.lastEscapedPair? text with
      | none => simp [hclose, hescaped] at hlt
      | some n =>
        rw [hclose, hescaped, Option.none_or, Option.getD_some,
          Extent.getLast?_take_lastEscapedPair? hescaped] at hlast
        obtain rfl := Option.some.inj hlast
        rfl
  | template =>
    simp only [Opening.extent, Extent.template] at hlt hlast
    rw [Extent.getLast?_take_templateFrom hlt] at hlast
    obtain rfl := Option.some.inj hlast
    decide

/-- **A token that ends with a blank is a here-document**, if anything follows it. -/
theorem heredoc_of_isBlank (h : language.Orderly) {token : Token} {rest : Text} {c : Char}
    (ht : language.token? lineStart (token.text ++ rest) = some token) (hrest : rest ≠ [])
    (hlast : token.body.getLast? = some c) (hc : isBlank c = true) :
    ∃ rule opener delimiter, token.opening = .heredoc rule opener delimiter := by
  by_contra hnot
  have hheredoc : ∀ rule opener delimiter, token.opening ≠ .heredoc rule opener delimiter :=
    fun rule opener delimiter heq => hnot ⟨rule, opener, delimiter, heq⟩
  have hextent := extent_of_token? hrest ht
  have hlt : token.opening.extent (token.body ++ rest) < (token.body ++ rest).length := by
    have hpos := List.length_pos_iff.2 hrest
    rw [hextent, List.length_append]
    omega
  rw [(token?_text_append_iff.1 ht).2] at hlast
  have := not_isBlank_of_extent_lt h (has_of_token? ht) hheredoc hlt hlast
  rw [hc] at this
  simp at this

end Language

end Literate
