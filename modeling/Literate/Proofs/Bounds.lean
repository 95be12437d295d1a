import Literate.Proofs.Closings

/-!
# No token reaches past its text

What closes a token is read from the text, and where nothing closes it the token takes all there is.
So the extent of a token is at most the length of the text behind its opening,

  `opening.extent text ≤ text.length`,

in every language, also in one whose tokens are empty, have line breaks in them or start with one
another.  The body of a token is therefore never cut short.
-/

namespace Literate

namespace Text

theorem getD_endOfFirst_le {reading : Text → Option Nat}
    (h : ∀ text n, reading text = some n → n ≤ text.length) (text : Text) :
    (text.endOfFirst reading).getD text.length ≤ text.length := by
  cases hfirst : text.endOfFirst reading with
  | none => exact Nat.le_refl _
  | some n =>
    obtain ⟨front, back, m, rfl, hm, rfl⟩ := exists_of_endOfFirst text n hfirst
    have := h back m hm
    rw [Option.getD_some, List.length_append]
    omega

end Text

namespace Extent

open Text

theorem inlineComment_le (afterBackslash : Bool) (text : Text) :
    inlineComment afterBackslash text ≤ text.length := by
  fun_induction inlineComment afterBackslash text with
  | case1 => exact Nat.le_refl _
  | case2 rest ih =>
    simp only [List.length_cons]
    omega
  | case3 | case5 => simp
  | case4 c rest _ _ ih =>
    simp only [List.length_cons]
    omega
  | case6 _ c rest _ _ ih =>
    simp only [List.length_cons]
    omega

theorem templateFrom_le (place : Place) (text : Text) : templateFrom place text ≤ text.length := by
  induction place, text using template_induction with
  | nil place => exact Nat.le_of_eq (templateFrom.eq_1 place)
  | escape place c rest hp ih =>
    rw [templateFrom_escape hp]
    simp only [List.length_cons]
    omega
  | hole place rest hp ih =>
    rw [templateFrom_open hp]
    simp only [List.length_cons]
    omega
  | close rest =>
    rw [templateFrom_close]
    simp
  | pass place c rest hpass hclose ih =>
    rw [templateFrom_pass hpass hclose]
    simp only [List.length_cons]
    omega

theorem shortStringClose?_le {quote text : Text} {n : Nat}
    (h : shortStringClose? quote text = some n) : n ≤ text.length := by
  unfold shortStringClose? at h
  rcases Option.or_eq_some_iff.1 h with h | ⟨_, h⟩
  · exact literally_le h
  · split at h
    · obtain rfl := Option.some.inj h
      simp
    · obtain rfl := Option.some.inj h
      simp
    · obtain rfl := Option.some.inj h
      simp
    · simp at h

theorem shortString?_le {quote text : Text} {n : Nat} (h : shortString? quote text = some n) :
    n ≤ text.length := by
  fun_induction shortString? quote text generalizing n with
  | case1 => simp at h
  | case2 rest ih =>
    simp only [List.length_cons]
    rcases Option.or_eq_some_iff.1 h with h | ⟨_, h⟩
    · obtain ⟨m, hm, rfl⟩ := Option.map_eq_some_iff.1 h
      have := ih hm
      omega
    · obtain ⟨m, hm, rfl⟩ := Option.map_eq_some_iff.1 h
      have := shortStringClose?_le hm
      rw [List.length_cons] at this
      omega
  | case3 c rest hpair ih =>
    rcases Option.or_eq_some_iff.1 h with h | ⟨_, h⟩
    · obtain ⟨m, hm, rfl⟩ := Option.map_eq_some_iff.1 h
      have := ih hm
      simp only [List.length_cons]
      omega
    · exact shortStringClose?_le h
  | case4 c rest hpair hescape ih =>
    rcases Option.or_eq_some_iff.1 h with h | ⟨_, h⟩
    · obtain ⟨_, h⟩ := Option.ite_none_left_eq_some.1 h
      obtain ⟨m, hm, rfl⟩ := Option.map_eq_some_iff.1 h
      have := ih hm
      rw [List.length_cons]
      omega
    · exact shortStringClose?_le h

end Extent

/-- **No token reaches past its text**, whatever its opening is. -/
theorem Opening.extent_le (opening : Opening) (text : Text) :
    opening.extent text ≤ text.length := by
  cases opening with
  | blockComment opener closer =>
    refine Text.getD_endOfFirst_le ?_ text
    intro rest n hread
    rcases Option.or_eq_some_iff.1 hread with hread | ⟨_, hread⟩
    · exact Text.literally_le hread
    · exact Text.literally_le hread
  | longString delimiter => exact Text.getD_endOfFirst_le (fun _ _ => Text.literally_le) text
  | heredoc rule opener delimiter =>
    exact Text.getD_endOfFirst_le (fun _ _ => Heredoc.closing?_le) text
  | inlineComment marker => exact Extent.inlineComment_le ..
  | shortString quote =>
    show (Extent.shortString? quote text).getD text.length ≤ text.length
    cases hclose : Extent.shortString? quote text with
    | none => exact Nat.le_refl _
    | some n => exact Extent.shortString?_le hclose
  | template => exact Extent.templateFrom_le ..

namespace Language

theorem extent_eq_length_of_token? {language : Language} {lineStart : Bool} {token : Token}
    {behind : Text} (ht : language.token? lineStart (token.text ++ behind) = some token) :
    token.opening.extent (token.body ++ behind) = token.body.length := by
  have hbody := congrArg List.length (token?_text_append_iff.1 ht).2
  have hle := token.opening.extent_le (token.body ++ behind)
  rw [List.length_take] at hbody
  omega

end Language

end Literate
