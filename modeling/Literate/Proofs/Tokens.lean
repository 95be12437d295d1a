import Literate.Language.Table
import Literate.Proofs.Forms
import Literate.Proofs.Scan

/-!
# The tokens of a language

What a scan finds are openings that its language has (`Has`), and what the languages of the table
have is orderly (`Orderly`): no token of theirs has a line break, a blank or a backslash in it, the
closing of a here-document apart, which may start with a line break.  All that later modules say of
the table rests on this alone, and not on which languages there are.
-/

namespace Literate

/-- A token with characters, none of which is a line break, a blank or a backslash. -/
def Text.Solid (token : Text) : Prop :=
  token ≠ [] ∧ ∀ c ∈ token, isLineBreak c = false ∧ Literate.isBlank c = false ∧ c ≠ '\\'

instance (token : Text) : Decidable token.Solid :=
  have : Decidable (∀ c ∈ token, isLineBreak c = false ∧ Literate.isBlank c = false ∧ c ≠ '\\') :=
    List.decidableBAll _ token
  inferInstanceAs (Decidable (_ ∧ _))

theorem Text.Solid.unbroken {token : Text} (h : token.Solid) : token.Unbroken :=
  fun c hc => (h.2 c hc).1

theorem Text.Solid.exists_cons {token : Text} (h : token.Solid) :
    ∃ c rest, token = c :: rest ∧ isLineBreak c = false ∧ Literate.isBlank c = false ∧
      c ≠ '\\' := by
  cases token with
  | nil => exact absurd rfl h.1
  | cons c rest => exact ⟨c, rest, rfl, h.2 c (List.mem_cons_self ..)⟩

namespace Heredoc

/-- No part of the rule has a line break, but for the first character of a closing, which may be a
line feed if a delimiter has to follow.  The lead is one character at most. -/
structure Orderly (rule : Heredoc) : Prop where
  lead : rule.lead.isUnbroken = true ∧ rule.lead.isWithin 1 = true
  start : rule.start.Solid
  shape : rule.shape.isUnbroken = true
  startEnd : rule.startEnd.Unbroken
  stop : rule.stop ≠ [] ∧ Text.Unbroken (rule.stop.drop 1)
  stopIndent : rule.stopIndent.Unbroken
  stopEnd : rule.stopEnd.Unbroken
  stopHead : rule.stop.Unbroken ∨ rule.stop.head? = some '\n' ∧ 1 ≤ rule.shape.fewest

end Heredoc

namespace Language

variable {language : Language} {lineStart : Bool}

def Has (language : Language) : Opening → Prop
  | .blockComment opener closer => (opener, closer) ∈ language.blockComments
  | .longString delimiter => delimiter ∈ language.longStrings
  | .heredoc rule opener delimiter =>
    rule ∈ language.heredocs ∧
      ∃ lineStart text, rule.opening? lineStart text = some (opener, delimiter)
  | .inlineComment marker => marker ∈ language.inlineComments
  | .shortString quote => quote ∈ language.shortStrings
  | .template => language.templates = true

/-- **What a scan finds, the language has.** -/
theorem has_of_opening? {text : Text} {opening : Opening}
    (h : language.opening? lineStart text = some opening) : language.Has opening := by
  simp only [opening?, Option.or_eq_some_iff] at h
  rcases h with h | ⟨_, h | ⟨_, h | ⟨_, h | ⟨_, h | ⟨_, h⟩⟩⟩⟩⟩
  · obtain ⟨⟨o, c⟩, hp, rfl⟩ := Option.map_eq_some_iff.1 h
    exact List.mem_of_find?_eq_some hp
  · obtain ⟨d, hp, rfl⟩ := Option.map_eq_some_iff.1 h
    exact List.mem_of_find?_eq_some hp
  · obtain ⟨rule, hrule, h⟩ := List.exists_of_findSome?_eq_some h
    obtain ⟨⟨o, d⟩, hp, rfl⟩ := Option.map_eq_some_iff.1 h
    exact ⟨hrule, lineStart, text, hp⟩
  · obtain ⟨m, hp, rfl⟩ := Option.map_eq_some_iff.1 h
    exact List.mem_of_find?_eq_some hp
  · obtain ⟨q, hp, rfl⟩ := Option.map_eq_some_iff.1 h
    exact List.mem_of_find?_eq_some hp
  · unfold templateOpening? at h
    split at h
    · next ht =>
      obtain rfl := Option.some.inj h
      simp only [Bool.and_eq_true] at ht
      exact ht.1
    · simp at h

/-- **A token is what its opening takes of the text.** -/
theorem token?_eq_some_iff {text : Text} {token : Token} :
    language.token? lineStart text = some token ↔
      ∃ rest, text = token.opening.text ++ rest ∧
        language.opening? lineStart text = some token.opening ∧
        token.body = rest.take (token.opening.extent rest) := by
  constructor
  · intro h
    obtain ⟨opening, ho, rfl⟩ := Option.map_eq_some_iff.1 h
    obtain ⟨rest, rfl⟩ := (opening?_isPrefix ho).2
    exact ⟨rest, rfl, ho, by simp⟩
  · rintro ⟨rest, rfl, ho, hbody⟩
    obtain ⟨opening, body⟩ := token
    simp only at ho hbody
    subst hbody
    rw [token?, ho]
    simp

theorem token?_text_append_iff {token : Token} {behind : Text} :
    language.token? lineStart (token.text ++ behind) = some token ↔
      language.opening? lineStart (token.text ++ behind) = some token.opening ∧
        token.body = (token.body ++ behind).take (token.opening.extent (token.body ++ behind)) := by
  rw [token?_eq_some_iff]
  constructor
  · rintro ⟨rest, htext, ho, hbody⟩
    rw [Token.text, List.append_assoc] at htext
    obtain rfl := List.append_cancel_left htext
    exact ⟨ho, hbody⟩
  · rintro ⟨ho, hbody⟩
    exact ⟨token.body ++ behind, by rw [Token.text, List.append_assoc], ho, hbody⟩

theorem extent_of_token? {token : Token} {behind : Text} (hne : behind ≠ [])
    (h : language.token? lineStart (token.text ++ behind) = some token) :
    token.opening.extent (token.body ++ behind) = token.body.length := by
  have hlength := congrArg List.length (token?_text_append_iff.1 h).2
  have hpos := List.length_pos_iff.2 hne
  rw [List.length_take, List.length_append] at hlength
  omega

theorem has_of_token? {text : Text} {token : Token}
    (h : language.token? lineStart text = some token) : language.Has token.opening := by
  obtain ⟨rest, _, ho, _⟩ := token?_eq_some_iff.1 h
  exact has_of_opening? ho

/-! ### The table -/

/-- The tokens of the language are solid, its short strings have quotes of one character, and its
rules for here-documents are orderly. -/
structure Orderly (language : Language) : Prop where
  inlineComments : ∀ marker ∈ language.inlineComments, marker.Solid
  blockComments : ∀ pair ∈ language.blockComments, pair.1.Solid ∧ pair.2.Solid
  longStrings : ∀ delimiter ∈ language.longStrings, delimiter.Solid
  shortStrings : ∀ quote ∈ language.shortStrings, quote.Solid ∧ quote.length = 1
  heredocs : ∀ rule ∈ language.heredocs, rule.Orderly

theorem orderly_heredocs_of_mem_table (h : language ∈ table) :
    ∀ rule ∈ language.heredocs, rule.Orderly := by
  have hparts : ∀ language ∈ table, ∀ rule ∈ language.heredocs,
      (rule.lead.isUnbroken = true ∧ rule.lead.isWithin 1 = true) ∧ rule.start.Solid ∧
      rule.shape.isUnbroken = true ∧ rule.startEnd.Unbroken ∧
      (rule.stop ≠ [] ∧ Text.Unbroken (rule.stop.drop 1)) ∧ rule.stopIndent.Unbroken ∧
      rule.stopEnd.Unbroken ∧
      (rule.stop.Unbroken ∨ rule.stop.head? = some '\n' ∧ 1 ≤ rule.shape.fewest) := by decide
  intro rule hrule
  obtain ⟨hlead, hstart, hshape, hstartEnd, hstop, hindent, hstopEnd, hhead⟩ :=
    hparts language h rule hrule
  exact ⟨hlead, hstart, hshape, hstartEnd, hstop, hindent, hstopEnd, hhead⟩

/-- **Every language of the table is orderly.** -/
theorem orderly_of_mem_table (h : language ∈ table) : language.Orderly where
  inlineComments :=
    (by decide : ∀ language ∈ table, ∀ marker ∈ language.inlineComments, marker.Solid) language h
  blockComments :=
    (by decide : ∀ language ∈ table, ∀ pair ∈ language.blockComments,
      pair.1.Solid ∧ pair.2.Solid) language h
  longStrings :=
    (by decide : ∀ language ∈ table, ∀ token ∈ language.longStrings, token.Solid) language h
  shortStrings :=
    (by decide : ∀ language ∈ table, ∀ quote ∈ language.shortStrings,
      quote.Solid ∧ quote.length = 1) language h
  heredocs := orderly_heredocs_of_mem_table h

/-- A language of the table has at most one marker, and writes documentation with it. -/
theorem eq_saveMarker_of_mem_table (h : language ∈ table) {marker : Text}
    (hm : marker ∈ language.inlineComments) : language.saveMarker? = some marker := by
  exact (by decide : ∀ language ∈ table, ∀ marker ∈ language.inlineComments,
    language.saveMarker? = some marker) language h marker hm

end Language

namespace Extent

theorem endsLine_take_inlineComment {afterBackslash : Bool} {text : Text}
    (h : inlineComment afterBackslash text < text.length) :
    Text.EndsLine (text.take (inlineComment afterBackslash text)) := by
  fun_induction inlineComment afterBackslash text with
  | case1 => simp at h
  | case2 rest ih =>
    rw [Nat.add_comm, List.take_succ_cons, List.take_succ_cons]
    simp only [List.length_cons] at h
    exact ((ih (by omega)).cons '\n').cons '\r'
  | case3 rest => exact ⟨'\n', rfl, rfl⟩
  | case4 c rest _ hbreak ih =>
    rw [Nat.add_comm, List.take_succ_cons]
    simp only [List.length_cons] at h
    exact (ih (by omega)).cons c
  | case5 _ c rest _ hbreak _ => exact ⟨c, rfl, hbreak⟩
  | case6 afterBackslash c rest _ hbreak ih =>
    rw [Nat.add_comm, List.take_succ_cons]
    simp only [List.length_cons] at h
    exact (ih (by omega)).cons c

theorem inlineComment_pos (afterBackslash : Bool) {text : Text} (h : text ≠ []) :
    0 < inlineComment afterBackslash text := by
  fun_cases inlineComment afterBackslash text with
  | case1 => exact absurd rfl h
  | case2 | case3 | case4 | case5 | case6 => omega

theorem not_cutsPair_inlineComment (afterBackslash : Bool) (text : Text) :
    ¬ Text.CutsPair (text.take (inlineComment afterBackslash text))
      (text.drop (inlineComment afterBackslash text)) := by
  have hnil : ∀ (afterBackslash : Bool) (rest : Text),
      rest.take (inlineComment afterBackslash rest) = [] →
      rest.drop (inlineComment afterBackslash rest) = [] := by
    intro afterBackslash rest h
    have hrest : rest = [] := by
      by_contra hne
      have := inlineComment_pos afterBackslash hne
      rcases List.take_eq_nil_iff.1 h with h | h
      · omega
      · exact hne h
    rw [hrest, List.drop_nil]
  fun_induction inlineComment afterBackslash text with
  | case1 => simp [Text.CutsPair]
  | case2 rest ih =>
    rw [Nat.add_comm, List.take_succ_cons, List.take_succ_cons, List.drop_succ_cons,
      List.drop_succ_cons]
    exact Text.not_cutsPair_cons (Text.not_cutsPair_cons ih '\n' (hnil false rest)) '\r' (by simp)
  | case3 rest => simp [Text.CutsPair]
  | case4 c rest _ hbreak ih =>
    rw [Nat.add_comm, List.take_succ_cons, List.drop_succ_cons]
    exact Text.not_cutsPair_cons ih c (hnil false rest)
  | case5 _ c rest hpair hbreak _ =>
    rintro ⟨hc, hrest⟩
    simp only [List.take_succ_cons, List.take_zero, List.getLast?_singleton,
      Option.some.injEq] at hc
    obtain ⟨rest', hrest'⟩ := List.head?_eq_some_iff.1 hrest
    exact hpair rest' hc (by simpa using hrest')
  | case6 afterBackslash c rest _ hbreak ih =>
    rw [Nat.add_comm, List.take_succ_cons, List.drop_succ_cons]
    exact Text.not_cutsPair_cons ih c (hnil _ rest)

end Extent

end Literate
