import Literate.Proofs.Layout
import Literate.Proofs.Tokens
import Mathlib.Data.List.Chain

/-!
# Neighbouring blocks

Which blocks a text can be classified into, and which of them can stand next to one another.  Every
block is made of what its language has (`Block.OfLanguage`), and of two neighbours the first ends
where the second may start (`Block.Precedes`): code stands before inline documentation only if it
ends its line, and inline documentation stands before anything only if it ends its line, with the
whole of the terminator.
-/

namespace Literate

namespace Block

/-- The block is made of the tokens of the language. -/
def OfLanguage (language : Language) : Block → Prop
  | code text => text ≠ []
  | inlineDoc indent marker spaced text =>
    indent.isBlank = true ∧ marker ∈ language.inlineComments ∧
      (spaced = false → text = [] ∨ text.isTerminator = true)
  | blockDoc marker text =>
    (∃ closer, (marker, closer) ∈ language.blockComments) ∧ marker <+: text

/-- The second block may stand right behind the first. -/
def Precedes : Block → Block → Prop
  | code _, code _ => False
  | code text, inlineDoc _ _ _ _ => text.EndsLine
  | code _, blockDoc _ _ => True
  | inlineDoc _ _ _ text, next => text.EndsLine ∧ ¬ text.CutsPair next.source
  | blockDoc _ _, _ => True

theorem isTerminator_iff {text : Text} :
    text.isTerminator = true ↔ ∃ ending : LineEnding, text = ending.text := by
  unfold Text.isTerminator LineEnding.ofText?
  constructor
  · intro h
    split at h
    · exact ⟨.lf, rfl⟩
    · exact ⟨.crlf, rfl⟩
    · exact ⟨.cr, rfl⟩
    · simp at h
  · rintro ⟨ending, rfl⟩
    cases ending <;> rfl

end Block

namespace Language

open Draft

variable {language : Language} {lineStart fresh : Bool}

theorem inlineComment_of_token? {marker body rest : Text}
    (h : language.token? lineStart (marker ++ body ++ rest) = some ⟨.inlineComment marker, body⟩) :
    (rest ≠ [] → body.EndsLine) ∧ ¬ body.CutsPair rest := by
  obtain ⟨rest', htext, _, hbody⟩ := token?_eq_some_iff.1 h
  have hrest : rest' = body ++ rest := by
    simpa [Opening.text] using htext.symm
  subst hrest
  simp only [Opening.extent] at hbody
  generalize hb : (marker.getLast? == some '\\') = afterBackslash at hbody
  have hlen : body.length = min (Extent.inlineComment afterBackslash (body ++ rest))
      (body ++ rest).length := by
    rw [← List.length_take, ← hbody]
  have htake : (body ++ rest).take (Extent.inlineComment afterBackslash (body ++ rest)) = body :=
    hbody.symm
  constructor
  · intro hne
    have hpos := List.length_pos_iff.2 hne
    rw [List.length_append] at hlen
    have hshort : Extent.inlineComment afterBackslash (body ++ rest) < (body ++ rest).length := by
      rw [List.length_append]
      omega
    have hend := Extent.endsLine_take_inlineComment hshort
    rwa [htake] at hend
  · intro hcut
    have hpos : 0 < rest.length := by
      obtain ⟨more, hmore⟩ := List.head?_eq_some_iff.1 hcut.2
      rw [hmore]
      simp
    rw [List.length_append] at hlen
    have hextent : Extent.inlineComment afterBackslash (body ++ rest) = body.length := by omega
    have hnot := Extent.not_cutsPair_inlineComment afterBackslash (body ++ rest)
    rw [hextent, List.take_left, List.drop_left] at hnot
    exact hnot hcut

theorem ofLanguage_of_doc? {text rest : Text} {lexeme : Lexeme} {block : Block}
    (hl : language.lexeme? lineStart (lexeme.text ++ rest) = some lexeme)
    (hdoc : (withCode fresh text).doc? lexeme = some block) : block.OfLanguage language := by
  rcases doc?_eq_some hdoc with ⟨opener, closer, body, rfl, rfl⟩ |
    ⟨indent, marker, body, rfl, hi, hbody⟩
  · exact ⟨⟨closer, has_of_token? (lexeme?_token.1 hl)⟩, List.prefix_append ..⟩
  · have hm : marker ∈ language.inlineComments := has_of_token? (lexeme?_token.1 hl)
    obtain ⟨code, rfl, hblank, _⟩ := indent?_withCode.1 hi
    rcases hbody with ⟨_, rfl, rfl⟩ | ⟨hbody, rfl⟩
    · exact ⟨hblank, hm, by simp⟩
    · exact ⟨hblank, hm, fun _ => hbody⟩

theorem precedes_of_doc? {text rest : Text} {lexeme : Lexeme} {block next : Block}
    (hl : language.lexeme? lineStart (lexeme.text ++ rest) = some lexeme)
    (hdoc : (withCode fresh text).doc? lexeme = some block) (hne : rest ≠ [])
    (hnext : next.source <+: rest) : block.Precedes next := by
  rcases doc?_eq_some hdoc with ⟨opener, closer, body, rfl, rfl⟩ |
    ⟨indent, marker, body, rfl, hi, hbody⟩
  · trivial
  · obtain ⟨hend, hcut⟩ := inlineComment_of_token? (lexeme?_token.1 hl)
    have hends := hend hne
    have hpair : ¬ body.CutsPair next.source := by
      rintro ⟨hlast, hhead⟩
      obtain ⟨more, rfl⟩ := hnext
      refine hcut ⟨hlast, ?_⟩
      rw [List.head?_append, hhead]
      rfl
    rcases hbody with ⟨shown, rfl, rfl⟩ | ⟨_, rfl⟩
    · have hshown : shown ≠ [] := by
        rintro rfl
        obtain ⟨c, hc, hbreak⟩ := hends
        obtain rfl : ' ' = c := by simpa using hc
        simp [isLineBreak] at hbreak
      refine ⟨(Text.endsLine_append_of_ne_nil (a := [' ']) hshown).1 hends, fun h => ?_⟩
      refine hpair ⟨?_, h.2⟩
      rw [List.getLast?_cons_of_ne_nil hshown]
      exact h.1
    · exact ⟨hends, hpair⟩

theorem endsLine_of_doc? {code : Text} {lexeme : Lexeme} {indent marker shown : Text}
    {spaced : Bool} (hcode : code ≠ [])
    (hdoc : (withCode fresh (code ++ indent)).doc? lexeme =
      some (.inlineDoc indent marker spaced shown)) : code.EndsLine := by
  rcases doc?_eq_some hdoc with ⟨_, _, _, _, h⟩ | ⟨indent', _, body, rfl, hi, hbody⟩
  · simp at h
  · obtain rfl : indent = indent' := by
      rcases hbody with ⟨_, _, h⟩ | ⟨_, h⟩
      · exact (Block.inlineDoc.inj h).1
      · exact (Block.inlineDoc.inj h).1
    obtain ⟨code', heq, _, hends | ⟨rfl, _⟩⟩ := indent?_withCode.1 hi
    · rwa [List.append_cancel_right heq]
    · exact absurd (List.append_cancel_right heq) hcode

/-- **Every block is made of what the language has.** -/
theorem Layout.ofLanguage {text : Text} {blocks : List Block}
    (h : Layout language lineStart fresh text blocks) :
    ∀ block ∈ blocks, block.OfLanguage language := by
  have hcode : ∀ code : Text, ∀ block ∈ Block.codeOf code, block.OfLanguage language := by
    intro code block hb
    by_cases hc : code = []
    · simp [hc] at hb
    · rw [Block.codeOf_of_ne_nil hc, List.mem_singleton] at hb
      rw [hb]
      exact hc
  induction h with
  | code => exact hcode _
  | doc hscan hread hdoc _ ih =>
    intro block hb
    rcases List.mem_append.1 hb with hb | hb
    · exact hcode _ block hb
    · rcases List.mem_cons.1 hb with rfl | hb
      · exact ofLanguage_of_doc? (lexeme?_of_read hscan hread hdoc).2 hdoc
      · exact ih block hb

/-- **Every block ends where the next one may start.** -/
theorem Layout.isChain {text : Text} {blocks : List Block}
    (h : Layout language lineStart fresh text blocks) : blocks.IsChain Block.Precedes := by
  induction h with
  | @code _ _ text =>
    by_cases hc : text = []
    · subst hc
      exact List.isChain_nil
    · rw [Block.codeOf_of_ne_nil hc]
      exact List.isChain_singleton _
  | @doc lineStart fresh read lexeme code rest block blocks hscan hread hdoc htail ih =>
    have hblocks : (block :: blocks).IsChain Block.Precedes := by
      rw [List.isChain_cons]
      refine ⟨fun next hnext => ?_, ih⟩
      obtain ⟨more, rfl⟩ := List.head?_eq_some_iff.1 hnext
      have hrest : rest ≠ [] := by
        rintro rfl
        simpa using htail.eq_nil
      have hsource := htail.sourceOf_eq
      rw [Block.sourceOf_cons] at hsource
      exact precedes_of_doc? (lexeme?_of_read hscan hread hdoc).2 hdoc hrest ⟨_, hsource⟩
    by_cases hc : code = []
    · rw [hc]
      exact hblocks
    · rw [Block.codeOf_of_ne_nil hc]
      refine List.isChain_cons_cons.2 ⟨?_, hblocks⟩
      cases block with
      | code =>
        rcases doc?_eq_some hdoc with ⟨_, _, _, _, h⟩ | ⟨_, _, _, _, _, ⟨_, _, h⟩ | ⟨_, h⟩⟩ <;>
          simp at h
      | inlineDoc => exact endsLine_of_doc? hc hdoc
      | blockDoc => trivial

end Language

end Literate
