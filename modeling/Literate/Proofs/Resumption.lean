import Literate.Proofs.CommentLines
import Literate.Proofs.Locality

/-!
# Texts classified in two parts

A text is cut behind one of its lines.  If no token reaches over the cut, the two parts can be
classified one by one, and code on both sides of the cut grows together:

  `classify language (a ++ b) = Block.merge (classify language a) (classify language b)`.

There are two runs to be compared.  The one over the first part does not see the second part, and
finds the same lexemes (`lexemes_eq_of_border`); the one over the second part starts anew, and all
that it has to know of the first is that a line begins there (`Oriented.finish_addAll`).
-/

namespace Literate

namespace Block

/-- One list of blocks behind the other.  Where they meet, code grows together. -/
def merge (first second : List Block) : List Block :=
  match first.getLast?, second with
  | some (.code a), .code b :: rest => first.dropLast ++ .code (a ++ b) :: rest
  | _, _ => first ++ second

theorem merge_nil (first : List Block) : merge first [] = first := by
  unfold merge
  split
  · next heq => simp at heq
  · exact List.append_nil first

theorem merge_append_code {code : Text} (hne : code ≠ []) (earlier second : List Block) :
    merge (earlier ++ [.code code]) second = earlier ++ prepend code second := by
  have hlast : (earlier ++ [Block.code code]).getLast? = some (.code code) := by simp
  unfold merge
  rw [hlast]
  cases second with
  | nil => simp [prepend, codeOf_of_ne_nil hne]
  | cons block second =>
    cases block with
    | code text => simp [prepend]
    | inlineDoc => simp [prepend, codeOf_of_ne_nil hne]
    | blockDoc => simp [prepend, codeOf_of_ne_nil hne]

theorem merge_of_isCode_eq_false {first : List Block}
    (h : ∀ block ∈ first.getLast?, block.isCode = false) (second : List Block) :
    merge first second = first ++ second := by
  unfold merge
  split
  · next hlast =>
    have hcode := h _ hlast
    simp [isCode] at hcode
  · rfl

end Block

namespace Draft

open Text

/-- **Behind an ended line a draft goes on like a new one.** -/
theorem Oriented.finish_addAll {draft : Draft} (h : draft.Oriented) (hended : Ended draft.source)
    (lexemes : List Lexeme) :
    (draft.addAll lexemes).finish =
      Block.merge draft.finish ((withCode true []).addAll lexemes).finish := by
  obtain ⟨fresh, code, blocks, rfl⟩ := exists_eq_after draft
  rw [source_after, source_withCode] at hended
  rw [addAll_after, finish_after, finish_after, finish_withCode]
  by_cases hcode : code = []
  · subst hcode
    rw [List.append_nil] at hended
    -- The last block ended its line, so the flag is set.
    obtain rfl : fresh = true := by
      by_contra hunset
      obtain ⟨c, hlast, _, hbreak⟩ := h.occupied (Bool.eq_false_iff.2 hunset)
      have hlast : (Block.sourceOf blocks.reverse).getLast? = some c := hlast
      rcases hended with hnil | ⟨d, hd, hbreak'⟩
      · rw [hnil] at hlast
        simp at hlast
      · obtain rfl := Option.some.inj (hlast.symm.trans hd)
        rw [hbreak] at hbreak'
        simp at hbreak'
    rw [Block.codeOf_nil, List.append_nil, Block.merge_of_isCode_eq_false]
    intro block hblock
    rw [List.getLast?_reverse] at hblock
    exact h.doc block hblock
  · have hends : code.EndsLine := hended.of_append.resolve_left hcode
    have hsplit := finish_addAll_withCode_append hends fresh lexemes []
    rw [List.append_nil] at hsplit
    rw [hsplit, Block.codeOf_of_ne_nil hcode, Block.merge_append_code hcode]

end Draft

namespace Language

open Draft Text

variable {language : Language} {a b : Text}

theorem exists_border_iff :
    (∃ before after, language.scan (a ++ b) = before ++ after ∧ before.flatMap Lexeme.text = a) ↔
      ∀ before token, language.Finds (a ++ b) before token →
        ¬ (before.length < a.length ∧ a.length < (before ++ token.text).length) := by
  constructor
  · rintro ⟨before, after, hscan, rfl⟩ front token ⟨lexemes, later, hscan', rfl⟩ ⟨hlt, hgt⟩
    rcases List.append_eq_append_iff.1 (hscan.symm.trans hscan') with
      ⟨middle, rfl, _⟩ | ⟨middle, rfl, hmiddle⟩
    · rw [List.flatMap_append, List.length_append] at hlt
      omega
    · rw [List.flatMap_append, List.length_append] at hlt
      cases middle with
      | nil => simp at hlt
      | cons first middle =>
        obtain ⟨rfl, _⟩ := List.cons.inj hmiddle
        rw [List.flatMap_append, List.flatMap_cons, Lexeme.text] at hgt
        simp only [List.length_append] at hgt
        omega
  · intro hborder
    rcases border_or_crossing (language.scan (a ++ b)) a b (flatMap_text_scan ..) with hfound |
      ⟨before, lexeme, after, front, back, hscan, hcover, htext, hfront, hback⟩
    · exact hfound
    · have hfrontPos := List.length_pos_iff.2 hfront
      have hbackPos := List.length_pos_iff.2 hback
      have hlength := congrArg List.length htext
      rw [List.length_append] at hlength
      cases lexeme with
      | plain c =>
        have hone : (Lexeme.plain c).text.length = 1 := rfl
        omega
      | token token =>
        refine absurd ?_ (hborder _ token ⟨before, after, hscan, rfl⟩)
        have htoken : token.text.length = front.length + back.length := hlength
        rw [← hcover, List.length_append, List.length_append]
        omega

/-- **A text can be classified in two parts**, if the first is empty or ends with a line feed, and
no token starts in it and ends behind it. -/
theorem classify_append (h : language ∈ table) (ha : a = [] ∨ a.getLast? = some '\n')
    (hborder : ∀ before token, language.Finds (a ++ b) before token →
      ¬ (before.length < a.length ∧ a.length < (before ++ token.text).length)) :
    classify language (a ++ b) = Block.merge (classify language a) (classify language b) := by
  have horderly := orderly_of_mem_table h
  by_cases hb : b = []
  · subst hb
    have hnil : classify language [] = [] := rfl
    rw [List.append_nil, hnil, Block.merge_nil]
  · obtain ⟨before, after, hscan, hcover⟩ := exists_border_iff.2 hborder
    rw [scan_eq_lexemes] at hscan
    have hended : Ended a := ha.imp_right fun hlast => ⟨'\n', hlast, rfl⟩
    have hcut : ∀ rest, ¬ CutsPair a rest := by
      rintro rest ⟨hlast, _⟩
      rcases ha with rfl | hfeed
      · simp at hlast
      · rw [hfeed] at hlast
        simp at hlast
    have hstart : lineStartAfter true a = true := by
      rcases ha with rfl | hfeed
      · rfl
      · rw [lineStartAfter, hfeed]
        rfl
    -- The scan of the first part has a border at its end, too.
    have hfirst : before = language.lexemes true a := by
      refine lexemes_eq_of_border horderly hb before _ after [] true a (hcut b) (hcut []) hscan
        hcover ?_ (flatMap_text_lexemes language true a)
      rw [List.append_nil, List.append_nil]
    obtain ⟨rest, htext, hafter⟩ := exists_of_lexemes_eq_append hscan
    rw [hcover] at htext hafter
    obtain rfl := List.append_cancel_left htext
    rw [hstart] at hafter
    have hne : after ≠ [] := by
      rw [hafter]
      exact mt lexemes_eq_nil.1 hb
    have horiented := oriented_addAll horderly hne before true _ _ (oriented_withCode []) hscan
    have hsource : ((withCode true []).addAll before).source = a := by
      rw [source_addAll, source_withCode, hcover, List.nil_append]
    have hsplit := horiented.finish_addAll (by rwa [hsource]) after
    rw [classify_eq_blocksFrom, blocksFrom, hscan, addAll_append, hsplit, hafter, hfirst]
    rfl

/-- A cut behind a here-document, with code on both sides. -/
theorem classify_append_shell :
    classify .shell ("cat <<E\n# x\nE\n".toList ++ "y\n# d\n".toList) =
      Block.merge (classify .shell "cat <<E\n# x\nE\n") (classify .shell "y\n# d\n") := by
  refine classify_append (by decide) (Or.inr (by decide)) (exists_border_iff.1 ?_)
  refine ⟨_, _, (List.take_append_drop 5 _).symm, ?_⟩
  decide

end Language

end Literate
