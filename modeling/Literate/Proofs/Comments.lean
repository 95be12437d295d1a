import Literate.Proofs.Extents
import Literate.Proofs.Layout
import Literate.Proofs.Writing

/-!
# Saved comments

What is written for documentation is read back as documentation: a line behind an indent, a marker
and a space becomes one block, whatever stands in the line, as long as it does not end with a
backslash (`blocksFrom_comment`).  A region of several lines becomes as many blocks,
`blocksFrom_writeLines`.  A backslash at the end of the whole text does no harm.
-/

namespace Literate

namespace Extent

open Text

theorem inlineComment_unbroken_append (rest : Text) :
    ∀ (line : Text) (afterBackslash : Bool), line.Unbroken →
      inlineComment afterBackslash (line ++ rest) =
        line.length + inlineComment (line.getLast?.elim afterBackslash (· == '\\')) rest := by
  intro line
  induction line with
  | nil =>
    intro afterBackslash _
    rw [List.length_nil, Nat.zero_add]
    rfl
  | cons c line ih =>
    intro afterBackslash hunbroken
    rw [unbroken_cons] at hunbroken
    have hpair : ¬ CutsPair [c] (line ++ rest) := by
      rintro ⟨hc, _⟩
      obtain rfl : c = '\r' := by simpa using hc
      simp [isLineBreak] at hunbroken
    have hlast : (c :: line).getLast?.elim afterBackslash (· == '\\') =
        line.getLast?.elim (c == '\\') (· == '\\') := by
      rw [List.getLast?_cons]
      cases line.getLast? <;> rfl
    rw [List.cons_append, inlineComment_cons hpair, if_neg (by simp [hunbroken.1]),
      ih _ hunbroken.2, hlast, List.length_cons]
    omega

/-- A comment ends with its line, unless a backslash stands at the end of it and a text follows. -/
theorem inlineComment_line {ending : LineEnding} {rest line : Text} {afterBackslash : Bool}
    (hcut : ¬ CutsPair ending.text rest) (hline : line.Unbroken) :
    inlineComment afterBackslash (line ++ ending.text ++ rest) = (line ++ ending.text).length ↔
      rest = [] ∨ line.getLast?.elim afterBackslash (· == '\\') = false := by
  rw [List.append_assoc, inlineComment_unbroken_append _ _ _ hline, inlineComment_ending hcut,
    List.length_append]
  split
  · next hback =>
    rw [hback]
    by_cases hrest : rest = []
    · simp [hrest, inlineComment]
    · have := inlineComment_pos false hrest
      simp only [hrest, false_or, Bool.true_eq_false, iff_false]
      omega
  · next hback => simp [hback]

end Extent

namespace Language

open Draft Text

variable {language : Language}

theorem lexemes_indent (h : language ∈ table) {marker : Text}
    (hm : marker ∈ language.inlineComments) (rest : Text) :
    ∀ (indent : Text) (lineStart : Bool), indent.isBlank = true →
      language.lexemes lineStart (indent ++ (marker ++ rest)) =
        indent.map .plain ++
          language.lexemes (indent.lineStartAfter lineStart) (marker ++ rest) := by
  intro indent
  induction indent with
  | nil => intro lineStart _; rfl
  | cons c indent ih =>
    intro lineStart hblank
    have hnone : language.token? lineStart (c :: (indent ++ (marker ++ rest))) = none := by
      rw [token?, opening?_indent h hm lineStart hblank, Option.map_none]
    have hl : language.lexeme? lineStart
        ((Lexeme.plain c).text ++ (indent ++ (marker ++ rest))) = some (.plain c) :=
      lexeme?_plain.2 hnone
    have hindent : Text.isBlank indent = true := by
      rw [Text.isBlank, List.all_cons, Bool.and_eq_true] at hblank
      exact hblank.2
    have hstep := lexemes_append hl
    rw [Lexeme.text, List.singleton_append] at hstep
    rw [List.cons_append, hstep, ih _ hindent, ← lineStartAfter_append]
    rfl

theorem token?_comment (h : language ∈ table) {marker : Text}
    (hm : marker ∈ language.inlineComments) (lineStart : Bool) {line : Text} {ending : LineEnding}
    {rest : Text} (hline : line.Unbroken) (hlast : rest = [] ∨ line.getLast? ≠ some '\\')
    (hcut : ¬ CutsPair ending.text rest) :
    language.token? lineStart (marker ++ ' ' :: (line ++ ending.text ++ rest)) =
      some ⟨.inlineComment marker, ' ' :: (line ++ ending.text)⟩ := by
  refine token?_eq_some_iff.2 ⟨' ' :: (line ++ ending.text ++ rest), rfl,
    opening?_marker h hm lineStart _, ?_⟩
  obtain ⟨hsolid, _⟩ := marker_of_mem_table h hm
  have hback : (marker.getLast? == some '\\') = false := by
    rw [beq_eq_false_iff_ne]
    intro hmark
    exact (hsolid.2 '\\' (List.mem_of_getLast? hmark)).2.2 rfl
  have hspace : Unbroken (' ' :: line) := unbroken_cons.2 ⟨rfl, hline⟩
  have hlast' : rest = [] ∨ (' ' :: line).getLast?.elim false (· == '\\') = false := by
    refine hlast.imp_right fun hlast => ?_
    rw [List.getLast?_cons]
    cases hl : line.getLast? with
    | none => rfl
    | some c =>
      rw [hl] at hlast
      simpa using hlast
  have hextent := (Extent.inlineComment_line hcut hspace).2 hlast'
  simp only [Opening.extent, hback]
  rw [List.cons_append, List.cons_append] at hextent
  rw [hextent, ← List.cons_append, ← List.cons_append, List.cons_append, List.take_left' rfl]

theorem lineStartAfter_ending (lineStart lineStart' : Bool) (text : Text) (ending : LineEnding) :
    lineStartAfter lineStart (text ++ ending.text) = lineStartAfter lineStart' ending.text := by
  rw [lineStartAfter_append]
  cases ending <;> rfl

/-- **A saved comment is documentation**, and the rest of the text is classified for itself. -/
theorem blocksFrom_comment (h : language ∈ table) {marker : Text}
    (hm : marker ∈ language.inlineComments) (lineStart : Bool) {indent line : Text}
    {ending : LineEnding} {rest : Text} (hindent : indent.isBlank = true) (hline : line.Unbroken)
    (hlast : rest = [] ∨ line.getLast? ≠ some '\\') (hcut : ¬ CutsPair ending.text rest) :
    language.blocksFrom lineStart true
        (indent ++ marker ++ [' '] ++ line ++ ending.text ++ rest) =
      .inlineDoc indent marker true (line ++ ending.text) ::
        language.blocksFrom (ending.text.lineStartAfter lineStart) true rest := by
  let lexeme : Lexeme := .token ⟨.inlineComment marker, ' ' :: (line ++ ending.text)⟩
  let block : Block := .inlineDoc indent marker true (line ++ ending.text)
  have htext : lexeme.text ++ rest = marker ++ ' ' :: (line ++ ending.text ++ rest) := by
    simp [lexeme, Lexeme.text, Token.text, Opening.text]
  have hl : language.lexeme? (indent.lineStartAfter lineStart) (lexeme.text ++ rest) =
      some lexeme := by
    rw [htext]
    exact lexeme?_token.2 (token?_comment h hm _ hline hlast hcut)
  have hborder : lexeme.text.lineStartAfter (indent.lineStartAfter lineStart) =
      ending.text.lineStartAfter lineStart := by
    have : lexeme.text = marker ++ ' ' :: line ++ ending.text := by
      simp [lexeme, Lexeme.text, Token.text, Opening.text]
    rw [this, lineStartAfter_ending]
  have hscan : language.lexemes lineStart
      (indent ++ marker ++ [' '] ++ line ++ ending.text ++ rest) =
        indent.map .plain ++
          lexeme :: language.lexemes (ending.text.lineStartAfter lineStart) rest := by
    rw [← hborder, ← lexemes_append hl, htext, ← lexemes_indent h hm _ indent lineStart hindent]
    simp
  have hdoc : (withCode true ([] ++ block.indent)).doc? lexeme = some block := by
    have hi : (withCode true ([] ++ indent)).indent? = some indent :=
      indent?_withCode.2 ⟨[], rfl, hindent, Or.inr ⟨rfl, rfl⟩⟩
    simp [lexeme, block, doc?, Block.indent] at hi ⊢
    simp [hi]
  have hfresh : block.freshAfter = true := by
    have := isSome_stripTerminator.2 (endsLine_append_ending line ending)
    simp [block, Block.freshAfter, Block.text, this]
  have hadd : (withCode true ([] ++ indent)).add lexeme =
      (withCode block.freshAfter []).after [block] := add_withCode_of_some hdoc
  rw [blocksFrom, hscan, addAll_append, addAll_map_plain, addAll_cons, hadd, addAll_after,
    finish_after, hfresh]
  rfl

/-- **A saved region is as many blocks as its content has lines.** -/
theorem blocksFrom_writeLines (h : language ∈ table) {marker : Text}
    (hm : marker ∈ language.inlineComments) {indent : Text} {ending : LineEnding} {rest : Text}
    (hindent : indent.isBlank = true) (hcut : ¬ CutsPair ending.text rest) (content : Text)
    (lineStart : Bool) (hlast : ∀ line ∈ content.lines,
      (rest = [] ∧ line.terminator = none) ∨ line.text.getLast? ≠ some '\\') :
    language.blocksFrom lineStart true
        (RegionWriter.writeLines (indent ++ marker ++ [' ']) content ending.text ++ rest) =
      (content.lines.map fun line => .inlineDoc indent marker true
        (line.text ++ (line.terminator.getD ending).text)) ++
        language.blocksFrom (ending.text.lineStartAfter lineStart) true rest := by
  obtain ⟨hsolid, _⟩ := marker_of_mem_table h hm
  induction content using line_induction generalizing lineStart with
  | last line hline =>
    rw [lines_of_unbroken hline] at hlast ⊢
    rw [RegionWriter.writeLines_of_unbroken hline, blocksFrom_comment h hm lineStart hindent hline
      ((hlast _ (List.mem_singleton_self _)).imp_left And.left) hcut]
    rfl
  | line line ending' more hline hmore ih =>
    rw [lines_append hline hmore] at hlast ⊢
    have hnext : ¬ CutsPair ending'.text
        (RegionWriter.writeLines (indent ++ marker ++ [' ']) more ending.text ++ rest) := by
      rintro ⟨_, hhead⟩
      obtain ⟨tail, htail⟩ :=
        RegionWriter.exists_writeLines_eq_append (indent ++ marker ++ [' ']) more ending.text
      have hmargin : Unbroken (indent ++ marker ++ [' ']) := unbroken_append.2
        ⟨unbroken_append.2 ⟨unbroken_of_isBlank hindent, hsolid.unbroken⟩,
          unbroken_cons.2 ⟨rfl, unbroken_nil⟩⟩
      rw [htail, List.append_assoc, List.head?_append_of_ne_nil _ (by simp)] at hhead
      simpa [isLineBreak] using hmargin _ (List.mem_of_head? hhead)
    have hback : line.getLast? ≠ some '\\' :=
      (hlast _ (List.mem_cons_self ..)).resolve_left fun hnone => by simp at hnone
    rw [RegionWriter.writeLines_append hline hmore, List.append_assoc,
      blocksFrom_comment h hm lineStart hindent hline (Or.inr hback) hnext,
      ih _ fun line hl => hlast line (List.mem_cons_of_mem _ hl)]
    have hflag : lineStartAfter (lineStartAfter lineStart ending'.text) ending.text =
        lineStartAfter lineStart ending.text := by
      rw [← lineStartAfter_append, lineStartAfter_ending]
    rw [hflag]
    rfl

end Language

end Literate
