import Literate.Proofs.CommentLines
import Literate.Proofs.Conversion
import Literate.Proofs.Locality

/-!
# What stands in a string does not matter

A *zone* is a token in which there are no comments: a string, a template literal or a here-document.
If one zone is put in the place of another that closes in the same way, nothing changes but the zone
itself, which is a part of one block of code (`exists_exchanged`).  This is a statement about two
runs.  The draft that comes to the zone is the same in both, because the scan before the zone does
not see it; behind the zone the two drafts differ in what stands before the closing, and that has no
part in what follows (`exists_finish_addAll`).

There is one exception.  A here-document closes with the delimiter that its author chose, at a line
that may go on behind it.  If the delimiter is blank, it may be taken for the indent of a comment,
and then belongs to the block of the comment and not to the code.
-/

namespace Literate

namespace Text

theorem exists_last_not_isBlank {text : Text} (h : text.isBlank = false) :
    ∃ (front : Text) (d : Char) (back : Text), text = front ++ d :: back ∧
      Literate.isBlank d = false ∧ back.isBlank = true := by
  induction text with
  | nil => simp [isBlank] at h
  | cons c text ih =>
    by_cases htext : Text.isBlank text = true
    · refine ⟨[], c, text, rfl, ?_, htext⟩
      rw [isBlank, List.all_cons] at h
      rw [isBlank] at htext
      rwa [htext, Bool.and_true] at h
    · obtain ⟨front, d, back, rfl, hd, hback⟩ := ih (Bool.eq_false_iff.2 htext)
      exact ⟨c :: front, d, back, rfl, hd, hback⟩

theorem isBlank_cons_eq_false {c : Char} (hc : Literate.isBlank c = false) (text : Text) :
    Text.isBlank (c :: text) = false := by
  rw [isBlank, List.all_cons, hc, Bool.false_and]

theorem Solid.isBlank_eq_false {token : Text} (h : token.Solid) : token.isBlank = false := by
  obtain ⟨c, rest, rfl, _, hc, _⟩ := h.exists_cons
  exact isBlank_cons_eq_false hc rest

theorem isBlank_of_getLast? {text : Text} {c : Char} (h : text.isBlank = true)
    (hlast : text.getLast? = some c) : Literate.isBlank c = true := by
  rw [isBlank, List.all_eq_true] at h
  exact h c (List.mem_of_getLast? hlast)

end Text

open Text

namespace Opening

/-- In a token with this opening there are no comments. -/
def isZone : Opening → Bool
  | blockComment _ _ => false
  | inlineComment _ => false
  | _ => true

def ClosedBy : Opening → Text → Prop
  | longString delimiter, closing => closing = delimiter
  | heredoc rule _ delimiter, closing => rule.closing? delimiter closing = some closing.length
  | shortString quote, closing => closing = quote
  | template, closing => closing = ['\x60']
  | _, _ => False

end Opening

/-- The token does not run to the end of the text, but closes. -/
def Token.EndsWith (token : Token) (closing : Text) : Prop :=
  token.opening.ClosedBy closing ∧ closing <:+ token.body

/-- The blocks differ in one block of code only, where one text behind `before` is put in the place
of another.  `back` is what else stands in that block behind it, and `later` are the blocks that
follow. -/
def Block.Exchanged (blocks blocks' : List Block) (before text text' back : Text)
    (later : List Block) : Prop :=
  ∃ earlier front, sourceOf earlier ++ front = before ∧
    blocks = earlier ++ .code (front ++ text ++ back) :: later ∧
    blocks' = earlier ++ .code (front ++ text' ++ back) :: later

theorem Draft.doc?_of_isZone (draft : Draft) {token : Token} (h : token.opening.isZone = true) :
    draft.doc? (.token token) = none := by
  obtain ⟨opening, body⟩ := token
  cases opening with
  | blockComment | inlineComment => simp [Opening.isZone] at h
  | longString | heredoc | shortString | template => rfl

namespace Draft

variable {draft : Draft} {lexeme lexeme' : Lexeme}

theorem exchanged_of_last (h : draft.doc? lexeme = none) (h' : draft.doc? lexeme' = none)
    (hne : lexeme.text ≠ []) (hne' : lexeme'.text ≠ []) :
    Block.Exchanged (draft.add lexeme).finish (draft.add lexeme').finish draft.source lexeme.text
      lexeme'.text [] [] := by
  obtain ⟨fresh, code, blocks, rfl⟩ := exists_eq_after draft
  rw [doc?_after] at h h'
  have hfinish := finish_add_of_none h blocks []
  have hfinish' := finish_add_of_none h' blocks []
  rw [addAll_nil, addAll_nil, finish_withCode, Block.codeOf_of_ne_nil (by simp [hne])] at hfinish
  rw [addAll_nil, addAll_nil, finish_withCode, Block.codeOf_of_ne_nil (by simp [hne'])] at hfinish'
  refine ⟨blocks.reverse, code, ?_, ?_, ?_⟩
  · rw [source_after, source_withCode]
  · rw [hfinish, List.append_nil]
  · rw [hfinish', List.append_nil]

/-- **Two lexemes that are code and end alike.**  What they do not have in common is in one block of
code, and so is what they have in common, unless it is a part of an indent. -/
theorem exists_exchanged_of_cut (h : draft.doc? lexeme = none) (h' : draft.doc? lexeme' = none)
    {front front' blanks : Text} {d : Char} (hd : isBlank d = false)
    (hblanks : blanks.isBlank = true) (htext : lexeme.text = front ++ d :: blanks)
    (htext' : lexeme'.text = front' ++ d :: blanks) (lexemes : List Lexeme) :
    ∃ kept kept' cut back later, lexeme.text = kept ++ cut ∧ lexeme'.text = kept' ++ cut ∧
      Block.Exchanged ((draft.add lexeme).addAll lexemes).finish
        ((draft.add lexeme').addAll lexemes).finish draft.source kept kept' back later ∧
      (cut = [] ∨ cut ≠ [] ∧ cut = blanks ∧ EndsLine kept ∧ back = [] ∧
        ∃ block rest, later = block :: rest ∧ cut <+: block.indent) := by
  obtain ⟨fresh, code, blocks, rfl⟩ := exists_eq_after draft
  rw [doc?_after] at h h'
  obtain ⟨back, later, hfinish, hback⟩ := exists_finish_addAll hd fresh lexemes blanks
  have hblocks : (((withCode fresh code).after blocks).add lexeme |>.addAll lexemes).finish =
      blocks.reverse ++ .code (code ++ front ++ d :: back) :: later := by
    rw [finish_add_of_none h, htext, ← List.append_assoc, hfinish]
  have hblocks' : (((withCode fresh code).after blocks).add lexeme' |>.addAll lexemes).finish =
      blocks.reverse ++ .code (code ++ front' ++ d :: back) :: later := by
    rw [finish_add_of_none h', htext', ← List.append_assoc, hfinish]
  rw [hblocks, hblocks', source_after, source_withCode]
  rcases hback with ⟨tail, rfl⟩ | ⟨cut, block, rest, hcut, rfl, hlater, hindent, hends⟩
  · refine ⟨lexeme.text, lexeme'.text, [], tail, later, by simp, by simp, ?_, Or.inl rfl⟩
    refine ⟨blocks.reverse, code, rfl, ?_, ?_⟩
    · rw [htext]
      simp
    · rw [htext']
      simp
  · -- The blanks are behind a line break, so there are none left in the code.
    have hunbroken := (unbroken_append.1 (unbroken_of_isBlank hblanks)).1
    obtain rfl : back = [] := by
      by_contra hne
      exact hunbroken.not_endsLine ((endsLine_append_of_ne_nil (a := [d]) hne).1 hends)
    refine ⟨front ++ [d], front' ++ [d], cut, [], later, ?_, ?_, ?_, Or.inr ⟨hcut, rfl, ?_, rfl,
      block, rest, hlater, hindent⟩⟩
    · rw [htext]
      simp
    · rw [htext']
      simp
    · exact ⟨blocks.reverse, code, rfl, by simp, by simp⟩
    · exact (endsLine_append_of_ne_nil (List.cons_ne_nil d [])).2 hends

end Draft

namespace Language

open Draft

variable {language : Language} {before behind : Text} {zone zone' : Token}

/-! ### Closings -/

/-- **No closing is blank as a whole**, not even that of a here-document with a blank delimiter. -/
theorem isBlank_closing (h : language ∈ table) {opening : Opening} (ho : language.Has opening)
    {closing : Text} (hclosed : opening.ClosedBy closing) : closing.isBlank = false := by
  have horderly := orderly_of_mem_table h
  cases opening with
  | blockComment | inlineComment => exact hclosed.elim
  | longString delimiter =>
    rw [show closing = delimiter from hclosed]
    exact (horderly.longStrings _ ho).isBlank_eq_false
  | shortString quote =>
    rw [show closing = quote from hclosed]
    exact (horderly.shortStrings _ ho).1.isBlank_eq_false
  | template =>
    rw [show closing = ['\x60'] from hclosed]
    decide
  | heredoc rule opener delimiter =>
    have hhead : ∀ language ∈ table, ∀ rule ∈ language.heredocs,
        (rule.stop.head?.any fun c => !isBlank c) = true := by decide
    obtain ⟨c, hc, hblank⟩ := (Option.any_eq_true _ _).1 (hhead language h rule ho.1)
    obtain ⟨stop, hstop⟩ := List.head?_eq_some_iff.1 hc
    have hread : rule.closing? delimiter closing = some closing.length := hclosed
    rw [Heredoc.closing?, Option.ite_none_right_eq_some, List.isPrefixOf_iff_prefix] at hread
    obtain ⟨rest, rfl⟩ := hread.1
    rw [hstop, List.cons_append]
    exact isBlank_cons_eq_false (by simpa using hblank) _

theorem exists_cut_of_endsWith (h : language ∈ table) (ho : language.Has zone.opening)
    {closing : Text} (hends : zone.EndsWith closing) (hends' : zone'.EndsWith closing) :
    ∃ (front front' : Text) (d : Char) (blanks : Text), zone.body = front ++ d :: blanks ∧
      zone'.body = front' ++ d :: blanks ∧ isBlank d = false ∧ blanks.isBlank = true := by
  obtain ⟨front, hbody⟩ := hends.2
  obtain ⟨front', hbody'⟩ := hends'.2
  obtain ⟨middle, d, blanks, rfl, hd, hblanks⟩ :=
    exists_last_not_isBlank (isBlank_closing h ho hends.1)
  refine ⟨front ++ middle, front' ++ middle, d, blanks, ?_, ?_, hd, hblanks⟩
  · rw [← hbody, List.append_assoc]
  · rw [← hbody', List.append_assoc]

/-! ### Two runs -/

theorem not_cutsPair_of_token? (h : language.Orderly) {lineStart : Bool} {token : Token}
    {rest : Text} (ht : language.token? lineStart (token.text ++ rest) = some token)
    (before : Text) : ¬ CutsPair before (token.text ++ rest) := by
  rintro ⟨_, hhead⟩
  obtain ⟨_, _, ho, _⟩ := token?_eq_some_iff.1 ht
  have hunbroken := unbroken_of_opening? h ho
  have hne := (opening?_isPrefix ho).1
  rw [Token.text, List.append_assoc, List.head?_append_of_ne_nil _ hne] at hhead
  have hbreak := hunbroken '\n' (List.mem_of_head? hhead)
  simp [isLineBreak] at hbreak

/-- **The same draft comes to both zones**, because the scan before them does not see them. -/
theorem exists_draft_of_finds_both (h : language.Orderly)
    (hfinds : language.Finds (before ++ (zone.text ++ behind)) before zone)
    (hfinds' : language.Finds (before ++ (zone'.text ++ behind)) before zone') :
    ∃ draft : Draft, draft.source = before ∧
      classify language (before ++ (zone.text ++ behind)) = ((draft.add (.token zone)).addAll
        (language.lexemes (lineStartAfter true (before ++ zone.text)) behind)).finish ∧
      classify language (before ++ (zone'.text ++ behind)) = ((draft.add (.token zone')).addAll
        (language.lexemes (lineStartAfter true (before ++ zone'.text)) behind)).finish := by
  obtain ⟨lexemes, hcover, ht, hscan⟩ := exists_lexemes_of_finds hfinds
  obtain ⟨lexemes', hcover', ht', hscan'⟩ := exists_lexemes_of_finds hfinds'
  have hne : zone.text ++ behind ≠ [] := by
    intro hnil
    exact (token?_isPrefix ht).1 (List.append_eq_nil_iff.1 hnil).1
  obtain rfl := lexemes_eq_of_border h hne lexemes lexemes' _ _ true before
    (not_cutsPair_of_token? h ht before) (not_cutsPair_of_token? h ht' before) hscan hcover hscan'
    hcover'
  refine ⟨(withCode true []).addAll lexemes, ?_, ?_, ?_⟩
  · rw [source_addAll, source_withCode, hcover, List.nil_append]
  · rw [classify_eq_blocksFrom, blocksFrom, hscan, addAll_append, addAll_cons]
  · rw [classify_eq_blocksFrom, blocksFrom, hscan', addAll_append, addAll_cons]

theorem lexemes_of_finds_both {front front' blanks : Text} {d : Char}
    (hbody : zone.body = front ++ d :: blanks) (hbody' : zone'.body = front' ++ d :: blanks)
    (before behind : Text) :
    language.lexemes (lineStartAfter true (before ++ zone'.text)) behind =
      language.lexemes (lineStartAfter true (before ++ zone.text)) behind := by
  rw [Token.text, Token.text, hbody, hbody']
  simp only [lineStartAfter_append, lineStartAfter_cons]

/-- **What stands in a zone does not matter.**  If one zone is put in the place of another that
closes in the same way, or that stands at the end of the text as well, the blocks stay as they are,
but for the zone itself, which is a part of one block of code.  Only of a here-document that closes
with blanks these blanks may not be code, but a part of the indent of a comment that follows. -/
theorem exists_exchanged (h : language ∈ table) (hzone : zone.opening.isZone = true)
    (hzone' : zone'.opening.isZone = true)
    (hfinds : language.Finds (before ++ zone.text ++ behind) before zone)
    (hfinds' : language.Finds (before ++ zone'.text ++ behind) before zone')
    (hclosing : behind = [] ∨ ∃ closing, zone.EndsWith closing ∧ zone'.EndsWith closing) :
    ∃ kept kept' cut back later, zone.text = kept ++ cut ∧ zone'.text = kept' ++ cut ∧
      Block.Exchanged (classify language (before ++ zone.text ++ behind))
        (classify language (before ++ zone'.text ++ behind)) before kept kept' back later ∧
      (cut = [] ∨
        (∃ rule opener delimiter, zone.opening = .heredoc rule opener delimiter) ∧
          Text.isBlank cut = true ∧ EndsLine kept ∧ back = [] ∧
          ∃ block rest, later = block :: rest ∧ cut <+: block.indent) := by
  have horderly := orderly_of_mem_table h
  rw [List.append_assoc] at hfinds hfinds' ⊢
  rw [List.append_assoc before zone'.text]
  obtain ⟨_, _, ht, _⟩ := exists_lexemes_of_finds hfinds
  obtain ⟨_, _, ht', _⟩ := exists_lexemes_of_finds hfinds'
  obtain ⟨draft, rfl, hblocks, hblocks'⟩ := exists_draft_of_finds_both horderly hfinds hfinds'
  have hdoc := draft.doc?_of_isZone hzone
  have hdoc' := draft.doc?_of_isZone hzone'
  rw [hblocks, hblocks']
  by_cases hnil : behind = []
  · refine ⟨zone.text, zone'.text, [], [], [], by simp, by simp, ?_, Or.inl rfl⟩
    rw [hnil]
    exact exchanged_of_last hdoc hdoc' (token?_isPrefix ht).1 (token?_isPrefix ht').1
  · obtain ⟨closing, hends, hends'⟩ := hclosing.resolve_left hnil
    obtain ⟨front, front', d, blanks, hbody, hbody', hd, hblanks⟩ :=
      exists_cut_of_endsWith h (has_of_token? ht) hends hends'
    have htext : (Lexeme.token zone).text = (zone.opening.text ++ front) ++ d :: blanks := by
      rw [Lexeme.text, Token.text, hbody, List.append_assoc]
    have htext' : (Lexeme.token zone').text = (zone'.opening.text ++ front') ++ d :: blanks := by
      rw [Lexeme.text, Token.text, hbody', List.append_assoc]
    rw [lexemes_of_finds_both hbody hbody']
    obtain ⟨kept, kept', cut, back, later, hkept, hkept', hexchanged, hcut⟩ :=
      exists_exchanged_of_cut hdoc hdoc' hd hblanks htext htext'
        (language.lexemes (lineStartAfter true (draft.source ++ zone.text)) behind)
    refine ⟨kept, kept', cut, back, later, hkept, hkept', hexchanged, hcut.imp_right ?_⟩
    rintro ⟨hne, rfl, hlines, hback, hlater⟩
    refine ⟨?_, hblanks, hlines, hback, hlater⟩
    obtain ⟨c, hlast⟩ : ∃ c, cut.getLast? = some c := ⟨_, List.getLast?_eq_some_getLast hne⟩
    have hlast' : zone.body.getLast? = some c := by
      rw [hbody, List.append_cons, List.getLast?_append_of_ne_nil _ hne, hlast]
    exact heredoc_of_isBlank horderly ht hnil hlast' (isBlank_of_getLast? hblanks hlast)

/-- A template literal with something in it that looks like a comment. -/
theorem exists_exchanged_javascript : ∃ back later,
    Block.Exchanged (classify .javascript "x = `// a\n`;\n  // d\n")
      (classify .javascript "x = `b`;\n  // d\n") "x = " "`// a\n`" "`b`" back later := by
  have hfinds : Language.javascript.Finds
      ("x = ".toList ++ (⟨.template, "// a\n`"⟩ : Token).text ++ ";\n  // d\n".toList) "x = "
      ⟨.template, "// a\n`"⟩ := by decide
  have hfinds' : Language.javascript.Finds
      ("x = ".toList ++ (⟨.template, "b`"⟩ : Token).text ++ ";\n  // d\n".toList) "x = "
      ⟨.template, "b`"⟩ := by decide
  obtain ⟨kept, kept', cut, back, later, hkept, hkept', hexchanged, hcut⟩ :=
    exists_exchanged (by decide) rfl rfl hfinds hfinds'
      (Or.inr ⟨['\x60'], ⟨rfl, by decide⟩, ⟨rfl, by decide⟩⟩)
  obtain rfl : cut = [] := by
    rcases hcut with hnil | ⟨⟨_, _, _, hheredoc⟩, _⟩
    · exact hnil
    · simp at hheredoc
  rw [List.append_nil] at hkept hkept'
  subst hkept hkept'
  exact ⟨back, later, hexchanged⟩

/-- Two here-documents with a blank delimiter, and a comment on the line on which they close.  The
delimiter is the indent of the comment, so neither here-document is in a block of code. -/
theorem not_exchanged_shell : ∃ zone zone' : Token,
    zone.opening.isZone = true ∧ zone'.opening = zone.opening ∧
    Language.shell.Finds ("cat".toList ++ zone.text ++ "# d\n".toList) "cat" zone ∧
    Language.shell.Finds ("cat".toList ++ zone'.text ++ "# d\n".toList) "cat" zone' ∧
    (∃ closing, zone.EndsWith closing ∧ zone'.EndsWith closing) ∧
    ¬ ∃ back later, Block.Exchanged (classify .shell ("cat".toList ++ zone.text ++ "# d\n".toList))
      (classify .shell ("cat".toList ++ zone'.text ++ "# d\n".toList)) "cat" zone.text zone'.text
      back later := by
  refine ⟨⟨.heredoc (Heredoc.shell "<<'" (.quoted '\x27') "'" "") " <<' '" " ", "\nx\n "⟩,
    ⟨.heredoc (Heredoc.shell "<<'" (.quoted '\x27') "'" "") " <<' '" " ", "\ny\n "⟩, rfl, rfl,
    by decide, by decide, ⟨"\n ", ⟨?_, by decide⟩, ?_, by decide⟩, ?_⟩
  · show Heredoc.closing? _ _ _ = _
    decide
  · show Heredoc.closing? _ _ _ = _
    decide
  · rintro ⟨back, later, earlier, front, hbefore, hblocks, _⟩
    have hcodes : Block.Codes _ _ _ := ⟨earlier, front, back, later, hblocks, hbefore⟩
    have hclassified : classify .shell "cat <<' '\nx\n # d\n" =
        [.code "cat <<' '\nx\n"] ++ .inlineDoc [' '] ['#'] true "d\n" :: [] := by decide
    rcases hcodes.length_le hclassified rfl with hle | hle
    · exact absurd hle (by decide)
    · exact absurd hle (by decide)

end Language

end Literate
