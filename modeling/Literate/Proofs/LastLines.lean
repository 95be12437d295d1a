import Literate.Proofs.CommentLines
import Literate.Proofs.Rewriting

/-!
# The last line of a text

A comment ends with its line, unless a backslash stands at the end of the line and a text follows.
So of all comments that are one line each, only the last one can end with a backslash
(`terminated_of_mem_dropLast`).  And code at the end of a text needs no terminator: with one behind
it, it is still one block of code (`blocksFrom_append_ending`).
-/

namespace Literate

namespace Text

/-! ### Escaped line breaks -/

/-- A line break stands behind a backslash. -/
def Escapes (text : Text) : Prop :=
  ∃ front c back, text = front ++ '\\' :: c :: back ∧ isLineBreak c = true

theorem Escapes.append {a : Text} (h : Escapes a) (b : Text) : Escapes (a ++ b) := by
  obtain ⟨front, c, back, rfl, hc⟩ := h
  exact ⟨front, c, back ++ b, by simp, hc⟩

theorem Escapes.append_left {b : Text} (h : Escapes b) (a : Text) : Escapes (a ++ b) := by
  obtain ⟨front, c, back, rfl, hc⟩ := h
  exact ⟨a ++ front, c, back, by simp, hc⟩

/-- A line break that is escaped in two texts together is escaped in one of them, or the backslash
is the last character of the first. -/
theorem escapes_append {a b : Text} (h : Escapes (a ++ b)) :
    Escapes a ∨ Escapes b ∨ a.getLast? = some '\\' := by
  obtain ⟨front, c, back, heq, hc⟩ := h
  rcases List.append_eq_append_iff.1 heq with ⟨middle, rfl, hb⟩ | ⟨middle, ha, hb⟩
  · exact Or.inr (Or.inl ⟨middle, c, back, hb, hc⟩)
  · match middle with
    | [] => exact Or.inr (Or.inl ⟨[], c, back, by simpa using hb.symm, hc⟩)
    | [d] =>
      obtain ⟨rfl, -⟩ := List.cons.inj hb
      exact Or.inr (Or.inr (by rw [ha]; simp))
    | d :: e :: middle =>
      obtain ⟨rfl, htail⟩ := List.cons.inj hb
      obtain ⟨rfl, -⟩ := List.cons.inj htail
      exact Or.inl ⟨front, c, middle, ha, hc⟩

theorem Unbroken.not_escapes {text : Text} (h : text.Unbroken) : ¬ text.Escapes := by
  rintro ⟨front, c, back, rfl, hc⟩
  rw [h c (by simp)] at hc
  simp at hc

theorem not_escapes_ending (ending : LineEnding) : ¬ Escapes ending.text := by
  rintro ⟨front, c, back, heq, _⟩
  have hmem : '\\' ∈ ending.text := by simp [heq]
  revert hmem
  cases ending <;> decide

theorem isLineBreak_of_mem_ending {ending : LineEnding} {c : Char} (h : c ∈ ending.text) :
    isLineBreak c = true := by
  have hall : ending.text.all isLineBreak = true := by cases ending <;> rfl
  exact List.all_eq_true.1 hall c h

theorem exists_cons_ending (ending : LineEnding) :
    ∃ c tail, ending.text = c :: tail ∧ isLineBreak c = true := by
  cases ending
  · exact ⟨'\n', [], rfl, rfl⟩
  · exact ⟨'\r', ['\n'], rfl, rfl⟩
  · exact ⟨'\r', [], rfl, rfl⟩

theorem not_escapes_line {line : Text} (h : line.Unbroken) (hlast : line.getLast? ≠ some '\\')
    (ending : LineEnding) : ¬ Escapes (line ++ ending.text) := by
  intro hescapes
  rcases escapes_append hescapes with hline | hending | hback
  · exact h.not_escapes hline
  · exact not_escapes_ending ending hending
  · exact hlast hback

theorem exists_line_of_escapes {text : Text} (hline : text.stripTerminator.1.Unbroken)
    (h : text.Escapes) : ∃ (line : Text) (ending : LineEnding), text = line ++ ending.text ∧
      line.Unbroken ∧ line.getLast? = some '\\' := by
  have hends : text.EndsLine := by
    by_contra hends
    rw [stripTerminator_of_not_endsLine hends] at hline
    exact hline.not_escapes h
  obtain ⟨line, ending, rfl, hcut⟩ := exists_ending hends
  rw [stripTerminator_append hcut] at hline
  refine ⟨line, ending, rfl, hline, ?_⟩
  by_contra hlast
  exact not_escapes_line hline hlast ending h

theorem EndsLine.getLast?_ne {text : Text} (h : text.EndsLine) : text.getLast? ≠ some '\\' := by
  obtain ⟨c, hc, hbreak⟩ := h
  rw [hc]
  rintro ⟨rfl⟩
  simp [isLineBreak] at hbreak

theorem not_escapes_flatten_append {texts : List Text}
    (h : ∀ text ∈ texts, text.EndsLine ∧ ¬ text.Escapes) {rest : Text} (hrest : ¬ rest.Escapes) :
    ¬ Escapes (texts.flatten ++ rest) := by
  induction texts with
  | nil => simpa using hrest
  | cons text texts ih =>
    obtain ⟨hends, htext⟩ := h text (List.mem_cons_self ..)
    rw [List.flatten_cons, List.append_assoc]
    intro hescapes
    rcases escapes_append hescapes with hfirst | hmore | hlast
    · exact htext hfirst
    · exact ih (fun other ho => h other (List.mem_cons_of_mem _ ho)) hmore
    · exact hends.getLast?_ne hlast

/-- A line that ends with a backslash is the last one, or its terminator is escaped. -/
theorem escapes_of_mem_lines {text : Text} {line : Line} (h : line ∈ text.lines)
    (hlast : line.text.getLast? = some '\\') :
    line.terminator = none ∧ text.getLast? = some '\\' ∨ Escapes text := by
  induction text using line_induction with
  | last text htext =>
    rw [lines_of_unbroken htext, List.mem_singleton] at h
    subst h
    exact Or.inl ⟨rfl, hlast⟩
  | line first ending rest hfirst hcut ih =>
    rw [lines_append hfirst hcut, List.mem_cons] at h
    rcases h with rfl | h
    · right
      obtain ⟨front, rfl⟩ := List.getLast?_eq_some_iff.1 hlast
      obtain ⟨c, tail, htail, hc⟩ := exists_cons_ending ending
      exact ⟨front, c, tail ++ rest, by simp [htail], hc⟩
    · refine (ih h).imp (fun hnone => ⟨hnone.1, ?_⟩) fun hescapes => hescapes.append_left _
      rw [List.getLast?_append, hnone.2]
      rfl

theorem not_escapes_stripTerminator {text : Text} (h : ¬ text.Escapes) :
    ¬ text.stripTerminator.1.Escapes ∧
      (text.EndsLine → text.stripTerminator.1.getLast? ≠ some '\\') := by
  by_cases hends : text.EndsLine
  · obtain ⟨content, ending, rfl, hcut⟩ := exists_ending hends
    rw [stripTerminator_append hcut]
    refine ⟨fun hescapes => h (hescapes.append _), fun _ hlast => h ?_⟩
    obtain ⟨front, rfl⟩ := List.getLast?_eq_some_iff.1 hlast
    obtain ⟨c, tail, htail, hc⟩ := exists_cons_ending ending
    exact ⟨front, c, tail, by simp [htail], hc⟩
  · rw [stripTerminator_of_not_endsLine hends]
    exact ⟨h, fun hends' => absurd hends' hends⟩

/-- The terminator of the last line may be escaped, but that one is stripped. -/
theorem not_escapes_stripTerminator_flatten {texts : List Text} {last : Text}
    (h : ∀ text ∈ texts, text.EndsLine ∧ ¬ text.Escapes) (hlast : last.stripTerminator.1.Unbroken) :
    ¬ Escapes (stripTerminator (texts.flatten ++ last)).1 := by
  by_cases hescapes : last.Escapes
  · obtain ⟨line, ending, rfl, hline, hback⟩ := exists_line_of_escapes hlast hescapes
    have hcut : ¬ CutsPair (texts.flatten ++ line) ending.text := by
      rintro ⟨hr, _⟩
      rw [List.getLast?_append, hback] at hr
      simp at hr
    rw [← List.append_assoc, stripTerminator_append hcut]
    exact not_escapes_flatten_append h hline.not_escapes
  · exact (not_escapes_stripTerminator (not_escapes_flatten_append h hescapes)).1

end Text

/-! ### Comments that something stands behind -/

theorem exists_of_mem_dropLast {α : Type} {R : α → α → Prop} {items : List α}
    (h : items.IsChain R) {item : α} (hmem : item ∈ items.dropLast) : ∃ next, R item next := by
  obtain ⟨before, after, hsplit⟩ := List.append_of_mem hmem
  have hne : items ≠ [] := by
    rintro rfl
    simp at hmem
  rw [← List.dropLast_append_getLast hne, hsplit, List.append_assoc, List.cons_append] at h
  cases after with
  | nil => exact ⟨_, (List.isChain_cons_cons.1 h.right_of_append).1⟩
  | cons next after => exact ⟨next, (List.isChain_cons_cons.1 h.right_of_append).1⟩

/-- A comment of one line does not escape its terminator. -/
def Block.Unescaped : Block → Prop
  | inlineDoc _ _ _ text => text.stripTerminator.1.Unbroken → ¬ text.Escapes
  | _ => True

namespace Language

open Draft Text

variable {language : Language} {lineStart : Bool}

theorem unescaped_of_doc? {draft : Draft} {rest : Text} {lexeme : Lexeme}
    {block : Block} (hl : language.lexeme? lineStart (lexeme.text ++ rest) = some lexeme)
    (hdoc : draft.doc? lexeme = some block) (hne : rest ≠ []) : block.Unescaped := by
  cases block with
  | code => trivial
  | blockDoc => trivial
  | inlineDoc indent marker spaced text =>
    intro hline hescapes
    obtain rfl := eq_token_of_doc? hdoc
    have ht := lexeme?_token.1 hl
    obtain ⟨line, ending, rfl, hline, hlast⟩ := exists_line_of_escapes hline hescapes
    have hborder : ¬ CutsPair ending.text rest := by
      refine fun hc => (inlineComment_of_token? ht).2 ?_
      rw [← List.append_assoc]
      exact hc.append_left _
    have hfront : Unbroken ((if spaced then [' '] else []) ++ line) := by
      refine unbroken_append.2 ⟨?_, hline⟩
      cases spaced
      · exact unbroken_nil
      · exact unbroken_cons.2 ⟨rfl, unbroken_nil⟩
    have hextent := extent_of_token? hne ht
    rw [← List.append_assoc] at hextent
    rcases (Extent.inlineComment_line hborder hfront).1 hextent with hnil | hback
    · exact hne hnil
    · rw [List.getLast?_append, hlast] at hback
      simp at hback

theorem Layout.isChain_unescaped {fresh : Bool} {text : Text} {blocks : List Block}
    (h : Layout language lineStart fresh text blocks) :
    blocks.IsChain fun block _ => block.Unescaped := by
  induction h with
  | @code _ _ text =>
    rw [Block.codeOf]
    split
    · exact List.isChain_nil
    · exact List.isChain_singleton _
  | @doc lineStart fresh read lexeme code rest block blocks hscan hread hdoc htail ih =>
    have hblocks : (block :: blocks).IsChain fun block _ => block.Unescaped := by
      rw [List.isChain_cons]
      refine ⟨fun next hnext => ?_, ih⟩
      have hrest : rest ≠ [] := by
        rintro rfl
        rw [htail.eq_nil] at hnext
        simp at hnext
      exact unescaped_of_doc? (lexeme?_of_read hscan hread hdoc).2 hdoc hrest
    rw [Block.codeOf]
    split
    · exact hblocks
    · exact List.isChain_cons_cons.2 ⟨trivial, hblocks⟩

/-- **A comment of one line with something behind it** has a terminator, and no backslash before
it. -/
theorem terminated_of_mem_dropLast {fresh : Bool} {text indent marker shown : Text} {spaced : Bool}
    (hmem : .inlineDoc indent marker spaced shown ∈
      (language.blocksFrom lineStart fresh text).dropLast)
    (hline : shown.stripTerminator.1.Unbroken) : shown.EndsLine ∧ ¬ shown.Escapes := by
  have hlayout := layout_blocksFrom language lineStart fresh text
  obtain ⟨_, hends, _⟩ := exists_of_mem_dropLast hlayout.isChain hmem
  obtain ⟨_, hunescaped⟩ := exists_of_mem_dropLast hlayout.isChain_unescaped hmem
  exact ⟨hends, hunescaped hline⟩

/-! ### A terminator behind code -/

theorem mem_blocksFrom_of_doc? {fresh : Bool} {text code : Text} {read after : List Lexeme}
    {lexeme : Lexeme} {block : Block}
    (hscan : language.lexemes lineStart text = read ++ lexeme :: after)
    (hread : (withCode fresh []).addAll read = withCode fresh code)
    (hdoc : (withCode fresh code).doc? lexeme = some block) :
    block ∈ language.blocksFrom lineStart fresh text := by
  obtain ⟨front, rfl⟩ := exists_indent_of_doc? hdoc
  rw [blocksFrom, hscan, addAll_append, hread, addAll_cons, add_withCode_of_some hdoc, addAll_after,
    finish_after]
  simp

theorem isSome_doc?_inlineComment (draft : Draft) (marker body : Text) :
    (draft.doc? (.token ⟨.inlineComment marker, body⟩)).isSome =
      (draft.indent?.isSome && (body.head? == some ' ' || body.isEmpty || body.isTerminator)) := by
  simp only [doc?]
  cases draft.indent? with
  | none => rfl
  | some indent =>
    rw [Option.bind_some]
    cases body.head? == some ' ' || body.isEmpty || body.isTerminator <;> rfl

theorem alone_behind_marker (h : language.Orderly) {marker behind body : Text}
    (ht : language.token? lineStart (marker ++ behind) = some ⟨.inlineComment marker, body⟩) :
    (body.head? == some ' ' || body.isEmpty || body.isTerminator) =
      behind.head?.all fun c => c == ' ' || isLineBreak c := by
  obtain ⟨rest, hrest⟩ := (token?_isPrefix ht).2
  rw [Token.text, Opening.text, List.append_assoc] at hrest
  rw [← List.append_cancel_left hrest] at ht ⊢
  rw [← List.append_assoc] at ht
  exact alone_of_token? h ht

theorem exists_doc_of_append_ending (h : language.Orderly) {draft : Draft} {text marker body : Text}
    {ending : LineEnding}
    (hl : language.lexeme? lineStart (text ++ ending.text) =
      some (.token ⟨.inlineComment marker, body⟩))
    (hdoc : (draft.doc? (.token ⟨.inlineComment marker, body⟩)).isSome = true) :
    ∃ lexeme, language.lexeme? lineStart text = some lexeme ∧
      (draft.doc? lexeme).isSome = true := by
  have ht := lexeme?_token.1 hl
  have ho : language.opening? lineStart text = some (.inlineComment marker) := by
    obtain ⟨_, _, ho, _⟩ := token?_eq_some_iff.1 ht
    obtain ⟨b, tail, hending, hb⟩ := exists_cons_ending ending
    rwa [hending, opening?_append_break h hb] at ho
  obtain ⟨behind, rfl⟩ := (opening?_isPrefix ho).2
  have ht' : language.token? lineStart (marker ++ behind) = some ⟨.inlineComment marker,
      behind.take (Opening.extent (.inlineComment marker) behind)⟩ :=
    token?_eq_some_iff.2 ⟨behind, rfl, ho, rfl⟩
  have hsame : (behind ++ ending.text).head?.all (fun c => c == ' ' || isLineBreak c) =
      behind.head?.all fun c => c == ' ' || isLineBreak c := by
    cases behind with
    | nil =>
      obtain ⟨b, tail, hending, hb⟩ := exists_cons_ending ending
      simp [hending, hb]
    | cons c behind => rfl
  rw [List.append_assoc] at ht
  rw [← alone_behind_marker h ht, ← alone_behind_marker h ht'] at hsame
  refine ⟨_, lexeme?_token.2 ht', ?_⟩
  rw [isSome_doc?_inlineComment, hsame] at hdoc
  rw [isSome_doc?_inlineComment, hdoc]

theorem exists_behind_of_token (h : language.Orderly) {code front rest : Text} {token : Token}
    {ending : LineEnding}
    (hplace : code ++ ending.text = front ++ ((Lexeme.token token).text ++ rest))
    (hl : language.lexeme? lineStart ((Lexeme.token token).text ++ rest) = some (.token token)) :
    ∃ behind, behind ≠ [] ∧ front ++ behind = code := by
  obtain ⟨d, more, hd⟩ := List.exists_cons_of_ne_nil
    (List.append_ne_nil_of_left_ne_nil (lexeme?_isPrefix hl).1 rest)
  have hout : d ∉ ending.text := by
    intro hmem
    have hnone := lexeme?_token.1 hl
    rw [hd, token?, opening?_break h (isLineBreak_of_mem_ending hmem)] at hnone
    simp at hnone
  rw [hd] at hplace
  rcases List.append_eq_append_iff.1 hplace with ⟨middle, _, hmiddle⟩ | ⟨behind, hcode, hbehind⟩
  · exact absurd (by rw [hmiddle]; simp) hout
  · refine ⟨behind, ?_, hcode.symm⟩
    rintro rfl
    exact hout (by rw [← List.nil_append ending.text, ← hbehind]; simp)

/-- **Code at the end of a text stays code** when a terminator is put behind it. -/
theorem blocksFrom_append_ending (h : language.Orderly) (hblock : language.blockComments = [])
    {fresh : Bool} {code : Text} {ending : LineEnding} (hcut : ¬ CutsPair code ending.text)
    (hblocks : language.blocksFrom lineStart fresh code = [.code code]) :
    language.blocksFrom lineStart fresh (code ++ ending.text) = [.code (code ++ ending.text)] := by
  have hlayout := layout_blocksFrom language lineStart fresh (code ++ ending.text)
  generalize hall : language.blocksFrom lineStart fresh (code ++ ending.text) = all at hlayout
  generalize htext : code ++ ending.text = text at hlayout hall
  cases hlayout with
  | code =>
    refine Block.codeOf_of_ne_nil ?_
    rw [← htext]
    exact List.append_ne_nil_of_right_ne_nil _ (ending_ne_nil ending)
  | @doc _ _ read lexeme front rest block blocks hscan hread hdoc _ =>
    -- The first comment starts before the terminator, so `code` has it too and is not all code.
    exfalso
    obtain ⟨hcover, hl⟩ := lexeme?_of_read hscan hread hdoc
    have hplace : code ++ ending.text = front ++ block.indent ++ (lexeme.text ++ rest) := by
      rw [htext, source_of_doc? hdoc]
      simp
    obtain ⟨marker, body, rfl⟩ : ∃ marker body, lexeme = .token ⟨.inlineComment marker, body⟩ := by
      rcases doc?_eq_some hdoc with ⟨opener, closer, body, rfl, _⟩ | ⟨_, marker, body, rfl, _⟩
      · have hmem : (opener, closer) ∈ language.blockComments := has_of_token? (lexeme?_token.1 hl)
        rw [hblock] at hmem
        simp at hmem
      · exact ⟨marker, body, rfl⟩
    obtain ⟨behind, hne, hcode⟩ := exists_behind_of_token h hplace hl
    have hcut' : ¬ CutsPair code [] := by simp [CutsPair]
    have hscan' : language.lexemes lineStart (code ++ []) =
        language.lexemes lineStart code ++ [] := by simp
    rw [← htext] at hscan
    obtain ⟨_, more, hmore, _, hl', hl⟩ := exists_lexeme_of_border h (ending_ne_nil ending) hcut'
      hcut hscan' (flatMap_text_lexemes ..) hscan (by rw [hcover, hcode]) hne
    obtain ⟨lexeme, hl'', hdoc'⟩ := exists_doc_of_append_ending h hl (Option.isSome_of_mem hdoc)
    obtain ⟨block', hdoc'⟩ := Option.isSome_iff_exists.1 hdoc'
    rw [List.append_nil, hl''] at hl'
    obtain rfl := Option.some.inj hl'
    have hmem := mem_blocksFrom_of_doc? hmore hread hdoc'
    rw [hblocks, List.mem_singleton] at hmem
    have hnot := isCode_of_doc? hdoc'
    rw [hmem] at hnot
    simp [Block.isCode] at hnot

end Language

end Literate
