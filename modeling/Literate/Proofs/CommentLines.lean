import Literate.Proofs.Borders
import Literate.Proofs.Closings

/-!
# Comments alone on their line

A draft does not look back at the source text.  Whether a comment stands alone on its line it
decides from the code since the last finished block and from a flag about that block.
`Draft.Oriented` says what the flag stands for, and every lexeme but the last one keeps it that way
(`oriented_add`, `oriented_addAll`).  So a draft knows the line that it has come to:

  `draft.indent? = if (lastLine draft.source).isBlank then some (lastLine draft.source) else none`,

and an inline comment is documentation exactly if there are only blanks before it on its line and
its marker is followed by a space or by nothing (`documents_iff`).
-/

namespace Literate

namespace Text

theorem isBlank_reverse (text : Text) : Text.isBlank text.reverse = text.isBlank := by
  rw [isBlank, isBlank, List.all_reverse]

theorem isBlank_lastLine_eq_false {text : Text} {c : Char} (hlast : text.getLast? = some c)
    (hblank : Literate.isBlank c = false) (hbreak : isLineBreak c = false) :
    (lastLine text).isBlank = false := by
  obtain ⟨front, rfl⟩ := List.getLast?_eq_some_iff.1 hlast
  rw [lastLine_append_of_unbroken (unbroken_cons.2 ⟨hbreak, unbroken_nil⟩), isBlank,
    List.all_append, List.all_cons, hblank, Bool.false_and, Bool.and_false]

end Text

namespace Block

open Text

theorem freshAfter_iff {block : Block} : block.freshAfter = true ↔ Ended block.text := by
  rw [freshAfter, Bool.or_eq_true, List.isEmpty_iff, isSome_stripTerminator]
  exact Iff.rfl

/-! ### Places -/

/-- The comment with the given marker and body that stands behind `before` is documentation, and
`indent` is the part of `before` that belongs to its block. -/
def Documents (blocks : List Block) (before indent marker body : Text) : Prop :=
  ∃ earlier spaced text later, blocks = earlier ++ .inlineDoc indent marker spaced text :: later ∧
    sourceOf earlier ++ indent = before ∧ (if spaced then [' '] else []) ++ text = body

/-- The text that stands behind `before` is code, and it is in one block. -/
def Codes (blocks : List Block) (before text : Text) : Prop :=
  ∃ earlier front back later, blocks = earlier ++ .code (front ++ text ++ back) :: later ∧
    sourceOf earlier ++ front = before

variable {blocks : List Block} {before : Text}

theorem eq_or_length_le {earlier earlier' later later' : List Block} {block block' : Block}
    (h : earlier ++ block :: later = earlier' ++ block' :: later') :
    block = block' ∨
      (sourceOf earlier ++ block.source).length ≤ (sourceOf earlier').length ∨
      (sourceOf earlier' ++ block'.source).length ≤ (sourceOf earlier).length := by
  rcases List.append_eq_append_iff.1 h with ⟨middle, rfl, hmiddle⟩ | ⟨middle, rfl, hmiddle⟩
  · cases middle with
    | nil => exact Or.inl (List.cons.inj hmiddle).1
    | cons first middle =>
      obtain ⟨rfl, _⟩ := List.cons.inj hmiddle
      refine Or.inr (Or.inl ?_)
      rw [sourceOf_append, sourceOf_cons]
      simp only [List.length_append]
      omega
  · cases middle with
    | nil => exact Or.inl (List.cons.inj hmiddle).1.symm
    | cons first middle =>
      obtain ⟨rfl, _⟩ := List.cons.inj hmiddle
      refine Or.inr (Or.inr ?_)
      rw [sourceOf_append, sourceOf_cons]
      simp only [List.length_append]
      omega

theorem Codes.length_le {text : Text} (h : Codes blocks before text) {earlier later : List Block}
    {block : Block} (hblocks : blocks = earlier ++ block :: later) (hdoc : block.isCode = false) :
    (sourceOf earlier ++ block.source).length ≤ before.length ∨
      (before ++ text).length ≤ (sourceOf earlier).length := by
  obtain ⟨earlier', front, back, later', hcode, rfl⟩ := h
  rcases eq_or_length_le (hblocks.symm.trans hcode) with rfl | hle | hle
  · simp [isCode] at hdoc
  · left
    rw [List.length_append] at hle ⊢
    rw [List.length_append]
    omega
  · right
    simp only [source, List.length_append] at hle ⊢
    omega

theorem Documents.indent_eq {indent indent' marker body : Text} (hne : marker ≠ [])
    (h : Documents blocks before indent marker body)
    (h' : Documents blocks before indent' marker body) : indent = indent' := by
  obtain ⟨earlier, spaced, text, later, hblocks, hbefore, _⟩ := h
  obtain ⟨earlier', spaced', text', later', hblocks', hbefore', _⟩ := h'
  have hpos := List.length_pos_iff.2 hne
  have hlength := congrArg List.length hbefore
  have hlength' := congrArg List.length hbefore'
  rw [List.length_append] at hlength hlength'
  rcases eq_or_length_le (hblocks.symm.trans hblocks') with hsame | hle | hle
  · exact (Block.inlineDoc.inj hsame).1
  · simp only [source, List.length_append] at hle
    omega
  · simp only [source, List.length_append] at hle
    omega

theorem Codes.not_documents {indent marker body : Text} (hne : marker ≠ [])
    (h : Codes blocks before (marker ++ body)) : ¬ Documents blocks before indent marker body := by
  rintro ⟨earlier, spaced, text, later, hblocks, hbefore, _⟩
  have hpos := List.length_pos_iff.2 hne
  have hlength := congrArg List.length hbefore
  rw [List.length_append] at hlength
  rcases h.length_le hblocks rfl with hle | hle
  · simp only [source, List.length_append] at hle
    omega
  · simp only [List.length_append] at hle
    omega

end Block

namespace Draft

open Text

variable {draft : Draft}

/-- The draft knows where it stands: the last finished block is documentation, and the flag tells
whether it ended its line or left something on it that is no blank. -/
structure Oriented (draft : Draft) : Prop where
  doc : ∀ block ∈ draft.blocks.head?, block.isCode = false
  ended : draft.freshLine = true → Ended (Block.sourceOf draft.blocks.reverse)
  occupied : draft.freshLine = false → ∃ c,
    (Block.sourceOf draft.blocks.reverse).getLast? = some c ∧ isBlank c = false ∧
      isLineBreak c = false

theorem oriented_withCode (code : Text) : (withCode true code).Oriented where
  doc := by
    intro block hblock
    simp [withCode] at hblock
  ended := fun _ => Or.inl rfl
  occupied := by
    intro hfresh
    simp [withCode] at hfresh

/-- **An oriented draft knows its line.** -/
theorem Oriented.indent?_eq (h : draft.Oriented) :
    draft.indent? =
      if (lastLine draft.source).isBlank then some (lastLine draft.source) else none := by
  have hline : lastLine draft.pending.reverse = draft.currentLine.reverse := by
    rw [lastLine, List.reverse_reverse]
    rfl
  rw [indent?, source]
  by_cases hbreak : draft.pending.any isLineBreak = true
  · obtain ⟨c, hc, hc'⟩ := List.any_eq_true.1 hbreak
    rw [lastLine_append_of_mem (List.mem_reverse.2 hc) hc', hline, isBlank_reverse, hbreak]
    rfl
  · have hunbroken : Unbroken draft.pending.reverse := by
      intro c hc
      rw [Bool.eq_false_iff]
      intro hc'
      exact hbreak (List.any_eq_true.2 ⟨c, List.mem_reverse.1 hc, hc'⟩)
    rw [lastLine_append_of_unbroken hunbroken]
    cases hfresh : draft.freshLine with
    | true =>
      have hall : draft.currentLine.reverse = draft.pending.reverse := by
        rw [← hline]
        exact lastLine_append_of_unbroken hunbroken []
      rw [lastLine_of_ended (h.ended hfresh), List.nil_append, hall, ← hall, isBlank_reverse,
        Bool.or_true, Bool.true_and]
    | false =>
      obtain ⟨c, hlast, hblank, hbreak'⟩ := h.occupied hfresh
      have hno := isBlank_lastLine_eq_false hlast hblank hbreak'
      rw [Bool.not_eq_true] at hbreak
      rw [Text.isBlank] at hno
      rw [hbreak, Text.isBlank, Text.isBlank, List.all_append, hno]
      rfl

theorem exists_finish_of_doc? {lexeme : Lexeme} {block : Block}
    (h : draft.doc? lexeme = some block) (later : List Lexeme) :
    ∃ earlier rest, ((draft.add lexeme).addAll later).finish = earlier ++ block :: rest ∧
      Block.sourceOf earlier ++ block.indent = draft.source := by
  obtain ⟨fresh, code, blocks, rfl⟩ := exists_eq_after draft
  rw [doc?_after] at h
  obtain ⟨front, rfl⟩ := exists_indent_of_doc? h
  refine ⟨blocks.reverse ++ Block.codeOf front,
    ((withCode block.freshAfter []).addAll later).finish, ?_, ?_⟩
  · rw [add_after, addAll_after, finish_after, add_withCode_of_some h, addAll_after, finish_after]
    simp
  · rw [Block.sourceOf_append, Block.sourceOf_codeOf, source_after, source_withCode,
      List.append_assoc]

/-- A lexeme that is code is found in one block, up to a character that is no blank. -/
theorem codes_of_doc?_eq_none {lexeme : Lexeme} (h : draft.doc? lexeme = none) {kept tail : Text}
    {c : Char} (hc : isBlank c = false) (htext : lexeme.text = kept ++ c :: tail)
    (later : List Lexeme) :
    Block.Codes ((draft.add lexeme).addAll later).finish draft.source (kept ++ [c]) := by
  obtain ⟨fresh, code, blocks, rfl⟩ := exists_eq_after draft
  rw [doc?_after] at h
  obtain ⟨back, later', hfinish, _⟩ := exists_finish_addAll hc fresh later tail
  refine ⟨blocks.reverse, code, back, later', ?_, ?_⟩
  · rw [finish_add_of_none h, htext, ← List.append_assoc, hfinish]
    simp
  · rw [source_after, source_withCode]

theorem codes_of_last {lexeme : Lexeme} (h : draft.doc? lexeme = none) (hne : lexeme.text ≠ []) :
    Block.Codes (draft.add lexeme).finish draft.source lexeme.text := by
  obtain ⟨fresh, code, blocks, rfl⟩ := exists_eq_after draft
  rw [doc?_after] at h
  refine ⟨blocks.reverse, code, [], [], ?_, ?_⟩
  · have hfinish := finish_add_of_none h blocks []
    rw [addAll_nil, addAll_nil, finish_withCode, Block.codeOf_of_ne_nil (by simp [hne])] at hfinish
    rw [hfinish, List.append_nil]
  · rw [source_after, source_withCode]

end Draft

namespace Extent

open Text

theorem isTerminator_take_inlineComment (text : Text) :
    Text.isTerminator (text.take (inlineComment false text)) = text.head?.any isLineBreak := by
  fun_cases inlineComment false text with
  | case1 => rfl
  | case2 rest h => simp at h
  | case3 rest h => rfl
  | case4 c rest _ hbreak h => simp at h
  | case5 c rest hpair hbreak h =>
    rcases isLineBreak_iff.1 hbreak with rfl | rfl
    · rfl
    · rfl
  | case6 c rest hpair hbreak =>
    rw [Nat.add_comm, List.take_succ_cons, List.head?_cons, Option.any_some, Bool.eq_iff_iff,
      Block.isTerminator_iff]
    refine iff_of_false ?_ hbreak
    rintro ⟨ending, hending⟩
    cases ending with
    | lf | crlf | cr =>
      obtain ⟨rfl, _⟩ := List.cons.inj hending
      exact hbreak rfl

end Extent

namespace Language

open Draft Text

variable {language : Language} {lineStart : Bool} {draft : Draft}

/-! ### Orientation -/

/-- A block of documentation with a text behind it ends its line, or ends with a character that is
no blank, and its flag says which. -/
theorem endsLine_or_of_doc? (h : language.Orderly) {lexeme : Lexeme} {rest : Text} {block : Block}
    (hl : language.lexeme? lineStart (lexeme.text ++ rest) = some lexeme) (hne : rest ≠ [])
    (hdoc : draft.doc? lexeme = some block) :
    lexeme.text.EndsLine ∧ block.freshAfter = true ∨
      (∃ c, lexeme.text.getLast? = some c ∧ isBlank c = false ∧ isLineBreak c = false) ∧
        block.freshAfter = false := by
  rcases doc?_eq_some hdoc with ⟨opener, closer, body, rfl, rfl⟩ |
    ⟨indent, marker, body, rfl, _, hbody⟩
  · have ht := lexeme?_token.1 hl
    have hopener := (h.blockComments _ (has_of_token? ht)).1
    by_cases hends : EndsLine (opener ++ body)
    · exact Or.inl ⟨hends, Block.freshAfter_iff.2 (Or.inr hends)⟩
    · have hwhole : opener ++ body ≠ [] := by
        intro hnil
        exact hopener.1 (List.append_eq_nil_iff.1 hnil).1
      obtain ⟨c, hlast⟩ : ∃ c, (opener ++ body).getLast? = some c :=
        ⟨_, List.getLast?_eq_some_getLast hwhole⟩
      have hbreak : isLineBreak c = false := by
        rw [Bool.eq_false_iff]
        intro hbreak
        exact hends ⟨c, hlast, hbreak⟩
      refine Or.inr ⟨⟨c, hlast, ?_, hbreak⟩, ?_⟩
      · by_cases hnil : body = []
        · rw [hnil, List.append_nil] at hlast
          exact (hopener.2 c (List.mem_of_getLast? hlast)).2.1
        · rw [List.getLast?_append_of_ne_nil _ hnil] at hlast
          rw [Bool.eq_false_iff]
          intro hblank
          obtain ⟨_, _, _, hheredoc⟩ := heredoc_of_isBlank h ht hne hlast hblank
          simp at hheredoc
      · rw [Bool.eq_false_iff, Ne, Block.freshAfter_iff]
        rintro (hnil | hends')
        · exact hwhole hnil
        · exact hends hends'
  · have hends := (inlineComment_of_token? (lexeme?_token.1 hl)).1 hne
    refine Or.inl ⟨(endsLine_append_of_ne_nil hends.ne_nil).2 hends, Block.freshAfter_iff.2 ?_⟩
    rcases hbody with ⟨text, rfl, rfl⟩ | ⟨_, rfl⟩
    · exact Ended.of_cons (Or.inr hends)
    · exact Or.inr hends

/-- **A lexeme keeps a draft oriented**, if there is a text behind it. -/
theorem oriented_add (h : language.Orderly) (hdraft : draft.Oriented) {lexeme : Lexeme}
    {rest : Text} (hl : language.lexeme? lineStart (lexeme.text ++ rest) = some lexeme)
    (hne : rest ≠ []) : (draft.add lexeme).Oriented := by
  cases hdoc : draft.doc? lexeme with
  | none =>
    rw [add_of_doc?_eq_none hdoc]
    exact ⟨hdraft.doc, hdraft.ended, hdraft.occupied⟩
  | some block =>
    have hadd := add_of_doc?_eq_some hdoc
    have hsource : Block.sourceOf (draft.add lexeme).blocks.reverse =
        draft.source ++ lexeme.text := by
      have hpending : (draft.add lexeme).pending = [] := by
        rw [hadd]
        rfl
      have hgrown := source_add draft lexeme
      rw [source, hpending, List.reverse_nil, List.append_nil] at hgrown
      exact hgrown
    have hfresh : (draft.add lexeme).freshLine = block.freshAfter := by
      rw [hadd]
      rfl
    have htext := (lexeme?_isPrefix hl).1
    refine ⟨?_, ?_, ?_⟩
    · intro first hfirst
      rw [hadd] at hfirst
      obtain rfl : block = first := Option.some.inj hfirst
      exact isCode_of_doc? hdoc
    · intro hset
      rcases endsLine_or_of_doc? h hl hne hdoc with ⟨hends, _⟩ | ⟨_, hnot⟩
      · rw [hsource]
        exact Or.inr ((endsLine_append_of_ne_nil htext).2 hends)
      · rw [hfresh, hnot] at hset
        simp at hset
    · intro hunset
      rcases endsLine_or_of_doc? h hl hne hdoc with ⟨_, hset⟩ | ⟨⟨c, hlast, hc⟩, _⟩
      · rw [hfresh, hset] at hunset
        simp at hunset
      · rw [hsource]
        exact ⟨c, by rw [List.getLast?_append_of_ne_nil _ htext, hlast], hc⟩

/-- **At every border with a text behind it, a draft is oriented.** -/
theorem oriented_addAll (h : language.Orderly) {after : List Lexeme} (hafter : after ≠ []) :
    ∀ (before : List Lexeme) (lineStart : Bool) (text : Text) (draft : Draft), draft.Oriented →
      language.lexemes lineStart text = before ++ after → (draft.addAll before).Oriented := by
  intro before
  induction before with
  | nil =>
    intro lineStart text draft hdraft _
    exact hdraft
  | cons first before ih =>
    intro lineStart text draft hdraft hscan
    obtain ⟨rest, rfl, hl, hrest⟩ := exists_rest_of_lexemes_eq_cons hscan
    have hne : rest ≠ [] := by
      rintro rfl
      rw [lexemes_nil] at hrest
      exact hafter (List.append_eq_nil_iff.1 hrest).2
    rw [addAll_cons]
    exact ih _ rest _ (oriented_add h hdraft hl hne) hrest.symm

/-- **The draft that comes to a token**, and what becomes of it. -/
theorem exists_draft_of_finds (h : language.Orderly) {source before : Text} {token : Token}
    (hfinds : language.Finds source before token) :
    ∃ (draft : Draft) (rest : Text), draft.Oriented ∧ draft.source = before ∧
      source = before ++ (token.text ++ rest) ∧
      language.token? (lineStartAfter true before) (token.text ++ rest) = some token ∧
      classify language source = ((draft.add (.token token)).addAll
        (language.lexemes (lineStartAfter true (before ++ token.text)) rest)).finish := by
  obtain ⟨behind, rfl⟩ := exists_behind_of_finds hfinds
  obtain ⟨lexemes, hcover, ht, hscan⟩ := exists_lexemes_of_finds hfinds
  refine ⟨(withCode true []).addAll lexemes, behind, ?_, ?_, rfl, ht, ?_⟩
  · exact oriented_addAll h (List.cons_ne_nil _ _) lexemes true _ _ (oriented_withCode []) hscan
  · rw [source_addAll, source_withCode, hcover, List.nil_append]
  · rw [classify_eq_blocksFrom, blocksFrom, hscan, addAll_append, addAll_cons]

/-! ### Inline comments -/

theorem alone_of_token? (h : language.Orderly) {marker body rest : Text}
    (ht : language.token? lineStart (marker ++ body ++ rest) = some ⟨.inlineComment marker, body⟩) :
    (body.head? == some ' ' || body.isEmpty || body.isTerminator) =
      (body ++ rest).head?.all fun c => c == ' ' || isLineBreak c := by
  have hmarker := h.inlineComments marker (has_of_token? ht)
  have hback : (marker.getLast? == some '\\') = false := by
    rw [beq_eq_false_iff_ne]
    intro hlast
    exact (hmarker.2 '\\' (List.mem_of_getLast? hlast)).2.2 rfl
  have hbody := (@token?_text_append_iff _ _ ⟨.inlineComment marker, body⟩ rest).1 ht |>.2
  simp only [Opening.extent, hback] at hbody
  generalize body ++ rest = behind at hbody ⊢
  rw [hbody, Extent.isTerminator_take_inlineComment]
  cases behind with
  | nil => rfl
  | cons c behind =>
    obtain ⟨n, hn⟩ := Nat.exists_eq_succ_of_ne_zero
      (Nat.ne_of_gt (Extent.inlineComment_pos false (List.cons_ne_nil c behind)))
    rw [hn, List.take_succ_cons]
    simp

theorem doc?_inlineComment (hdraft : draft.Oriented) (marker body : Text) :
    draft.doc? (.token ⟨.inlineComment marker, body⟩) =
      if (lastLine draft.source).isBlank &&
          (body.head? == some ' ' || body.isEmpty || body.isTerminator) then
        some (.inlineDoc (lastLine draft.source) marker (body.head? == some ' ')
          (if body.head? == some ' ' then body.drop 1 else body))
      else none := by
  simp only [doc?]
  rw [hdraft.indent?_eq]
  cases (lastLine draft.source).isBlank with
  | true => rfl
  | false => rfl

theorem codes_of_inlineComment {marker body rest : Text}
    (ht : language.token? lineStart (marker ++ body ++ rest) = some ⟨.inlineComment marker, body⟩)
    (hdoc : draft.doc? (.token ⟨.inlineComment marker, body⟩) = none) (lineStart' : Bool) :
    Block.Codes ((draft.add (.token ⟨.inlineComment marker, body⟩)).addAll
      (language.lexemes lineStart' rest)).finish draft.source (marker ++ body) := by
  by_cases hrest : rest = []
  · subst hrest
    exact codes_of_last hdoc (token?_isPrefix ht).1
  · obtain ⟨c, hlast, hbreak⟩ := (inlineComment_of_token? ht).1 hrest
    obtain ⟨front, rfl⟩ := List.getLast?_eq_some_iff.1 hlast
    have htext : (Lexeme.token ⟨.inlineComment marker, front ++ [c]⟩).text =
        (marker ++ front) ++ c :: [] := (List.append_assoc ..).symm
    have hcodes := codes_of_doc?_eq_none hdoc (not_isBlank_of_isLineBreak hbreak) htext
      (language.lexemes lineStart' rest)
    rwa [List.append_assoc] at hcodes

/-- **An inline comment is documentation exactly if it stands alone on its line**: there are only
blanks before it, and its marker is followed by a space, by a line break or by the end of the text.
Those blanks are its indent, and no part of them stays in the code.  Otherwise the whole comment is
code. -/
theorem documents_iff (h : language ∈ table) {front marker body behind : Text}
    (hfinds : language.Finds (front ++ marker ++ behind) front ⟨.inlineComment marker, body⟩) :
    ((∃ indent, Block.Documents (classify language (front ++ marker ++ behind)) front indent marker
        body) ↔
      front.lastLine.isBlank = true ∧
        (behind.head?.all fun c => c == ' ' || isLineBreak c) = true) ∧
    (∀ indent, Block.Documents (classify language (front ++ marker ++ behind)) front indent marker
      body → indent = front.lastLine) ∧
    ((¬ ∃ indent, Block.Documents (classify language (front ++ marker ++ behind)) front indent
        marker body) →
      Block.Codes (classify language (front ++ marker ++ behind)) front (marker ++ body)) := by
  have horderly := orderly_of_mem_table h
  obtain ⟨draft, rest, hdraft, hsource, htext, ht, hblocks⟩ := exists_draft_of_finds horderly hfinds
  have hne : marker ≠ [] := (horderly.inlineComments marker (has_of_token? ht)).1
  have hbehind : behind = body ++ rest := by
    rw [List.append_assoc] at htext
    have := List.append_cancel_left htext
    rw [Token.text, List.append_assoc] at this
    exact List.append_cancel_left this
  have hdoc := doc?_inlineComment hdraft marker body
  rw [hsource, alone_of_token? horderly ht, ← hbehind] at hdoc
  rw [hblocks]
  by_cases hyes : front.lastLine.isBlank = true ∧
      (behind.head?.all fun c => c == ' ' || isLineBreak c) = true
  · rw [if_pos (by rw [hyes.1, hyes.2]; rfl)] at hdoc
    obtain ⟨earlier, later, hfinish, hfront⟩ := exists_finish_of_doc? hdoc
      (language.lexemes (lineStartAfter true (front ++ (marker ++ body))) rest)
    rw [hsource] at hfront
    have hbody : (if (body.head? == some ' ') = true then [' '] else []) ++
        (if (body.head? == some ' ') = true then body.drop 1 else body) = body := by
      cases body with
      | nil => rfl
      | cons c body => by_cases hc : c = ' ' <;> simp [hc]
    have hdocuments : Block.Documents _ front front.lastLine marker body :=
      ⟨earlier, _, _, later, hfinish, hfront, hbody⟩
    refine ⟨iff_of_true ⟨_, hdocuments⟩ hyes, ?_, fun hnone => absurd ⟨_, hdocuments⟩ hnone⟩
    intro indent hindent
    exact hindent.indent_eq hne hdocuments
  · rw [if_neg (by rwa [Bool.and_eq_true])] at hdoc
    have hcodes := codes_of_inlineComment ht hdoc (lineStartAfter true (front ++ (marker ++ body)))
    rw [hsource] at hcodes
    refine ⟨iff_of_false ?_ hyes, ?_, fun _ => hcodes⟩
    · rintro ⟨indent, hindent⟩
      exact hcodes.not_documents hne hindent
    · intro indent hindent
      exact absurd hindent (hcodes.not_documents hne)

/-- Behind a block comment an inline comment is code, and on a line of its own it is
documentation. -/
theorem documents_iff_javascript :
    Block.Codes (classify .javascript ("/* a */ ".toList ++ "//".toList ++ " b\n  // c\n".toList))
        "/* a */ " ("//".toList ++ " b\n".toList) ∧
      ∃ indent, Block.Documents
        (classify .javascript ("/* a */ // b\n  ".toList ++ "//".toList ++ " c\n".toList))
        "/* a */ // b\n  " indent "//" " c\n" := by
  constructor
  · have hcode : Language.javascript.Finds
        ("/* a */ ".toList ++ "//".toList ++ " b\n  // c\n".toList) "/* a */ "
        ⟨.inlineComment "//", " b\n"⟩ := by decide
    have hiff := documents_iff (by decide) hcode
    exact hiff.2.2 (mt hiff.1.1 (by decide))
  · have hdoc : Language.javascript.Finds
        ("/* a */ // b\n  ".toList ++ "//".toList ++ " c\n".toList) "/* a */ // b\n  "
        ⟨.inlineComment "//", " c\n"⟩ := by decide
    exact (documents_iff (by decide) hdoc).1.2 (by decide)

end Language

end Literate
