import Literate.Proofs.Neighbours
import Mathlib.Data.List.Infix

/-!
# Borders between blocks

Code that ends its line has no influence on how the text behind it is classified, but that the two
grow together if there is code on both sides: `finish_addAll_withCode_append`, where
`Block.prepend code` puts code before blocks.  So the blocks of a text can be found in two steps,

  `blocksFrom lineStart true (code ++ rest) = prepend code (blocksFrom lineStart' true rest)`,

provided that the scan of the whole text has a border behind `code`.  `Aligned` says that it has one
before every block.  It need not: a token may reach into the blanks before a comment.
-/

namespace Literate

namespace Block

/-- Put code before blocks.  It grows together with code. -/
def prepend (code : Text) : List Block → List Block
  | .code text :: blocks => .code (code ++ text) :: blocks
  | blocks => codeOf code ++ blocks

theorem prepend_of_isCode_eq_false {block : Block} (h : block.isCode = false) (code : Text)
    (blocks : List Block) : prepend code (block :: blocks) = codeOf code ++ block :: blocks := by
  cases block with
  | code => simp [isCode] at h
  | inlineDoc => rfl
  | blockDoc => rfl

theorem prepend_codeOf {code : Text} (h : code ≠ []) (text : Text) :
    prepend code (codeOf text) = codeOf (code ++ text) := by
  by_cases ht : text = []
  · subst ht
    simp [prepend]
  · rw [codeOf_of_ne_nil ht, codeOf_of_ne_nil (by simp [h])]
    rfl

theorem eq_of_prepend_eq {code : Text} (hne : code ≠ []) {blocks blocks' : List Block}
    (hcode : ∀ text, .code text ∈ blocks → text ≠ [])
    (h : prepend code blocks = .code code :: blocks') : blocks = blocks' := by
  cases blocks with
  | nil =>
    have h : codeOf code ++ [] = .code code :: blocks' := h
    rw [codeOf_of_ne_nil hne] at h
    exact (List.cons.inj h).2
  | cons block blocks =>
    cases block with
    | code text =>
      have htext := hcode text (List.mem_cons_self ..)
      rw [prepend] at h
      have := Block.code.inj (List.cons.inj h).1
      exact absurd (List.append_right_eq_self.1 this) htext
    | inlineDoc =>
      rw [prepend_of_isCode_eq_false rfl, codeOf_of_ne_nil hne] at h
      exact (List.cons.inj h).2
    | blockDoc =>
      rw [prepend_of_isCode_eq_false rfl, codeOf_of_ne_nil hne] at h
      exact (List.cons.inj h).2

end Block

namespace Draft

open Text

theorem isCode_of_doc? {draft : Draft} {lexeme : Lexeme} {block : Block}
    (h : draft.doc? lexeme = some block) : block.isCode = false := by
  rcases doc?_eq_some h with ⟨_, _, _, _, rfl⟩ | ⟨_, _, _, _, _, ⟨_, _, rfl⟩ | ⟨_, rfl⟩⟩
  · rfl
  · rfl
  · rfl

theorem doc?_congr {draft draft' : Draft} (h : draft.indent? = draft'.indent?) (lexeme : Lexeme) :
    draft.doc? lexeme = draft'.doc? lexeme := by
  unfold doc?
  rw [h]

theorem indent?_withCode_append {code : Text} (h : code.EndsLine) (fresh : Bool) (more : Text) :
    (withCode fresh (code ++ more)).indent? = (withCode true more).indent? := by
  refine Option.ext fun indent => ?_
  rw [indent?_withCode, indent?_withCode]
  constructor
  · rintro ⟨front, heq, hblank, hfront⟩
    rcases List.append_eq_append_iff.1 heq with ⟨middle, rfl, rfl⟩ | ⟨middle, rfl, rfl⟩
    · refine ⟨middle, rfl, hblank, ?_⟩
      by_cases hm : middle = []
      · exact Or.inr ⟨hm, rfl⟩
      · left
        rcases hfront with hends | ⟨hnil, _⟩
        · exact (endsLine_append_of_ne_nil hm).1 hends
        · exact absurd (List.append_eq_nil_iff.1 hnil).2 hm
    · -- The indent would hold the line break at the end of the code.
      by_cases hm : middle = []
      · subst hm
        exact ⟨[], rfl, hblank, Or.inr ⟨rfl, rfl⟩⟩
      · have hunbroken := (unbroken_append.1 (unbroken_of_isBlank hblank)).1
        exact absurd ((endsLine_append_of_ne_nil hm).1 h) hunbroken.not_endsLine
  · rintro ⟨front, rfl, hblank, hfront⟩
    refine ⟨code ++ front, by simp, hblank, Or.inl ?_⟩
    rcases hfront with hends | ⟨rfl, _⟩
    · exact (endsLine_append_of_ne_nil hends.ne_nil).2 hends
    · rwa [List.append_nil]

/-- **Code that ends its line is only put before what follows.** -/
theorem finish_addAll_withCode_append {code : Text} (h : code.EndsLine) (fresh : Bool) :
    ∀ (lexemes : List Lexeme) (more : Text),
      ((withCode fresh (code ++ more)).addAll lexemes).finish =
        Block.prepend code ((withCode true more).addAll lexemes).finish := by
  intro lexemes
  induction lexemes with
  | nil =>
    intro more
    rw [addAll_nil, addAll_nil, finish_withCode, finish_withCode, Block.prepend_codeOf h.ne_nil]
  | cons lexeme lexemes ih =>
    intro more
    have hsame := doc?_congr (indent?_withCode_append h fresh more) lexeme
    rw [addAll_cons, addAll_cons]
    cases hdoc : (withCode true more).doc? lexeme with
    | none =>
      rw [add_withCode_of_none hdoc, add_withCode_of_none (hsame.trans hdoc), List.append_assoc, ih]
    | some block =>
      obtain ⟨front, rfl⟩ := exists_indent_of_doc? hdoc
      have hdoc' := hsame.trans hdoc
      rw [← List.append_assoc] at hdoc' ⊢
      rw [add_withCode_of_some hdoc, add_withCode_of_some hdoc', addAll_after, addAll_after,
        finish_after, finish_after, List.reverse_cons, List.reverse_cons, List.reverse_reverse,
        List.reverse_reverse, List.append_assoc, List.append_assoc, List.singleton_append]
      by_cases hf : front = []
      · subst hf
        rw [List.append_nil, Block.codeOf_nil, List.nil_append,
          Block.prepend_of_isCode_eq_false (isCode_of_doc? hdoc)]
      · rw [Block.codeOf_of_ne_nil hf, Block.codeOf_of_ne_nil (by simp [hf])]
        rfl

theorem addAll_eq_withCode_of_append {fresh : Bool} {code' : Text} {later : List Lexeme} :
    ∀ (lexemes : List Lexeme) (code : Text),
      (withCode fresh code).addAll (lexemes ++ later) = withCode fresh code' →
      (withCode fresh code).addAll lexemes =
        withCode fresh (code ++ lexemes.flatMap Lexeme.text) := by
  intro lexemes
  induction lexemes with
  | nil => intro code _; simp
  | cons lexeme lexemes ih =>
    intro code h
    rw [List.cons_append, addAll_cons] at h
    cases hdoc : (withCode fresh code).doc? lexeme with
    | none =>
      rw [add_withCode_of_none hdoc] at h
      rw [addAll_cons, add_withCode_of_none hdoc, ih _ h, List.flatMap_cons, List.append_assoc]
    | some block =>
      obtain ⟨front, rfl⟩ := exists_indent_of_doc? hdoc
      rw [add_withCode_of_some hdoc, addAll_after] at h
      have := congrArg Draft.blocks h
      simp [after, withCode] at this

theorem isBlank_indent_of_doc? {fresh : Bool} {text : Text} {lexeme : Lexeme} {block : Block}
    (h : (withCode fresh text).doc? lexeme = some block) : block.indent.isBlank = true := by
  rcases doc?_eq_some h with ⟨_, _, _, _, rfl⟩ | ⟨indent, _, _, _, hi, ⟨_, _, rfl⟩ | ⟨_, rfl⟩⟩
  · rfl
  · exact (indent?_withCode.1 hi).choose_spec.2.1
  · exact (indent?_withCode.1 hi).choose_spec.2.1

theorem exists_cons_of_eq_append {code indent : Text} (front : Text) {more : Text} {c : Char}
    (hc : isBlank c = false) (hindent : indent.isBlank = true)
    (h : front ++ c :: more = code ++ indent) :
    ∃ tail, code = front ++ c :: tail ∧ more = tail ++ indent := by
  have hnot : c ∉ indent := by
    intro hmem
    rw [Text.isBlank, List.all_eq_true] at hindent
    rw [hindent c hmem] at hc
    simp at hc
  rcases List.append_eq_append_iff.1 h with ⟨middle, rfl, hmiddle⟩ | ⟨middle, _, rfl⟩
  · cases middle with
    | nil =>
      rw [List.nil_append] at hmiddle
      exact absurd (hmiddle ▸ List.mem_cons_self ..) hnot
    | cons d middle =>
      obtain ⟨rfl, rfl⟩ := List.cons.inj hmiddle
      exact ⟨middle, rfl, rfl⟩
  · exact absurd (List.mem_append_right _ (List.mem_cons_self ..)) hnot

theorem indent?_withCode_cons {c : Char} (hc : isBlank c = false) (fresh : Bool)
    (front more : Text) :
    (withCode fresh (front ++ c :: more)).indent? = (withCode fresh (c :: more)).indent? := by
  refine Option.ext fun indent => ?_
  rw [indent?_withCode, indent?_withCode]
  constructor
  · rintro ⟨code, heq, hblank, hcode⟩
    obtain ⟨tail, rfl, rfl⟩ := exists_cons_of_eq_append front hc hblank heq
    refine ⟨c :: tail, rfl, hblank, Or.inl ?_⟩
    rcases hcode with hends | ⟨hnil, _⟩
    · exact (endsLine_append_of_ne_nil (List.cons_ne_nil c tail)).1 hends
    · simp at hnil
  · rintro ⟨code, heq, hblank, hcode⟩
    obtain ⟨tail, rfl, rfl⟩ := exists_cons_of_eq_append [] hc hblank heq
    refine ⟨front ++ c :: tail, by simp, hblank, Or.inl ?_⟩
    rcases hcode with hends | ⟨hnil, _⟩
    · exact (endsLine_append_of_ne_nil (List.cons_ne_nil c tail)).2 hends
    · simp at hnil

/-- **What stands before a character that is no blank stays in the first block**, and has no other
part in the blocks.  What stands behind it stays there as well, but for the indent of a comment. -/
theorem exists_finish_addAll {c : Char} (hc : isBlank c = false) (fresh : Bool) :
    ∀ (lexemes : List Lexeme) (more : Text), ∃ back blocks,
      (∀ front, ((withCode fresh (front ++ c :: more)).addAll lexemes).finish =
        .code (front ++ c :: back) :: blocks) ∧
      (more <+: back ∨ ∃ cut block later, cut ≠ [] ∧ more = back ++ cut ∧
        blocks = block :: later ∧ cut <+: block.indent ∧ EndsLine (c :: back)) := by
  intro lexemes
  induction lexemes with
  | nil =>
    intro more
    refine ⟨more, [], ?_, Or.inl (List.prefix_refl more)⟩
    intro front
    rw [addAll_nil, finish_withCode, Block.codeOf_of_ne_nil (by simp)]
  | cons lexeme lexemes ih =>
    intro more
    have hsame : ∀ front, (withCode fresh (front ++ c :: more)).doc? lexeme =
        (withCode fresh (c :: more)).doc? lexeme := fun front =>
      doc?_congr (indent?_withCode_cons hc fresh front more) lexeme
    cases hdoc : (withCode fresh (c :: more)).doc? lexeme with
    | none =>
      obtain ⟨back, blocks, hfinish, hback⟩ := ih (more ++ lexeme.text)
      refine ⟨back, blocks, ?_, ?_⟩
      · intro front
        rw [addAll_cons, add_withCode_of_none ((hsame front).trans hdoc), List.append_assoc,
          List.cons_append, hfinish]
      · rcases hback with hback | ⟨cut, block, later, hne, hmore, hblocks, hcut, hends⟩
        · exact Or.inl ((List.prefix_append ..).trans hback)
        · -- A part of the cut may already have stood there.
          rcases List.append_eq_append_iff.1 hmore with ⟨rest, rfl, _⟩ | ⟨rest, rfl, rfl⟩
          · exact Or.inl (List.prefix_append ..)
          · by_cases hrest : rest = []
            · subst hrest
              exact Or.inl (by simp)
            · exact Or.inr ⟨rest, block, later, hrest, rfl, hblocks,
                (List.prefix_append ..).trans hcut, hends⟩
    | some block =>
      have hblank := isBlank_indent_of_doc? hdoc
      obtain ⟨code, heq⟩ := exists_indent_of_doc? hdoc
      obtain ⟨back, rfl, rfl⟩ := exists_cons_of_eq_append [] hc hblank heq
      have hfinish : ∀ front, ((withCode fresh (front ++ c :: (back ++ block.indent))).addAll
          (lexeme :: lexemes)).finish = .code (front ++ c :: back) ::
            block :: ((withCode block.freshAfter []).addAll lexemes).finish := by
        intro front
        have hdoc' := (hsame front).trans hdoc
        rw [← List.cons_append, ← List.append_assoc] at hdoc' ⊢
        rw [addAll_cons, add_withCode_of_some hdoc', addAll_after, finish_after,
          List.reverse_cons, List.reverse_reverse, Block.codeOf_of_ne_nil (by simp)]
        rfl
      refine ⟨back, _, hfinish, ?_⟩
      by_cases hindent : block.indent = []
      · exact Or.inl (by simp [hindent])
      · refine Or.inr ⟨block.indent, block, _, hindent, rfl, rfl, List.prefix_refl _, ?_⟩
        cases block with
        | code => exact absurd rfl hindent
        | blockDoc => exact absurd rfl hindent
        | inlineDoc indent marker spaced text =>
          rw [← List.cons_append] at hdoc
          exact Language.endsLine_of_doc? (List.cons_ne_nil c back) hdoc

theorem exists_code_of_finish {fresh : Bool} {front : Text} {c : Char}
    (hc : isBlank c = false) (lexemes : List Lexeme) (behind : Text) : ∃ text blocks,
      ((withCode fresh (front ++ c :: behind)).addAll lexemes).finish = .code text :: blocks ∧
        front ++ [c] <+: text := by
  obtain ⟨back, blocks, hfinish, _⟩ := exists_finish_addAll hc fresh lexemes behind
  exact ⟨front ++ c :: back, blocks, hfinish front, ⟨back, by simp⟩⟩

end Draft

namespace Language

open Draft Text

variable {language : Language} {lineStart fresh : Bool}

/-! ### The first block -/

theorem exists_rest_of_doc {text : Text} {block : Block} {blocks : List Block}
    (h : language.blocksFrom lineStart fresh text = block :: blocks)
    (hcode : block.isCode = false) :
    ∃ read rest, text = block.source ++ rest ∧ read.flatMap Lexeme.text = block.source ∧
      language.lexemes lineStart text =
        read ++ language.lexemes (block.source.lineStartAfter lineStart) rest ∧
      language.blocksFrom (block.source.lineStartAfter lineStart) block.freshAfter rest =
        blocks := by
  have hlayout := layout_blocksFrom language lineStart fresh text
  rw [h] at hlayout
  generalize hblocks : block :: blocks = all at hlayout
  cases hlayout with
  | code =>
    rw [Block.codeOf] at hblocks
    split at hblocks
    · simp at hblocks
    · obtain ⟨rfl, -⟩ := List.cons.inj hblocks
      simp [Block.isCode] at hcode
  | @doc _ _ read lexeme code rest doc docs hscan hread hdoc htail =>
    by_cases hc : code = []
    · subst hc
      obtain ⟨rfl, rfl⟩ := List.cons.inj hblocks
      simp only [List.nil_append] at hscan hread hdoc htail ⊢
      refine ⟨read ++ [lexeme], rest, rfl, ?_, by rw [hscan]; simp, htail.eq_blocksFrom⟩
      have hsource := source_addAll (withCode fresh []) read
      rw [hread, source_withCode, source_withCode, List.nil_append] at hsource
      rw [List.flatMap_append, ← hsource, source_of_doc? hdoc]
      simp
    · rw [Block.codeOf_of_ne_nil hc] at hblocks
      obtain ⟨rfl, -⟩ := List.cons.inj hblocks
      simp [Block.isCode] at hcode

theorem exists_read_of_code_cons {text code : Text} {block : Block} {blocks : List Block}
    (h : language.blocksFrom lineStart fresh text = .code code :: block :: blocks) :
    ∃ read lexeme rest, text = code ++ block.source ++ rest ∧
      language.lexemes lineStart text = read ++ lexeme ::
        language.lexemes (lineStartAfter lineStart (code ++ block.source)) rest ∧
      (withCode fresh []).addAll read = withCode fresh (code ++ block.indent) ∧
      (withCode fresh (code ++ block.indent)).doc? lexeme = some block ∧
      language.blocksFrom (lineStartAfter lineStart (code ++ block.source)) block.freshAfter rest =
        blocks := by
  have hlayout := layout_blocksFrom language lineStart fresh text
  rw [h] at hlayout
  generalize hblocks : Block.code code :: block :: blocks = all at hlayout
  cases hlayout with
  | code =>
    rw [Block.codeOf] at hblocks
    split at hblocks
    · simp at hblocks
    · simp at hblocks
  | @doc _ _ read lexeme front rest doc docs hscan hread hdoc htail =>
    by_cases hc : front = []
    · subst hc
      have hnot := isCode_of_doc? hdoc
      obtain ⟨rfl, -⟩ := List.cons.inj hblocks
      simp [Block.isCode] at hnot
    · rw [Block.codeOf_of_ne_nil hc] at hblocks
      obtain ⟨hfront, hrest⟩ := List.cons.inj hblocks
      obtain rfl := Block.code.inj hfront
      obtain ⟨rfl, rfl⟩ := List.cons.inj hrest
      exact ⟨read, lexeme, rest, rfl, hscan, hread, hdoc, htail.eq_blocksFrom⟩

theorem addAll_of_code {text code : Text} {blocks : List Block} {before after : List Lexeme}
    (h : language.blocksFrom lineStart fresh text = .code code :: blocks)
    (hscan : language.lexemes lineStart text = before ++ after)
    (hle : (before.flatMap Lexeme.text).length ≤ code.length) :
    (withCode fresh []).addAll before = withCode fresh (before.flatMap Lexeme.text) := by
  have hlayout := layout_blocksFrom language lineStart fresh text
  rw [h] at hlayout
  generalize hblocks : Block.code code :: blocks = all at hlayout
  cases hlayout with
  | code hall =>
    rw [hscan] at hall
    exact addAll_eq_withCode_of_append before [] hall
  | @doc _ _ read lexeme front rest doc docs hscan' hread hdoc htail =>
    have hfront : front = code := by
      by_cases hc : front = []
      · subst hc
        have hnot := isCode_of_doc? hdoc
        obtain ⟨rfl, -⟩ := List.cons.inj hblocks
        simp [Block.isCode] at hnot
      · rw [Block.codeOf_of_ne_nil hc] at hblocks
        exact (Block.code.inj (List.cons.inj hblocks).1).symm
    subst hfront
    have hsource := source_addAll (withCode fresh []) read
    rw [hread, source_withCode, source_withCode, List.nil_append] at hsource
    rw [hscan'] at hscan
    have hne : ∀ lexeme' ∈ before ++ after, lexeme'.text ≠ [] := by
      intro lexeme' hmem
      rw [← hscan, ← hscan'] at hmem
      exact text_ne_nil_of_mem_lexemes hmem
    obtain ⟨more, rfl⟩ := isPrefix_of_flatMap_isPrefix hscan.symm hne (by
      rw [← hsource, List.length_append]
      omega)
    exact addAll_eq_withCode_of_append before [] hread

/-- **Two steps.**  With a border behind code that ends its line, the text behind it is classified
for itself. -/
theorem blocksFrom_append {code rest : Text} {before : List Lexeme} (hends : code.EndsLine)
    (hscan : language.lexemes lineStart (code ++ rest) =
      before ++ language.lexemes (code.lineStartAfter lineStart) rest)
    (hcode : (withCode fresh []).addAll before = withCode fresh code) :
    language.blocksFrom lineStart fresh (code ++ rest) =
      Block.prepend code (language.blocksFrom (code.lineStartAfter lineStart) true rest) := by
  have hsplit := finish_addAll_withCode_append hends fresh
    (language.lexemes (code.lineStartAfter lineStart) rest) []
  rw [List.append_nil] at hsplit
  rw [blocksFrom, hscan, addAll_append, hcode, hsplit]
  rfl

/-! ### Alignment -/

/-- Every block starts at a border of the scan: no token reaches over the start of a block. -/
def Aligned (language : Language) (lineStart : Bool) (text : Text) (blocks : List Block) : Prop :=
  ∀ before after, blocks = before ++ after → ∃ lexemes rest,
    language.lexemes lineStart text = lexemes ++ rest ∧
      lexemes.flatMap Lexeme.text = Block.sourceOf before

theorem aligned_iff_inits {text : Text} {blocks : List Block} :
    language.Aligned lineStart text blocks ↔ ∀ before ∈ blocks.inits,
      ∃ lexemes ∈ (language.lexemes lineStart text).inits,
        lexemes.flatMap Lexeme.text = Block.sourceOf before := by
  simp only [Aligned, List.mem_inits]
  constructor
  · rintro h before ⟨after, hblocks⟩
    obtain ⟨lexemes, rest, hsplit, hcover⟩ := h before after hblocks.symm
    exact ⟨lexemes, ⟨rest, hsplit.symm⟩, hcover⟩
  · rintro h before after hblocks
    obtain ⟨lexemes, ⟨rest, hsplit⟩, hcover⟩ := h before ⟨after, hblocks.symm⟩
    exact ⟨lexemes, rest, hsplit.symm, hcover⟩

instance (text : Text) (blocks : List Block) : Decidable (language.Aligned lineStart text blocks) :=
  decidable_of_iff' _ aligned_iff_inits

theorem aligned_cons (block : Block) {blocks : List Block} {rest : Text} {read : List Lexeme}
    (hscan : language.lexemes lineStart (block.source ++ rest) =
      read ++ language.lexemes (block.source.lineStartAfter lineStart) rest)
    (hread : read.flatMap Lexeme.text = block.source) :
    language.Aligned lineStart (block.source ++ rest) (block :: blocks) ↔
      language.Aligned (block.source.lineStartAfter lineStart) rest blocks := by
  constructor
  · rintro h before after rfl
    obtain ⟨lexemes, tail, hsplit, hcover⟩ := h (block :: before) after rfl
    rw [Block.sourceOf_cons] at hcover
    have hne : ∀ lexeme ∈ read ++ language.lexemes (block.source.lineStartAfter lineStart) rest,
        lexeme.text ≠ [] := by
      intro lexeme hmem
      rw [← hscan] at hmem
      exact text_ne_nil_of_mem_lexemes hmem
    obtain ⟨more, rfl⟩ := isPrefix_of_flatMap_isPrefix (hscan.symm.trans hsplit) hne (by
      rw [hcover, hread, List.length_append]
      omega)
    refine ⟨more, tail, ?_, ?_⟩
    · rw [hscan, List.append_assoc] at hsplit
      exact List.append_cancel_left hsplit
    · rw [List.flatMap_append, hread] at hcover
      exact List.append_cancel_left hcover
  · rintro h before after hblocks
    cases before with
    | nil => exact ⟨[], _, rfl, rfl⟩
    | cons first before =>
      obtain ⟨rfl, rfl⟩ := List.cons.inj hblocks
      obtain ⟨lexemes, tail, hsplit, hcover⟩ := h before after rfl
      refine ⟨read ++ lexemes, tail, ?_, ?_⟩
      · rw [hscan, hsplit, List.append_assoc]
      · rw [List.flatMap_append, hread, hcover, Block.sourceOf_cons]

/-- Either there is a border behind a text, or some lexeme reaches over its end. -/
theorem border_or_crossing :
    ∀ (lexemes : List Lexeme) (text rest : Text), lexemes.flatMap Lexeme.text = text ++ rest →
      (∃ before after, lexemes = before ++ after ∧ before.flatMap Lexeme.text = text) ∨
      ∃ before lexeme after front back, lexemes = before ++ lexeme :: after ∧
        before.flatMap Lexeme.text ++ front = text ∧ lexeme.text = front ++ back ∧
        front ≠ [] ∧ back ≠ [] := by
  intro lexemes
  induction lexemes with
  | nil =>
    intro text rest h
    obtain ⟨rfl, rfl⟩ : text = [] ∧ rest = [] := by simpa using h
    exact Or.inl ⟨[], [], rfl, rfl⟩
  | cons lexeme lexemes ih =>
    intro text rest h
    by_cases hnil : text = []
    · exact Or.inl ⟨[], lexeme :: lexemes, rfl, hnil.symm⟩
    · rw [List.flatMap_cons] at h
      rcases List.append_eq_append_iff.1 h with ⟨middle, rfl, hmiddle⟩ | ⟨middle, hlexeme, _⟩
      · rcases ih middle rest hmiddle with ⟨before, after, rfl, rfl⟩ |
          ⟨before, crossing, after, front, back, rfl, rfl, hcrossing, hfront, hback⟩
        · exact Or.inl ⟨lexeme :: before, after, rfl, rfl⟩
        · exact Or.inr ⟨lexeme :: before, crossing, after, front, back, rfl, by simp, hcrossing,
            hfront, hback⟩
      · by_cases hm : middle = []
        · subst hm
          exact Or.inl ⟨[lexeme], lexemes, rfl, by simp [hlexeme]⟩
        · exact Or.inr ⟨[], lexeme, lexemes, text, middle, rfl, by simp, hlexeme, hnil, hm⟩

end Language

end Literate
