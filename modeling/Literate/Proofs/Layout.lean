import Literate.Block.Classify
import Literate.Proofs.Scan
import Mathlib.Data.List.TakeWhile

/-!
# The layout of a classified text

A draft takes in one lexeme after the other, and each of them is either code or, by `Draft.doc?`,
one block of documentation.  So a classified text is laid out as stretches of code with single
documentation blocks between them, and behind each of these the draft starts anew:

  `code ++ block.source ++ rest` becomes `Block.codeOf code ++ block :: blocks`,

where `blocks` are the blocks of `rest`.  `Layout` is this description as a relation, and
`layout_blocksFrom` says that every text has the layout of its blocks.  Nothing is lost on the way,
whatever the tokens of the language are: `sourceOf_classify`.
-/

namespace Literate

namespace Block

/-- The blocks of a stretch of code: one, or none if there are no characters. -/
def codeOf (text : Text) : List Block :=
  if text.isEmpty then [] else [.code text]

/-- What stands before the comment on its line. -/
def indent : Block → Text
  | inlineDoc indent _ _ _ => indent
  | _ => []

/-- What follows the block starts a line. -/
def freshAfter (block : Block) : Bool :=
  block.text.isEmpty || (Text.stripTerminator block.text).2.isSome

@[simp]
theorem codeOf_nil : codeOf [] = [] := rfl

theorem codeOf_of_ne_nil {text : Text} (h : text ≠ []) : codeOf text = [.code text] := by
  simp [codeOf, h]

@[simp]
theorem sourceOf_codeOf (text : Text) : sourceOf (codeOf text) = text := by
  by_cases h : text = []
  · subst h
    rfl
  · rw [codeOf_of_ne_nil h]
    simp [sourceOf, source]

theorem sourceOf_append (a b : List Block) : sourceOf (a ++ b) = sourceOf a ++ sourceOf b := by
  simp [sourceOf]

theorem sourceOf_cons (block : Block) (blocks : List Block) :
    sourceOf (block :: blocks) = block.source ++ sourceOf blocks := by
  simp [sourceOf]

end Block

namespace Draft

def addAll (draft : Draft) (lexemes : List Lexeme) : Draft :=
  lexemes.foldl add draft

@[simp]
theorem addAll_nil (draft : Draft) : draft.addAll [] = draft := rfl

@[simp]
theorem addAll_cons (draft : Draft) (lexeme : Lexeme) (lexemes : List Lexeme) :
    draft.addAll (lexeme :: lexemes) = (draft.add lexeme).addAll lexemes := rfl

theorem addAll_append (draft : Draft) (a b : List Lexeme) :
    draft.addAll (a ++ b) = (draft.addAll a).addAll b :=
  List.foldl_append

/-- **A draft grows by all that it takes in.** -/
theorem source_addAll (draft : Draft) (lexemes : List Lexeme) :
    (draft.addAll lexemes).source = draft.source ++ lexemes.flatMap Lexeme.text := by
  induction lexemes generalizing draft with
  | nil => simp
  | cons lexeme lexemes ih =>
    rw [addAll_cons, ih, source_add, List.flatMap_cons, List.append_assoc]

theorem sourceOf_finish (draft : Draft) : Block.sourceOf draft.finish = draft.source :=
  sourceOf_flushed draft

end Draft

/-- **Classifying loses nothing.**  The blocks of a text, put together again, are the text, in every
language and whatever its tokens look like. -/
theorem sourceOf_classify (language : Language) (source : Text) :
    Block.sourceOf (classify language source) = source := by
  have hgrown := Draft.source_addAll {} (language.scan source)
  rw [Language.flatMap_text_scan] at hgrown
  rw [classify, Draft.sourceOf_finish]
  exact hgrown

namespace Draft

/-! ### Code or documentation -/

/-- The block that the lexeme becomes, if it is documentation. -/
def doc? (draft : Draft) : Lexeme → Option Block
  | .plain _ => none
  | .token token =>
    match token.opening with
    | .blockComment opener _ => some (.blockDoc opener token.text)
    | .inlineComment marker =>
      let spaced := token.body.head? == some ' '
      draft.indent?.bind fun indent =>
        if spaced || token.body.isEmpty || Text.isTerminator token.body then
          some (.inlineDoc indent marker spaced (if spaced then token.body.drop 1 else token.body))
        else none
    | _ => none

theorem add_of_doc?_eq_none {draft : Draft} {lexeme : Lexeme} (h : draft.doc? lexeme = none) :
    draft.add lexeme = draft.addCode lexeme.text := by
  cases lexeme with
  | plain c => rfl
  | token token =>
    obtain ⟨opening, body⟩ := token
    cases opening with
    | blockComment => simp [doc?] at h
    | inlineComment marker =>
      show draft.addInlineComment marker body = _
      unfold addInlineComment
      simp only
      split
      · next indent hi =>
        simp only [doc?, hi, Option.bind_some, ite_eq_right_iff] at h
        split
        · next hwell => exact absurd (h hwell) (by simp)
        · rfl
      · rfl
    | _ => rfl

theorem add_of_doc?_eq_some {draft : Draft} {lexeme : Lexeme} {block : Block}
    (h : draft.doc? lexeme = some block) :
    draft.add lexeme =
      { draft with pending := draft.pending.drop block.indent.length }.addDoc block := by
  cases lexeme with
  | plain c => simp [doc?] at h
  | token token =>
    obtain ⟨opening, body⟩ := token
    cases opening with
    | blockComment opener closer =>
      simp only [doc?, Option.some.injEq] at h
      subst h
      rfl
    | inlineComment marker =>
      simp only [doc?, Option.bind_eq_some_iff] at h
      obtain ⟨indent, hi, h⟩ := h
      split at h
      · next hwell =>
        obtain rfl := Option.some.inj h
        show draft.addInlineComment marker body = _
        unfold addInlineComment
        simp only [hi]
        rw [if_pos hwell]
        rfl
      · simp at h
    | _ => simp [doc?] at h

theorem doc?_eq_some {draft : Draft} {lexeme : Lexeme} {block : Block}
    (h : draft.doc? lexeme = some block) :
    (∃ opener closer body, lexeme = .token ⟨.blockComment opener closer, body⟩ ∧
      block = .blockDoc opener (opener ++ body)) ∨
    ∃ indent marker body, lexeme = .token ⟨.inlineComment marker, body⟩ ∧
      draft.indent? = some indent ∧
      ((∃ text, body = ' ' :: text ∧ block = .inlineDoc indent marker true text) ∨
        (body = [] ∨ body.isTerminator = true) ∧ block = .inlineDoc indent marker false body) := by
  cases lexeme with
  | plain c => simp [doc?] at h
  | token token =>
    obtain ⟨opening, body⟩ := token
    cases opening with
    | blockComment opener closer =>
      simp only [doc?, Option.some.injEq] at h
      exact Or.inl ⟨opener, closer, body, rfl, h.symm⟩
    | inlineComment marker =>
      simp only [doc?, Option.bind_eq_some_iff] at h
      obtain ⟨indent, hi, h⟩ := h
      refine Or.inr ⟨indent, marker, body, rfl, hi, ?_⟩
      by_cases hs : body.head? = some ' '
      · obtain ⟨text, rfl⟩ := List.head?_eq_some_iff.1 hs
        simp only [List.head?_cons, BEq.rfl, Bool.true_or, if_true, List.drop_succ_cons,
          List.drop_zero, Option.some.injEq] at h
        exact Or.inl ⟨text, rfl, h.symm⟩
      · have hs' : (body.head? == some ' ') = false := by simpa using hs
        simp only [hs', Bool.false_or, Bool.false_eq_true, if_false] at h
        split at h
        · next hwell =>
          simp only [Bool.or_eq_true, List.isEmpty_iff] at hwell
          exact Or.inr ⟨hwell, (Option.some.inj h).symm⟩
        · simp at h
    | _ => simp [doc?] at h

/-! ### Behind a border -/

/-- The draft behind a border, when the code since then is `code`.  `fresh` says that the block
before the border ended its line. -/
def withCode (fresh : Bool) (code : Text) : Draft where
  pending := code.reverse
  freshLine := fresh

/-- The draft as the continuation of earlier blocks, latest first. -/
def after (draft : Draft) (earlier : List Block) : Draft :=
  { draft with blocks := draft.blocks ++ earlier }

theorem eq_after (draft : Draft) :
    draft = (withCode draft.freshLine draft.pending.reverse).after draft.blocks := by
  simp [withCode, after]

theorem exists_eq_after (draft : Draft) :
    ∃ fresh code blocks, draft = (withCode fresh code).after blocks :=
  ⟨_, _, _, eq_after draft⟩

theorem doc?_after (draft : Draft) (earlier : List Block) (lexeme : Lexeme) :
    (draft.after earlier).doc? lexeme = draft.doc? lexeme := rfl

theorem add_after (draft : Draft) (earlier : List Block) (lexeme : Lexeme) :
    (draft.after earlier).add lexeme = (draft.add lexeme).after earlier := by
  cases h : draft.doc? lexeme with
  | none =>
    rw [add_of_doc?_eq_none h, add_of_doc?_eq_none ((doc?_after ..).trans h)]
    rfl
  | some block =>
    rw [add_of_doc?_eq_some h, add_of_doc?_eq_some ((doc?_after ..).trans h)]
    by_cases hp : draft.pending.drop block.indent.length = [] <;> simp [addDoc, flushed, after, hp]

theorem addAll_after (draft : Draft) (earlier : List Block) (lexemes : List Lexeme) :
    (draft.after earlier).addAll lexemes = (draft.addAll lexemes).after earlier := by
  induction lexemes generalizing draft with
  | nil => rfl
  | cons lexeme lexemes ih => rw [addAll_cons, addAll_cons, add_after, ih]

theorem finish_after (draft : Draft) (earlier : List Block) :
    (draft.after earlier).finish = earlier.reverse ++ draft.finish := by
  by_cases h : draft.pending = [] <;> simp [finish, flushed, after, h]

theorem source_after (draft : Draft) (earlier : List Block) :
    (draft.after earlier).source = Block.sourceOf earlier.reverse ++ draft.source := by
  simp [source, after, Block.sourceOf]

@[simp]
theorem source_withCode (fresh : Bool) (code : Text) : (withCode fresh code).source = code := by
  simp [source, withCode, Block.sourceOf]

theorem finish_withCode (fresh : Bool) (code : Text) :
    (withCode fresh code).finish = Block.codeOf code := by
  simp only [finish, flushed, withCode, Block.codeOf, List.isEmpty_reverse, List.reverse_reverse]
  split <;> rfl

theorem add_withCode_of_none {fresh : Bool} {code : Text} {lexeme : Lexeme}
    (h : (withCode fresh code).doc? lexeme = none) :
    (withCode fresh code).add lexeme = withCode fresh (code ++ lexeme.text) := by
  rw [add_of_doc?_eq_none h]
  simp [addCode, withCode]

theorem finish_add_of_none {fresh : Bool} {code : Text} {lexeme : Lexeme}
    (h : (withCode fresh code).doc? lexeme = none) (earlier : List Block) (later : List Lexeme) :
    ((((withCode fresh code).after earlier).add lexeme).addAll later).finish =
      earlier.reverse ++ ((withCode fresh (code ++ lexeme.text)).addAll later).finish := by
  rw [add_after, addAll_after, finish_after, add_withCode_of_none h]

theorem addAll_map_plain (fresh : Bool) (code text : Text) :
    (withCode fresh code).addAll (text.map .plain) = withCode fresh (code ++ text) := by
  induction text generalizing code with
  | nil => simp
  | cons c text ih =>
    have hnone : (withCode fresh code).doc? (.plain c) = none := rfl
    rw [List.map_cons, addAll_cons, add_withCode_of_none hnone, ih, List.append_assoc]
    rfl

/-- **Documentation makes a border.** -/
theorem add_withCode_of_some {fresh : Bool} {code : Text} {lexeme : Lexeme} {block : Block}
    (h : (withCode fresh (code ++ block.indent)).doc? lexeme = some block) :
    (withCode fresh (code ++ block.indent)).add lexeme =
      (withCode block.freshAfter []).after (block :: (Block.codeOf code).reverse) := by
  rw [add_of_doc?_eq_some h]
  have hdrop : (withCode fresh (code ++ block.indent)).pending.drop block.indent.length =
      code.reverse := by
    simp [withCode]
  rw [hdrop]
  by_cases hc : code = []
  · subst hc
    rfl
  · rw [Block.codeOf_of_ne_nil hc]
    simp only [addDoc, flushed, withCode, after, List.isEmpty_reverse, List.isEmpty_iff, hc,
      if_false, List.reverse_reverse, List.reverse_cons, List.reverse_nil, List.nil_append]
    rfl

/-- **The indent of a comment**: the blanks between it and the start of its line. -/
theorem indent?_withCode {fresh : Bool} {text indent : Text} :
    (withCode fresh text).indent? = some indent ↔
      ∃ code, text = code ++ indent ∧ indent.isBlank = true ∧
        (code.EndsLine ∨ code = [] ∧ fresh = true) := by
  rw [indent?, currentLine, withCode]
  simp only [Option.ite_none_right_eq_some, Bool.and_eq_true, Bool.or_eq_true, Option.some.injEq]
  constructor
  · rintro ⟨⟨hfresh, hblank⟩, rfl⟩
    refine ⟨(text.reverse.dropWhile (!isLineBreak ·)).reverse, ?_, ?_, ?_⟩
    · rw [← List.reverse_append, List.takeWhile_append_dropWhile, List.reverse_reverse]
    · simpa [Text.isBlank] using hblank
    · cases hd : text.reverse.dropWhile (!isLineBreak ·) with
      | nil =>
        rw [List.dropWhile_eq_nil_iff] at hd
        refine Or.inr ⟨rfl, hfresh.resolve_left ?_⟩
        rw [List.any_eq_true]
        rintro ⟨c, hc, hbreak⟩
        simpa [hbreak] using hd c hc
      | cons c rest =>
        have hhead := List.head?_dropWhile_not (!isLineBreak ·) text.reverse
        rw [hd] at hhead
        exact Or.inl ⟨c, by simp, by simpa using hhead⟩
  · rintro ⟨code, rfl, hblank, hcode⟩
    have hunbroken := Text.unbroken_of_isBlank hblank
    have hfront : ∀ c ∈ indent.reverse, (!isLineBreak c) = true := by
      intro c hc
      simp [hunbroken c (List.mem_reverse.1 hc)]
    have hstop : code.reverse.takeWhile (!isLineBreak ·) = [] := by
      rcases hcode with ⟨c, hc, hbreak⟩ | ⟨rfl, _⟩
      · obtain ⟨front, rfl⟩ := List.getLast?_eq_some_iff.1 hc
        simp [hbreak]
      · rfl
    have hline : (code ++ indent).reverse.takeWhile (!isLineBreak ·) = indent.reverse := by
      rw [List.reverse_append, List.takeWhile_append_of_pos hfront, hstop, List.append_nil]
    rw [hline]
    refine ⟨⟨?_, by simpa [Text.isBlank] using hblank⟩, List.reverse_reverse _⟩
    rcases hcode with ⟨c, hc, hbreak⟩ | ⟨_, hfresh⟩
    · left
      rw [List.any_eq_true]
      exact ⟨c, by simp [List.mem_of_getLast? hc], hbreak⟩
    · exact Or.inr hfresh

theorem source_of_doc? {draft : Draft} {lexeme : Lexeme} {block : Block}
    (h : draft.doc? lexeme = some block) : block.source = block.indent ++ lexeme.text := by
  rcases doc?_eq_some h with ⟨opener, closer, body, rfl, rfl⟩ |
    ⟨indent, marker, body, rfl, _, ⟨text, rfl, rfl⟩ | ⟨_, rfl⟩⟩
  · simp [Block.source, Block.indent, Lexeme.text, Token.text, Opening.text]
  · simp [Block.source, Block.indent, Lexeme.text, Token.text, Opening.text]
  · simp [Block.source, Block.indent, Lexeme.text, Token.text, Opening.text]

theorem exists_indent_of_doc? {fresh : Bool} {text : Text} {lexeme : Lexeme} {block : Block}
    (h : (withCode fresh text).doc? lexeme = some block) : ∃ code, text = code ++ block.indent := by
  rcases doc?_eq_some h with ⟨opener, closer, body, rfl, rfl⟩ |
    ⟨indent, marker, body, rfl, hi, ⟨_, rfl, rfl⟩ | ⟨_, rfl⟩⟩
  · exact ⟨text, (List.append_nil text).symm⟩
  · obtain ⟨code, rfl, _⟩ := indent?_withCode.1 hi
    exact ⟨code, rfl⟩
  · obtain ⟨code, rfl, _⟩ := indent?_withCode.1 hi
    exact ⟨code, rfl⟩

end Draft

namespace Language

open Draft

variable {language : Language}

/-- The blocks of what stands behind a border. -/
def blocksFrom (language : Language) (lineStart fresh : Bool) (text : Text) : List Block :=
  ((withCode fresh []).addAll (language.lexemes lineStart text)).finish

theorem classify_eq_blocksFrom (language : Language) (source : Text) :
    classify language source = language.blocksFrom true true source := rfl

theorem sourceOf_blocksFrom (language : Language) (lineStart fresh : Bool) (text : Text) :
    Block.sourceOf (language.blocksFrom lineStart fresh text) = text := by
  rw [blocksFrom, sourceOf_finish, source_addAll, flatMap_text_lexemes, source_withCode]
  rfl

/-- The blocks of a text, read from a border: either there is only code, or there is a stretch of
code (`read` are its lexemes and those of the indent), a lexeme that is documentation, and the
layout of the rest. -/
inductive Layout (language : Language) : Bool → Bool → Text → List Block → Prop
  | code {lineStart fresh : Bool} {text : Text} :
      (withCode fresh []).addAll (language.lexemes lineStart text) = withCode fresh text →
      Layout language lineStart fresh text (Block.codeOf text)
  | doc {lineStart fresh : Bool} {read : List Lexeme} {lexeme : Lexeme} {code rest : Text}
      {block : Block} {blocks : List Block} :
      language.lexemes lineStart (code ++ block.source ++ rest) = read ++ lexeme ::
        language.lexemes (Text.lineStartAfter lineStart (code ++ block.source)) rest →
      (withCode fresh []).addAll read = withCode fresh (code ++ block.indent) →
      (withCode fresh (code ++ block.indent)).doc? lexeme = some block →
      Layout language (Text.lineStartAfter lineStart (code ++ block.source)) block.freshAfter rest
        blocks →
      Layout language lineStart fresh (code ++ block.source ++ rest)
        (Block.codeOf code ++ block :: blocks)

/-- **Every text has the layout of its blocks.** -/
theorem layout_blocksFrom (language : Language) (lineStart fresh : Bool) (text : Text) :
    Layout language lineStart fresh text (language.blocksFrom lineStart fresh text) := by
  -- The induction is on what is still to be read; `read` and `code` are what the border has behind
  -- it so far, and a block of documentation makes a new border with nothing behind it.
  suffices h : ∀ lineStart text, ∀ start fresh read code,
      language.lexemes start (code ++ text) = read ++ language.lexemes lineStart text →
      lineStart = Text.lineStartAfter start code →
      (withCode fresh []).addAll read = withCode fresh code →
      Layout language start fresh (code ++ text)
        (((withCode fresh code).addAll (language.lexemes lineStart text)).finish) from
    h lineStart text lineStart fresh [] [] rfl rfl rfl
  intro lineStart text
  induction lineStart, text using scan_induction language with
  | nil lineStart =>
    intro start fresh read code hscan _ hread
    rw [List.append_nil] at hscan ⊢
    rw [lexemes_nil, addAll_nil, finish_withCode]
    refine .code ?_
    rw [hscan, lexemes_nil, List.append_nil, hread]
  | step lineStart lexeme rest hl ih =>
    intro start fresh read code hscan hstart hread
    rw [lexemes_append hl] at hscan ⊢
    rw [addAll_cons]
    cases hdoc : (withCode fresh code).doc? lexeme with
    | none =>
      rw [add_withCode_of_none hdoc, ← List.append_assoc]
      refine ih start fresh (read ++ [lexeme]) (code ++ lexeme.text) ?_ ?_ ?_
      · rw [List.append_assoc, hscan, List.append_assoc]
        rfl
      · rw [hstart, Text.lineStartAfter_append]
      · rw [addAll_append, hread, addAll_cons, addAll_nil, add_withCode_of_none hdoc]
    | some block =>
      obtain ⟨front, rfl⟩ := exists_indent_of_doc? hdoc
      have hsource : front ++ block.indent ++ (lexeme.text ++ rest) =
          front ++ block.source ++ rest := by
        rw [source_of_doc? hdoc]
        simp
      have hborder : lexeme.text.lineStartAfter lineStart =
          Text.lineStartAfter start (front ++ block.source) := by
        rw [hstart, ← Text.lineStartAfter_append, source_of_doc? hdoc, List.append_assoc]
      rw [hsource] at hscan ⊢
      rw [add_withCode_of_some hdoc, addAll_after, finish_after, List.reverse_cons,
        List.reverse_reverse, List.append_assoc (Block.codeOf front), List.singleton_append]
      refine .doc (hborder ▸ hscan) hread hdoc ?_
      rw [← hborder]
      exact ih _ block.freshAfter [] [] rfl rfl rfl

theorem Layout.sourceOf_eq {lineStart fresh : Bool} {text : Text} {blocks : List Block}
    (h : Layout language lineStart fresh text blocks) : Block.sourceOf blocks = text := by
  induction h with
  | code => exact Block.sourceOf_codeOf _
  | doc _ _ _ _ ih =>
    rw [Block.sourceOf_append, Block.sourceOf_codeOf, Block.sourceOf_cons, ih, List.append_assoc]

/-- **No text has two layouts.** -/
theorem Layout.eq_blocksFrom {lineStart fresh : Bool} {text : Text} {blocks : List Block}
    (h : Layout language lineStart fresh text blocks) :
    language.blocksFrom lineStart fresh text = blocks := by
  induction h with
  | code hcode => rw [blocksFrom, hcode, finish_withCode]
  | doc hscan hread hdoc _ ih =>
    rw [blocksFrom, hscan, addAll_append, hread, addAll_cons, add_withCode_of_some hdoc,
      addAll_after, finish_after, List.reverse_cons, List.reverse_reverse, List.append_assoc,
      List.singleton_append]
    rw [blocksFrom] at ih
    rw [ih]

theorem Layout.eq_nil {lineStart fresh : Bool} {blocks : List Block}
    (h : Layout language lineStart fresh [] blocks) : blocks = [] := by
  generalize ht : ([] : Text) = text at h
  cases h with
  | code => rw [← ht]; rfl
  | @doc lineStart fresh read lexeme code rest block blocks hscan _ _ _ =>
    rw [← ht, lexemes_nil] at hscan
    simp at hscan

theorem lexeme?_of_read {lineStart fresh : Bool} {read : List Lexeme} {lexeme : Lexeme}
    {code rest : Text} {block : Block} {after : List Lexeme}
    (hscan : language.lexemes lineStart (code ++ block.source ++ rest) = read ++ lexeme :: after)
    (hread : (withCode fresh []).addAll read = withCode fresh (code ++ block.indent))
    (hdoc : (withCode fresh (code ++ block.indent)).doc? lexeme = some block) :
    read.flatMap Lexeme.text = code ++ block.indent ∧
      language.lexeme? (Text.lineStartAfter lineStart (code ++ block.indent))
        (lexeme.text ++ rest) = some lexeme := by
  have htext : read.flatMap Lexeme.text = code ++ block.indent := by
    have := source_addAll (withCode fresh []) read
    rw [hread, source_withCode, source_withCode] at this
    exact this.symm
  obtain ⟨rest', heq, hl, _⟩ := exists_rest_of_lexemes_eq hscan
  rw [source_of_doc? hdoc, htext] at heq
  obtain rfl : rest' = rest := by simpa using heq.symm
  rw [htext] at hl
  exact ⟨htext, hl⟩

end Language

end Literate
