import Literate.Proofs.Borders
import Literate.Proofs.Conversion

/-!
# Files with other line endings

Is a file classified alike whatever its lines end with?  Lexeme by lexeme the scan of the converted
text is the converted scan (`lexemes_withEnding`), and a draft that takes in converted lexemes is
the converted draft (`addAll_withEnding`).  So it is, with one exception for each of the two other
terminators.

With a lone carriage return the here-documents of the shell are lost: they open at the start of a
line and close there, and only a line feed starts one.  Every other language of the table is
classified alike (`classify_withEnding_cr_iff`).

With pairs it is a short string that never closes (`Token.Unclosed`) and is the last token: the scan
of the text with pairs in it goes back to the last terminator and reads the last line once more.
The blocks are then the same exactly if that line is code (`classify_withEnding_crlf_iff`).
-/

namespace Literate

open Text

/-- The token is a short string over several lines that never closes. -/
def Token.Unclosed (token : Token) : Prop :=
  ∃ quote, token.opening = .shortString quote ∧
    Extent.shortString? quote token.body = none ∧ '\n' ∈ token.body

/-- The lexemes of the converted text.  A line feed that is a lexeme may become two. -/
def Lexeme.withEnding (ending : LineEnding) : Lexeme → List Lexeme
  | .plain c => (Text.withEnding ending [c]).map .plain
  | .token found => [.token { found with body := Text.withEnding ending found.body }]

theorem Text.lineStartAfter_withEnding {ending : LineEnding} (h : ending ≠ .cr) (lineStart : Bool)
    (text : Text) : lineStartAfter lineStart (withEnding ending text) =
      lineStartAfter lineStart text := by
  induction text generalizing lineStart with
  | nil => rfl
  | cons c rest ih =>
    rw [lineStartAfter_cons]
    by_cases hc : c = '\n'
    · rw [hc, withEnding_break, lineStartAfter_append, ih]
      cases ending with
      | lf | crlf => rfl
      | cr => exact absurd rfl h
    · rw [withEnding_cons hc, lineStartAfter_cons, ih]

namespace Language

variable {language : Language} {lineStart lineStart' : Bool} {ending : LineEnding}

/-! ### The scan -/

theorem lexemes_break (h : language.Orderly) {b : Char} (hb : isLineBreak b = true)
    (lineStart : Bool) (rest : Text) :
    language.lexemes lineStart (b :: rest) = .plain b :: language.lexemes (b == '\n') rest := by
  have hnone : language.token? lineStart (b :: rest) = none := by
    rw [token?, opening?_break h hb]
    rfl
  have hl : language.lexeme? lineStart ((Lexeme.plain b).text ++ rest) = some (.plain b) :=
    lexeme?_plain.2 hnone
  exact lexemes_append hl

theorem lexemes_ending (h : language.Orderly) (ending : LineEnding) (lineStart : Bool)
    (rest : Text) :
    language.lexemes lineStart (ending.text ++ rest) =
      ending.text.map .plain ++ language.lexemes (lineStartAfter lineStart ending.text) rest := by
  cases ending with
  | lf => exact lexemes_break h rfl lineStart rest
  | crlf =>
    show language.lexemes lineStart ('\r' :: '\n' :: rest) = _
    rw [lexemes_break h rfl, lexemes_break h rfl]
    rfl
  | cr => exact lexemes_break h rfl lineStart rest

theorem token?_withEnding (h : language.Orderly) (hadmits : language.Admits ending)
    {token : Token} {behind : Text} (hr : '\r' ∉ token.text ++ behind)
    (hclose : ending = .crlf → behind = [] → ¬ token.Unclosed)
    (ht : language.token? lineStart (token.text ++ behind) = some token) :
    language.token? lineStart (withEnding ending (token.text ++ behind)) =
      some { token with body := withEnding ending token.body } := by
  obtain ⟨ho, hbody⟩ := token?_text_append_iff.1 ht
  have hunbroken := unbroken_of_opening? h ho
  rw [Token.text, List.append_assoc] at hr ho ⊢
  have hextent := Opening.extent_withEnding h hadmits (has_of_token? ht)
    (fun hmem => hr (List.mem_append_right _ hmem)) (by
    intro hcrlf quote hquote hnone hmem
    -- A string that never closes takes the whole text.
    have hall : token.body = token.body ++ behind := by
      rw [hquote, Opening.extent, Extent.shortString, hnone, Option.getD_none,
        List.take_length] at hbody
      exact hbody
    have hnil : behind = [] := List.self_eq_append_right.1 hall
    rw [← hall] at hnone hmem
    exact hclose hcrlf hnil ⟨quote, hquote, hnone, hmem⟩)
  refine token?_eq_some_iff.2 ⟨withEnding ending (token.body ++ behind), ?_, ?_, ?_⟩
  · rw [withEnding_append, withEnding_of_unbroken hunbroken]
  · rw [opening?_withEnding h, ho]
  · rw [hextent, take_offsetWith, ← hbody]

theorem opening?_of_start (hadmits : language.Admits ending)
    (hstart : ending = .cr ∨ lineStart' = lineStart) (text : Text) :
    language.opening? lineStart' text = language.opening? lineStart text := by
  rcases hstart with hcr | rfl
  · exact opening?_lineStart (fun rule hrule => (hadmits hcr rule hrule).1) lineStart' lineStart
      text
  · rfl

/-- **One step of the scan of a converted text.** -/
theorem lexemes_withEnding_cons (h : language.Orderly) (hadmits : language.Admits ending)
    (hstart : ending = .cr ∨ lineStart' = lineStart) {lexeme : Lexeme} {behind : Text}
    (hr : '\r' ∉ lexeme.text ++ behind)
    (hclose : ending = .crlf → behind = [] → ∀ token, lexeme = .token token → ¬ token.Unclosed)
    (hl : language.lexeme? lineStart (lexeme.text ++ behind) = some lexeme) :
    language.lexemes lineStart' (withEnding ending (lexeme.text ++ behind)) =
      lexeme.withEnding ending ++ language.lexemes
        (lineStartAfter lineStart' (withEnding ending lexeme.text)) (withEnding ending behind) := by
  cases lexeme with
  | plain c =>
    by_cases hc : c = '\n'
    · subst hc
      rw [withEnding_append, Lexeme.withEnding, show (Lexeme.plain '\n').text = ['\n'] from rfl,
        withEnding_break, withEnding_nil, List.append_nil, lexemes_ending h]
    · have hnone : language.token? lineStart (c :: behind) = none := lexeme?_plain.1 hl
      have hconverted : language.token? lineStart' (c :: withEnding ending behind) = none := by
        rw [token?, Option.map_eq_none_iff] at hnone ⊢
        rw [opening?_of_start hadmits hstart, ← withEnding_cons hc, opening?_withEnding h, hnone]
      have hl' : language.lexeme? lineStart' ((Lexeme.plain c).text ++ withEnding ending behind) =
          some (.plain c) := lexeme?_plain.2 hconverted
      have hchar : withEnding ending [c] = [c] := withEnding_cons hc []
      rw [withEnding_append, show (Lexeme.plain c).text = [c] from rfl, Lexeme.withEnding, hchar]
      exact lexemes_append hl'
  | token token =>
    have ht := lexeme?_token.1 hl
    have hconverted := token?_withEnding h hadmits hr
      (fun hcrlf hnil => hclose hcrlf hnil token rfl) ht
    have hunbroken : token.opening.text.Unbroken := by
      obtain ⟨_, _, ho, _⟩ := token?_eq_some_iff.1 ht
      exact unbroken_of_opening? h ho
    have htext : withEnding ending token.text =
        ({ token with body := withEnding ending token.body } : Token).text := by
      rw [Token.text, Token.text, withEnding_append, withEnding_of_unbroken hunbroken]
    have hsame : language.token? lineStart' (withEnding ending (token.text ++ behind)) =
        language.token? lineStart (withEnding ending (token.text ++ behind)) := by
      rw [token?, token?, opening?_of_start hadmits hstart]
    rw [← hsame, withEnding_append, htext] at hconverted
    rw [Lexeme.text, withEnding_append, htext]
    exact lexemes_append (lexeme?_token.2 hconverted)

/-- **The scan of a converted text**, up to a border of the scan of the text. -/
theorem lexemes_withEnding (h : language.Orderly) (hadmits : language.Admits ending) (rest : Text) :
    ∀ (before : List Lexeme) (lineStart lineStart' : Bool),
      '\r' ∉ before.flatMap Lexeme.text ++ rest → (ending = .cr ∨ lineStart' = lineStart) →
      language.lexemes lineStart (before.flatMap Lexeme.text ++ rest) =
        before ++ language.lexemes (lineStartAfter lineStart (before.flatMap Lexeme.text)) rest →
      (ending = .crlf → rest = [] → ∀ token, before.getLast? = some (.token token) →
        ¬ token.Unclosed) →
      language.lexemes lineStart' (withEnding ending (before.flatMap Lexeme.text ++ rest)) =
        before.flatMap (Lexeme.withEnding ending) ++ language.lexemes
          (lineStartAfter lineStart' (withEnding ending (before.flatMap Lexeme.text)))
          (withEnding ending rest) := by
  intro before
  induction before with
  | nil =>
    intro lineStart lineStart' _ _ _ _
    rfl
  | cons first before ih =>
    intro lineStart lineStart' hr hstart hscan hclose
    rw [List.flatMap_cons, List.append_assoc] at hr hscan ⊢
    have hl : language.lexeme? lineStart (first.text ++ (before.flatMap Lexeme.text ++ rest)) =
        some first := by
      rw [← List.nil_append (first :: before), List.append_assoc] at hscan
      obtain ⟨rest', htext, hl, _⟩ := exists_rest_of_lexemes_eq hscan
      rw [List.flatMap_nil, List.nil_append] at htext
      rwa [htext]
    rw [lexemes_append hl, List.cons_append, lineStartAfter_append] at hscan
    have hstart' : ending = .cr ∨ lineStartAfter lineStart' (withEnding ending first.text) =
        lineStartAfter lineStart first.text := by
      by_cases hcr : ending = .cr
      · exact Or.inl hcr
      · rw [lineStartAfter_withEnding hcr, hstart.resolve_left hcr]
        exact Or.inr rfl
    rw [lexemes_withEnding_cons h hadmits hstart hr ?_ hl,
      ih _ _ (fun hmem => hr (List.mem_append_right _ hmem)) hstart' (List.cons.inj hscan).2 ?_]
    · rw [List.flatMap_cons, List.append_assoc, withEnding_append, lineStartAfter_append]
    · intro hcrlf hnil token hlast
      refine hclose hcrlf hnil token ?_
      rw [List.getLast?_cons, hlast]
      rfl
    · rintro hcrlf hnil token rfl
      obtain ⟨hbefore, hrest⟩ := List.append_eq_nil_iff.1 hnil
      refine hclose hcrlf hrest token ?_
      rw [hnil, lexemes_nil] at hscan
      rw [(List.append_eq_nil_iff.1 (List.cons.inj hscan).2.symm).1]
      rfl

end Language

/-! ### The draft -/

namespace Text

variable {ending : LineEnding}

theorem endsLine_withEnding {text : Text} : (withEnding ending text).EndsLine ↔ text.EndsLine := by
  rcases List.eq_nil_or_concat text with rfl | ⟨front, c, rfl⟩
  · rfl
  · rw [List.concat_eq_append, withEnding_append,
      endsLine_append_of_ne_nil (mt withEnding_eq_nil.1 (List.cons_ne_nil c [])),
      endsLine_append_of_ne_nil (List.cons_ne_nil c [])]
    by_cases hc : c = '\n'
    · rw [hc, withEnding_break, withEnding_nil, List.append_nil]
      exact iff_of_true (endsLine_ending ending) ⟨'\n', rfl, rfl⟩
    · rw [withEnding_cons hc, withEnding_nil]

theorem exists_last_break {text : Text} (h : '\n' ∈ text) :
    ∃ front line, text = front ++ '\n' :: line ∧ '\n' ∉ line := by
  obtain ⟨line, front, hsplit, hline⟩ := List.eq_append_cons_of_mem (List.mem_reverse.2 h)
  refine ⟨front.reverse, line.reverse, ?_, by simpa using hline⟩
  have := congrArg List.reverse hsplit
  simpa using this

theorem lastLine_append_break {line : Text} (h : line.Unbroken) (front : Text) :
    lastLine (front ++ '\n' :: line) = line := by
  have hline : ∀ c ∈ line.reverse, (!isLineBreak c) = true := by
    intro c hc
    rw [h c (List.mem_reverse.1 hc)]
    rfl
  rw [lastLine, List.reverse_append, List.reverse_cons, List.append_assoc,
    List.takeWhile_append_of_pos hline, List.singleton_append,
    List.takeWhile_cons_of_neg (by decide), List.append_nil, List.reverse_reverse]

theorem isTerminator_withEnding {text : Text} (h : '\r' ∉ text) :
    (withEnding ending text).isTerminator = text.isTerminator := by
  rw [Bool.eq_iff_iff, Block.isTerminator_iff, Block.isTerminator_iff]
  constructor
  · rintro ⟨other, hother⟩
    cases text with
    | nil => exact absurd hother.symm (ending_ne_nil other)
    | cons c rest =>
      rw [List.mem_cons, not_or] at h
      have hc : c = '\n' := by
        by_contra hc
        rw [withEnding_cons hc] at hother
        cases other <;> simp [LineEnding.text, hc, Ne.symm h.1] at hother
      subst hc
      have hrest : withEnding ending rest = [] := by
        rw [withEnding_break] at hother
        cases ending <;> cases other <;> simp [LineEnding.text] at hother
        · rw [hother]
          rfl
        · exact hother
        · exact absurd (hother ▸ List.mem_singleton_self '\n') (notMem_withEnding_cr rest)
        · exact hother
      rw [withEnding_eq_nil.1 hrest]
      exact ⟨.lf, rfl⟩
  · rintro ⟨other, rfl⟩
    cases other with
    | lf => exact ⟨ending, List.append_nil _⟩
    | crlf | cr => simp [LineEnding.text] at h

end Text

namespace Block

def withEnding (ending : LineEnding) : Block → Block
  | .code text => .code (Text.withEnding ending text)
  | .inlineDoc indent marker spaced text =>
    .inlineDoc indent marker spaced (Text.withEnding ending text)
  | .blockDoc marker text => .blockDoc marker (Text.withEnding ending text)

variable {ending : LineEnding}

theorem text_withEnding (block : Block) :
    (block.withEnding ending).text = Text.withEnding ending block.text := by
  cases block <;> rfl

theorem indent_withEnding (block : Block) : (block.withEnding ending).indent = block.indent := by
  cases block <;> rfl

theorem freshAfter_withEnding (block : Block) :
    (block.withEnding ending).freshAfter = block.freshAfter := by
  rw [freshAfter, freshAfter, text_withEnding, Bool.eq_iff_iff, Bool.or_eq_true, Bool.or_eq_true,
    List.isEmpty_iff, List.isEmpty_iff, withEnding_eq_nil, isSome_stripTerminator,
    isSome_stripTerminator, endsLine_withEnding]

theorem map_withEnding_codeOf (text : Text) :
    (codeOf text).map (withEnding ending) = codeOf (Text.withEnding ending text) := by
  by_cases h : text = []
  · subst h
    rfl
  · rw [codeOf_of_ne_nil h, codeOf_of_ne_nil (mt withEnding_eq_nil.1 h)]
    rfl

end Block

namespace Draft

variable {ending : LineEnding} {fresh : Bool}

theorem indent?_withEnding (fresh : Bool) (code : Text) :
    (withCode fresh (withEnding ending code)).indent? = (withCode fresh code).indent? := by
  by_cases h : '\n' ∈ code
  · obtain ⟨front, line, rfl, hline⟩ := exists_last_break h
    have hends : EndsLine (front ++ ['\n']) := ⟨'\n', by simp, rfl⟩
    rw [List.append_cons, withEnding_append, withEnding_of_notMem hline,
      indent?_withCode_append hends, indent?_withCode_append (endsLine_withEnding.2 hends)]
  · rw [withEnding_of_notMem h]

def withEnding (ending : LineEnding) (draft : Draft) : Draft where
  blocks := draft.blocks.map (Block.withEnding ending)
  pending := (Text.withEnding ending draft.pending.reverse).reverse
  freshLine := draft.freshLine

theorem withEnding_withCode (fresh : Bool) (code : Text) :
    (withCode fresh code).withEnding ending = withCode fresh (Text.withEnding ending code) := by
  simp [withEnding, withCode]

theorem withEnding_after (draft : Draft) (earlier : List Block) :
    (draft.after earlier).withEnding ending =
      (draft.withEnding ending).after (earlier.map (Block.withEnding ending)) := by
  simp [withEnding, after]

theorem finish_withEnding (draft : Draft) :
    (draft.withEnding ending).finish = draft.finish.map (Block.withEnding ending) := by
  rw [eq_after draft, withEnding_after, withEnding_withCode, finish_after, finish_after,
    finish_withCode, finish_withCode, List.map_append, List.map_reverse,
    Block.map_withEnding_codeOf]

theorem doc?_withEnding (ending : LineEnding) (fresh : Bool) (code : Text) {token : Token}
    (h : token.opening.text.Unbroken) (hr : '\r' ∉ token.body) :
    (withCode fresh (Text.withEnding ending code)).doc?
        (.token { token with body := Text.withEnding ending token.body }) =
      ((withCode fresh code).doc? (.token token)).map (Block.withEnding ending) := by
  obtain ⟨opening, body⟩ := token
  cases opening with
  | blockComment opener closer =>
    have hopener : Text.withEnding ending opener = opener := withEnding_of_unbroken h
    simp [doc?, Block.withEnding, Token.text, Opening.text, withEnding_append, hopener]
  | inlineComment marker =>
    have hspace : ((Text.withEnding ending body).head? == some ' ') = (body.head? == some ' ') := by
      rw [Bool.eq_iff_iff, beq_iff_eq, beq_iff_eq]
      exact head?_withEnding rfl
    have hempty : (Text.withEnding ending body).isEmpty = body.isEmpty := by
      rw [Bool.eq_iff_iff, List.isEmpty_iff, List.isEmpty_iff]
      exact withEnding_eq_nil
    simp only [doc?, hspace, hempty, isTerminator_withEnding hr, indent?_withEnding]
    cases (withCode fresh code).indent? with
    | none => rfl
    | some indent =>
      simp only [Option.bind_some]
      split
      · split
        · next hhead =>
          obtain ⟨text, rfl⟩ := List.head?_eq_some_iff.1 (beq_iff_eq.1 hhead)
          rw [withEnding_cons (by decide)]
          simp [Block.withEnding]
        · next hhead => simp [Block.withEnding, hhead]
      · rfl
  | longString | heredoc | shortString | template => rfl

/-- **A converted lexeme is taken in like the lexeme**, if its opening has no line break and its
body no carriage return. -/
theorem add_withEnding (draft : Draft) {lexeme : Lexeme}
    (h : ∀ token, lexeme = .token token → token.opening.text.Unbroken ∧ '\r' ∉ token.body) :
    (draft.withEnding ending).addAll (lexeme.withEnding ending) =
      (draft.add lexeme).withEnding ending := by
  rw [eq_after draft, withEnding_after, addAll_after, add_after, withEnding_after,
    withEnding_withCode]
  congr 1
  generalize draft.freshLine = fresh
  generalize draft.pending.reverse = code
  cases lexeme with
  | plain c =>
    have hnone : (withCode fresh code).doc? (.plain c) = none := rfl
    rw [add_withCode_of_none hnone, withEnding_withCode, withEnding_append]
    exact addAll_map_plain ..
  | token token =>
    obtain ⟨hunbroken, hr⟩ := h token rfl
    have hsame := doc?_withEnding ending fresh code hunbroken hr
    rw [Lexeme.withEnding, addAll_cons, addAll_nil]
    cases hdoc : (withCode fresh code).doc? (.token token) with
    | none =>
      rw [hdoc, Option.map_none] at hsame
      rw [add_withCode_of_none hdoc, add_withCode_of_none hsame, withEnding_withCode,
        withEnding_append]
      simp [Lexeme.text, Token.text, withEnding_append, withEnding_of_unbroken hunbroken]
    | some block =>
      obtain ⟨front, rfl⟩ := exists_indent_of_doc? hdoc
      have hindent : Text.withEnding ending block.indent = (block.withEnding ending).indent := by
        rw [Block.indent_withEnding]
        exact withEnding_of_unbroken (unbroken_of_isBlank (isBlank_indent_of_doc? hdoc))
      rw [hdoc, Option.map_some, withEnding_append, hindent] at hsame
      rw [add_withCode_of_some hdoc, withEnding_append, hindent, add_withCode_of_some hsame,
        withEnding_after, withEnding_withCode, withEnding_nil, Block.freshAfter_withEnding,
        List.map_cons, List.map_reverse, Block.map_withEnding_codeOf]

theorem addAll_withEnding (ending : LineEnding) (lexemes : List Lexeme)
    (h : ∀ token, .token token ∈ lexemes → token.opening.text.Unbroken ∧ '\r' ∉ token.body)
    (draft : Draft) :
    (draft.withEnding ending).addAll (lexemes.flatMap (Lexeme.withEnding ending)) =
      (draft.addAll lexemes).withEnding ending := by
  induction lexemes generalizing draft with
  | nil => rfl
  | cons lexeme lexemes ih =>
    rw [List.flatMap_cons, addAll_append, addAll_cons, add_withEnding, ih]
    · intro token htoken
      exact h token (List.mem_cons_of_mem _ htoken)
    · rintro token rfl
      exact h token (List.mem_cons_self ..)

end Draft

namespace Language

open Draft

variable {language : Language} {lineStart : Bool} {ending : LineEnding}

theorem unbroken_of_mem_lexemes (h : language.Orderly) {text : Text} (hr : '\r' ∉ text)
    {token : Token} (ht : .token token ∈ language.lexemes lineStart text) :
    token.opening.text.Unbroken ∧ '\r' ∉ token.body := by
  obtain ⟨before, after, hsplit⟩ := List.append_of_mem ht
  obtain ⟨rest, rfl, hl, _⟩ := exists_rest_of_lexemes_eq hsplit
  obtain ⟨_, _, ho, _⟩ := token?_eq_some_iff.1 (lexeme?_token.1 hl)
  refine ⟨unbroken_of_opening? h ho, ?_⟩
  intro hmem
  simp [Lexeme.text, Token.text, hmem] at hr

/-- The blocks of a text with code before it: the text is code as well exactly if all its blocks
are. -/
theorem prepend_classify_eq_iff {code : Text} (hne : code ≠ []) (text : Text) :
    Block.prepend code (classify language text) = Block.codeOf (code ++ text) ↔
      ∀ block ∈ classify language text, block.isCode = true := by
  have hlayout := layout_blocksFrom language true true text
  rw [← classify_eq_blocksFrom] at hlayout
  generalize classify language text = blocks at hlayout
  cases hlayout with
  | code =>
    refine iff_of_true (Block.prepend_codeOf hne text) ?_
    intro block hmem
    rw [Block.codeOf] at hmem
    split at hmem
    · simp at hmem
    · rw [List.mem_singleton.1 hmem]
      rfl
  | @doc _ _ _ _ front rest block blocks _ _ hdoc _ =>
    have hcode := isCode_of_doc? hdoc
    refine iff_of_false ?_ ?_
    · intro heq
      have hmem : block ∈ Block.prepend code (Block.codeOf front ++ block :: blocks) := by
        by_cases hf : front = []
        · rw [hf, Block.codeOf_nil, List.nil_append, Block.prepend_of_isCode_eq_false hcode]
          simp
        · rw [Block.codeOf_of_ne_nil hf]
          simp [Block.prepend]
      rw [heq, Block.codeOf_of_ne_nil (by simp [hne]), List.mem_singleton] at hmem
      rw [hmem] at hcode
      simp [Block.isCode] at hcode
    · intro hall
      have := hall block (by simp)
      rw [hcode] at this
      simp at this

/-- **A converted text is classified like the text**, unless pairs come into an open string. -/
theorem classify_withEnding (h : language.Orderly) (hadmits : language.Admits ending)
    {source : Text} (hr : '\r' ∉ source)
    (hclose : ending = .crlf → ∀ token, (language.scan source).getLast? = some (.token token) →
      ¬ token.Unclosed) :
    classify language (withEnding ending source) =
      (classify language source).map (Block.withEnding ending) := by
  have htext := flatMap_text_lexemes language true source
  have hscan := lexemes_withEnding h hadmits [] (language.lexemes true source) true true
    (by rwa [htext, List.append_nil]) (Or.inr rfl) (by simp [htext]) (fun hcrlf _ => hclose hcrlf)
  rw [withEnding_nil, lexemes_nil, List.append_nil, List.append_nil, htext] at hscan
  have hdraft := addAll_withEnding ending (language.lexemes true source)
    (fun token ht => unbroken_of_mem_lexemes h hr ht) (withCode true [])
  rw [withEnding_withCode, withEnding_nil] at hdraft
  rw [classify_eq_blocksFrom, classify_eq_blocksFrom, blocksFrom, blocksFrom, hscan, hdraft,
    finish_withEnding]

/-! ### Lone carriage returns -/

theorem admits_cr_of_mem_table (h : language ∈ table) (hne : language ≠ .shell) :
    language.Admits .cr := by
  have htable : ∀ language ∈ table, language ≠ .shell → ∀ rule ∈ language.heredocs,
      rule.lead = .anything ∧ rule.stop.Unbroken := by decide
  intro _
  exact htable language h hne

/-- **A text with carriage returns is classified like the text with line feeds** in every language
of the table but the shell. -/
theorem classify_withEnding_cr_iff (h : language ∈ table) :
    (∀ source : Text, '\r' ∉ source →
      classify language (withEnding .cr source) =
        (classify language source).map (Block.withEnding .cr)) ↔ language ≠ .shell := by
  constructor
  · rintro hall rfl
    -- With a carriage return before its delimiter the here-document does not close.
    have hheredoc := hall "cat <<E\nE\n# d\n" (by decide)
    exact absurd hheredoc (by decide)
  · intro hne source hr
    apply classify_withEnding (orderly_of_mem_table h) (admits_cr_of_mem_table h hne) hr
    intro hcrlf
    simp at hcrlf

/-- A raw string with a comment in it, a comment and a string that go on behind an escaped
terminator, and two comments alone on their lines. -/
theorem classify_withEnding_cr_iff_cCpp :
    classify .cCpp (withEnding .cr "R\"x(\n// a\n)x\"; // b\\\n// c\n\"d\\\n// e\";\n  // f\n//\n") =
      (classify .cCpp "R\"x(\n// a\n)x\"; // b\\\n// c\n\"d\\\n// e\";\n  // f\n//\n").map
        (Block.withEnding .cr) ∧
    classify .cCpp (withEnding .cr "R\"x(\n// a\n)x\"; // b\\\n// c\n\"d\\\n// e\";\n  // f\n//\n") =
      [.code "R\"x(\r// a\r)x\"; // b\\\r// c\r\"d\\\r// e\";\r".toList,
        .inlineDoc "  ".toList "//".toList true "f\r".toList,
        .inlineDoc [] "//".toList false "\r".toList] := by
  refine ⟨(classify_withEnding_cr_iff (by decide)).2 (by decide) _ (by decide), ?_⟩
  decide

/-! ### Strings that never close -/

theorem lexemes_of_unclosed (h : language.Orderly) {token : Token} (hr : '\r' ∉ token.text)
    (ht : language.token? lineStart token.text = some token) (hopen : token.Unclosed) :
    ∃ string : Token, string.opening = token.opening ∧ string.text.EndsLine ∧
      withEnding .crlf token.text = string.text ++ lastLine token.body ∧
      language.lexemes lineStart (withEnding .crlf token.text) =
        .token string :: language.lexemes true (lastLine token.body) := by
  have hhas := has_of_token? ht
  obtain ⟨_, _, ho, _⟩ := token?_eq_some_iff.1 ht
  have hunbroken := unbroken_of_opening? h ho
  obtain ⟨opening, body⟩ := token
  obtain ⟨quote, hquote, hnone, hfeed⟩ := hopen
  simp only at hquote hnone hfeed hhas ho hunbroken
  subst hquote
  obtain ⟨hsolid, hlength⟩ := h.shortStrings _ hhas
  obtain ⟨q, rfl⟩ := List.length_eq_one_iff.1 hlength
  obtain ⟨hbreak, _, hescape⟩ := hsolid.2 q (List.mem_singleton_self q)
  obtain ⟨front, line, rfl, hline⟩ := exists_last_break hfeed
  have hr' : '\r' ∉ front ++ '\n' :: line := fun hmem => hr (List.mem_append_right _ hmem)
  have hlast : lastLine (front ++ '\n' :: line) = line := by
    refine lastLine_append_break (fun c hc => isLineBreak_eq_false_iff.2 ⟨?_, ?_⟩) front
    · rintro rfl
      exact hline hc
    · rintro rfl
      exact hr' (by simp [hc])
  have hbody : withEnding .crlf (front ++ '\n' :: line) =
      withEnding .crlf (front ++ ['\n']) ++ line := by
    rw [List.append_cons, withEnding_append, withEnding_of_notMem hline]
  let string : Token := ⟨.shortString [q], withEnding .crlf (front ++ ['\n'])⟩
  have hsplit : withEnding .crlf (⟨.shortString [q], front ++ '\n' :: line⟩ : Token).text =
      string.text ++ line := by
    rw [Token.text, Token.text, withEnding_append, hbody, withEnding_of_unbroken hunbroken,
      List.append_assoc]
  have hstring : string.text = [q] ++ withEnding .crlf front ++ ['\r', '\n'] := by
    show [q] ++ withEnding .crlf (front ++ ['\n']) = _
    rw [withEnding_append, ← List.append_assoc]
    rfl
  have hl : language.lexeme? lineStart ((Lexeme.token string).text ++ line) =
      some (.token string) := by
    refine lexeme?_token.2 (token?_text_append_iff.2 ⟨?_, ?_⟩)
    · rw [← hsplit, opening?_withEnding h, ho]
    · show withEnding .crlf (front ++ ['\n']) = (withEnding .crlf (front ++ ['\n']) ++ line).take
        (Extent.shortString [q] (withEnding .crlf (front ++ ['\n']) ++ line))
      rw [← hbody, Extent.shortString_withEnding_crlf hescape hbreak hr' hline hnone, hbody,
        List.take_left]
  refine ⟨string, rfl, ?_, by rw [hsplit, hlast], ?_⟩
  · rw [hstring]
    exact endsLine_append_ending _ .crlf
  · have hstep := lexemes_append hl
    rw [show (Lexeme.token string).text = string.text from rfl] at hstep
    rw [hsplit, hstep, hlast, hstring, lineStartAfter_append]
    rfl

/-- Conversion to pairs, where the text ends in an open string: the string is code up to its last
line, and that line is classified for itself. -/
theorem exists_classify_of_unclosed (h : language.Orderly) {source : Text} (hr : '\r' ∉ source)
    {token : Token} (hlast : (language.scan source).getLast? = some (.token token))
    (hopen : token.Unclosed) :
    ∃ blocks code, code ≠ [] ∧
      (classify language source).map (Block.withEnding .crlf) =
        blocks ++ Block.codeOf (code ++ lastLine token.body) ∧
      classify language (withEnding .crlf source) =
        blocks ++ Block.prepend code (classify language (lastLine token.body)) := by
  obtain ⟨before, hscan⟩ := List.getLast?_eq_some_iff.1 hlast
  rw [scan_eq_lexemes] at hscan
  have hbefore : ∀ other, .token other ∈ before →
      other.opening.text.Unbroken ∧ '\r' ∉ other.body := by
    intro other hmem
    have hother : .token other ∈ language.lexemes true source := by
      rw [hscan]
      exact List.mem_append_left _ hmem
    exact unbroken_of_mem_lexemes h hr hother
  obtain ⟨rest, rfl, hl, hnil⟩ := exists_rest_of_lexemes_eq hscan
  obtain rfl := lexemes_eq_nil.1 hnil.symm
  obtain ⟨rest, htext, hrest⟩ := exists_of_lexemes_eq_append hscan
  obtain rfl := List.append_cancel_left htext
  rw [List.append_nil] at hl hscan hr hrest ⊢
  obtain ⟨fresh, code, blocks, hdraft⟩ := exists_eq_after ((withCode true []).addAll before)
  obtain ⟨string, hopening, hends, hsplit, hopened⟩ := lexemes_of_unclosed h
    (fun hmem => hr (List.mem_append_right _ hmem)) (lexeme?_token.1 hl) hopen
  have hcode : ∀ (draft : Draft) (other : Token), other.opening = token.opening →
      draft.doc? (.token other) = none := by
    intro draft other hother
    obtain ⟨quote, hquote, _⟩ := hopen
    simp only [doc?, hother, hquote]
  have hends' : EndsLine (withEnding .crlf code ++ string.text) :=
    (endsLine_append_of_ne_nil hends.ne_nil).2 hends
  refine ⟨(blocks.map (Block.withEnding .crlf)).reverse, withEnding .crlf code ++ string.text,
    hends'.ne_nil, ?_, ?_⟩
  · rw [classify_eq_blocksFrom, blocksFrom, hscan, addAll_append, hdraft, addAll_cons, addAll_nil,
      add_after, add_withCode_of_none (hcode _ token rfl), finish_after, finish_withCode,
      List.map_append, List.map_reverse, Block.map_withEnding_codeOf, withEnding_append,
      Lexeme.text, hsplit, List.append_assoc]
  · have hconverted := lexemes_withEnding h language.admits_crlf (Lexeme.token token).text before
      true true hr (Or.inr rfl) (by rw [← hrest]; exact hscan)
      (fun _ hnil => absurd hnil (lexeme?_isPrefix hl).1)
    rw [lineStartAfter_withEnding (by decide), Lexeme.text, hopened] at hconverted
    have hstart := addAll_withEnding .crlf before hbefore (withCode true [])
    rw [withEnding_withCode, withEnding_nil, hdraft, withEnding_after,
      withEnding_withCode] at hstart
    have hfinish := finish_addAll_withCode_append hends' fresh
      (language.lexemes true (lastLine token.body)) []
    rw [List.append_nil] at hfinish
    rw [classify_eq_blocksFrom, blocksFrom, Lexeme.text, hconverted, addAll_append, hstart,
      addAll_cons, add_after, add_withCode_of_none (hcode _ string hopening), addAll_after,
      finish_after, Lexeme.text, hfinish]
    rfl

/-- **A text with pairs is classified like the text with line feeds**, exactly if no last line of an
open string is read once more and found to be documentation. -/
theorem classify_withEnding_crlf_iff (h : language ∈ table) {source : Text} (hr : '\r' ∉ source) :
    classify language (withEnding .crlf source) =
        (classify language source).map (Block.withEnding .crlf) ↔
      ∀ token, (language.scan source).getLast? = some (.token token) → token.Unclosed →
        ∀ block ∈ classify language (lastLine token.body), block.isCode = true := by
  have horderly := orderly_of_mem_table h
  constructor
  · intro hsame token hlast hopen
    obtain ⟨blocks, code, hne, hfeeds, hpairs⟩ :=
      exists_classify_of_unclosed horderly hr hlast hopen
    rw [hfeeds, hpairs] at hsame
    exact (prepend_classify_eq_iff hne _).1 (List.append_cancel_left hsame)
  · intro hcode
    by_cases hopen : ∃ token, (language.scan source).getLast? = some (.token token) ∧ token.Unclosed
    · obtain ⟨token, hlast, hopen⟩ := hopen
      obtain ⟨blocks, code, hne, hfeeds, hpairs⟩ :=
        exists_classify_of_unclosed horderly hr hlast hopen
      rw [hfeeds, hpairs, (prepend_classify_eq_iff hne _).2 (hcode token hlast hopen)]
    · refine classify_withEnding horderly language.admits_crlf hr fun _ token hlast hunclosed => ?_
      exact hopen ⟨token, hlast, hunclosed⟩

/-- An open string whose last line is code. -/
theorem classify_withEnding_crlf_iff_python :
    classify .python (withEnding .crlf "\"a\\\nb") =
      (classify .python "\"a\\\nb").map (Block.withEnding .crlf) := by
  refine (classify_withEnding_crlf_iff (by decide) (by decide)).2 ?_
  intro token hlast _
  have hscan : (Language.python.scan "\"a\\\nb").getLast? =
      some (.token ⟨.shortString ['\x22'], "a\\\nb".toList⟩) := by decide
  obtain rfl := Lexeme.token.inj (Option.some.inj (hscan.symm.trans hlast))
  have hblocks : classify .python (lastLine "a\\\nb".toList) = [.code ['b']] := by decide
  rw [hblocks]
  decide

/-- An open string whose last line looks like a comment.  With line feeds it is code to the end,
with pairs its last line is documentation. -/
theorem classify_withEnding_crlf_python :
    (classify .python "\"a\\\n# doc").map (Block.withEnding .crlf) =
        [.code "\"a\\\r\n# doc".toList] ∧
      classify .python (withEnding .crlf "\"a\\\n# doc") =
        [.code "\"a\\\r\n".toList, .inlineDoc [] ['#'] true "doc".toList] := by
  decide

end Language

end Literate
