import Literate.Proofs.LastLines
import Literate.Proofs.LineNumbers

/-!
# The shape of classified texts

What every reader of a classified text can rely on (`Block.Canonical`): no block is empty, no two
blocks of code are neighbours, and every comment has the shape that its language gives it.

An inline comment is one line, or several of which all but the last end with a backslash, and it
has its terminator; only the last block may lack it, or have a backslash before it.  A block comment
ends with the first closing or opening token behind its opening; only the last block may have
neither.  Both follow from what one token takes of a text (`exists_of_inlineComment`,
`exists_of_blockComment`), by induction along the layout of the text.
-/

namespace Literate

namespace Text

/-! ### Continued lines -/

/-- Every line but the last one ends with a backslash. -/
def Continued (text : Text) : Prop :=
  ∀ line ∈ text.lines.dropLast, line.text.getLast? = some '\\'

instance (text : Text) : Decidable text.Continued :=
  List.decidableBAll _ text.lines.dropLast

theorem continued_of_unbroken {text : Text} (h : text.Unbroken) : text.Continued := by
  rw [Continued, lines_of_unbroken h]
  simp

theorem continued_append {line : Text} {ending : LineEnding} {rest : Text} (h : line.Unbroken)
    (hcut : ¬ CutsPair ending.text rest) :
    Continued (line ++ ending.text ++ rest) ↔ line.getLast? = some '\\' ∧ rest.Continued := by
  have hne : rest.lines ≠ [] := by
    intro hnil
    have hlength := length_lines rest
    rw [hnil, List.length_nil] at hlength
    omega
  rw [Continued, lines_append h hcut, List.dropLast_cons_of_ne_nil hne, List.forall_mem_cons]
  rfl

theorem continued_cons {c : Char} (hbreak : isLineBreak c = false) (hback : c ≠ '\\')
    (text : Text) : Continued (c :: text) ↔ text.Continued := by
  rcases exists_line text with h | ⟨line, ending, rest, hline, hcut, rfl⟩
  · exact iff_of_true (continued_of_unbroken (unbroken_cons.2 ⟨hbreak, h⟩))
      (continued_of_unbroken h)
  · have hlast : (c :: line).getLast? = some '\\' ↔ line.getLast? = some '\\' := by
      cases line with
      | nil => simp [hback]
      | cons d line => simp
    rw [continued_append hline hcut, ← hlast]
    exact continued_append (unbroken_cons.2 ⟨hbreak, hline⟩) hcut

theorem stripTerminator_append_of_ne_nil {a b : Text} (hb : b ≠ []) (hcut : ¬ CutsPair a b) :
    stripTerminator (a ++ b) = (a ++ b.stripTerminator.1, b.stripTerminator.2) := by
  by_cases hends : b.EndsLine
  · obtain ⟨content, ending, rfl, hborder⟩ := exists_ending hends
    have hwhole : ¬ CutsPair (a ++ content) ending.text := by
      rintro ⟨hr, hn⟩
      cases content with
      | nil => exact hcut ⟨by simpa using hr, hn⟩
      | cons d content =>
        rw [List.getLast?_append_of_ne_nil _ (by simp)] at hr
        exact hborder ⟨hr, hn⟩
    rw [stripTerminator_append hborder, ← List.append_assoc, stripTerminator_append hwhole]
  · rw [stripTerminator_of_not_endsLine hends, stripTerminator_of_not_endsLine]
    rwa [endsLine_append_of_ne_nil hb]

/-- The text ends with a terminator that no backslash stands before. -/
def Closed (text : Text) : Prop :=
  text.EndsLine ∧ text.stripTerminator.1.getLast? ≠ some '\\'

instance (text : Text) : Decidable text.Closed :=
  inferInstanceAs (Decidable (_ ∧ _))

theorem Closed.append_left {a b : Text} (h : b.Closed) (ha : a.getLast? ≠ some '\\')
    (hcut : ¬ CutsPair a b) : Closed (a ++ b) := by
  refine ⟨(endsLine_append_of_ne_nil h.1.ne_nil).2 h.1, ?_⟩
  rw [stripTerminator_append_of_ne_nil h.1.ne_nil hcut, List.getLast?_append]
  cases hlast : b.stripTerminator.1.getLast? with
  | none => exact ha
  | some c =>
    rw [Option.some_or, ← hlast]
    exact h.2

theorem stripTerminator_space (text : Text) :
    stripTerminator (' ' :: text) = (' ' :: text.stripTerminator.1, text.stripTerminator.2) := by
  by_cases h : text = []
  · subst h
    rfl
  · exact stripTerminator_append_of_ne_nil (a := [' ']) h (by simp [CutsPair])

theorem Closed.of_space {text : Text} (h : Closed (' ' :: text)) : text.Closed := by
  have hne : text ≠ [] := by
    rintro rfl
    exact absurd h.1 (by decide)
  refine ⟨(endsLine_append_of_ne_nil (a := [' ']) hne).1 h.1, fun hlast => h.2 ?_⟩
  rw [stripTerminator_space, List.getLast?_cons, hlast]
  rfl

theorem stripTerminator_isPrefix (text : Text) : text.stripTerminator.1 <+: text := by
  by_cases hends : text.EndsLine
  · obtain ⟨content, ending, rfl, hcut⟩ := exists_ending hends
    rw [stripTerminator_append hcut]
    exact List.prefix_append ..
  · rw [stripTerminator_of_not_endsLine hends]

theorem CutsPair.of_isPrefix {a b c : Text} (h : CutsPair a b) (hbc : b <+: c) : CutsPair a c := by
  obtain ⟨rest, rfl⟩ := hbc
  exact ⟨h.1, by rw [List.head?_append, h.2]; rfl⟩

end Text

namespace Extent

open Text

/-- **What an inline comment takes.**  All its lines but the last are continued, and it is closed or
takes the whole text. -/
theorem exists_of_inlineComment (text : Text) :
    ∃ body rest, text = body ++ rest ∧ inlineComment false text = body.length ∧
      body.stripTerminator.1.Continued ∧ (body.Closed ∨ rest = []) := by
  induction text using line_induction with
  | last text h =>
    refine ⟨text, [], by simp, ?_, ?_, Or.inr rfl⟩
    · have hlength := inlineComment_unbroken_append [] text false h
      rw [List.append_nil] at hlength
      simpa [inlineComment] using hlength
    · rw [stripTerminator_of_not_endsLine h.not_endsLine]
      exact continued_of_unbroken h
  | line line ending rest h hcut ih =>
    have hborder : ¬ CutsPair line ending.text :=
      fun hc => absurd (h _ (List.mem_of_getLast? hc.1)) (by decide)
    have hline : stripTerminator (line ++ ending.text) = (line, some ending) :=
      stripTerminator_append hborder
    have hextent : inlineComment false (line ++ ending.text ++ rest) = line.length +
        if line.getLast?.elim false (· == '\\') then ending.text.length + inlineComment false rest
        else ending.text.length := by
      rw [List.append_assoc, inlineComment_unbroken_append _ _ _ h, inlineComment_ending hcut]
    by_cases hback : line.getLast? = some '\\'
    · -- The comment goes on in the next line, if there is one.
      obtain ⟨body, behind, rfl, hbody, hcontinued, hend⟩ := ih
      refine ⟨line ++ ending.text ++ body, behind, by simp, ?_, ?_⟩
      · rw [hextent, if_pos (by simp [hback]), hbody]
        simp
      · by_cases hnil : body = []
        · subst hnil
          have hbehind : behind = [] := by
            by_contra hne
            have hpos := inlineComment_pos false hne
            rw [List.nil_append, List.length_nil] at hbody
            omega
          rw [List.append_nil, hline]
          exact ⟨continued_of_unbroken h, Or.inr hbehind⟩
        · have hcut' : ¬ CutsPair ending.text body :=
            fun hc => hcut (hc.of_isPrefix (List.prefix_append ..))
          have hcut'' : ¬ CutsPair (line ++ ending.text) body := by
            rintro ⟨hr, hn⟩
            rw [List.getLast?_append_of_ne_nil _ (ending_ne_nil ending)] at hr
            exact hcut' ⟨hr, hn⟩
          rw [stripTerminator_append_of_ne_nil hnil hcut'']
          refine ⟨(continued_append h fun hc => hcut' (hc.of_isPrefix ?_)).2 ⟨hback, hcontinued⟩,
            hend.imp_left fun hclosed => hclosed.append_left ?_ hcut''⟩
          · exact stripTerminator_isPrefix body
          · exact (endsLine_append_ending line ending).getLast?_ne
    · refine ⟨line ++ ending.text, rest, rfl, ?_, ?_, Or.inl ⟨endsLine_append_ending .., ?_⟩⟩
      · rw [hextent, if_neg]
        · simp
        · cases hlast : line.getLast? with
          | none => simp
          | some c => simpa [hlast] using hback
      · rw [hline]
        exact continued_of_unbroken h
      · rwa [hline]

/-- **What a block comment takes.**  It ends with the first closing or opening token behind its
opening, or there is none and it takes the whole text. -/
theorem exists_of_blockComment (opener closer text : Text) :
    ∃ body rest, text = body ++ rest ∧ blockComment opener closer text = body.length ∧
      ((∃ inner closing, body = inner ++ closing ∧ (closing = closer ∨ closing = opener) ∧
          ∀ before behind, text = before ++ behind → closer <+: behind ∨ opener <+: behind →
            inner.length ≤ before.length) ∨
        ¬ closer <:+: body ∧ ¬ opener <:+: body ∧ rest = []) := by
  have hreads : ∀ behind : Text, closer <+: behind ∨ opener <+: behind →
      (literally closer behind).or (literally opener behind) ≠ none := by
    intro behind h
    rw [Ne, Option.or_eq_none_iff, not_and_or]
    refine h.imp (fun hfront => ?_) fun hfront => ?_ <;> simp [literally, hfront]
  have hextent : blockComment opener closer text = (text.endOfFirst fun rest =>
      (literally closer rest).or (literally opener rest)).getD text.length := rfl
  rw [hextent]
  cases hfirst : text.endOfFirst fun rest =>
      (literally closer rest).or (literally opener rest) with
  | none =>
    have hnone := eq_none_of_endOfFirst hfirst
    refine ⟨text, [], by simp, rfl, Or.inr ⟨?_, ?_, rfl⟩⟩
    · rintro ⟨before, behind, rfl⟩
      exact hreads (closer ++ behind) (Or.inl (List.prefix_append ..)) (hnone before _ (by simp))
    · rintro ⟨before, behind, rfl⟩
      exact hreads (opener ++ behind) (Or.inr (List.prefix_append ..)) (hnone before _ (by simp))
  | some n =>
    obtain ⟨inner, back, m, rfl, hread, rfl, hearlier⟩ := exists_first_of_endOfFirst text n hfirst
    obtain ⟨closing, hclosing, hliteral⟩ : ∃ closing, (closing = closer ∨ closing = opener) ∧
        literally closing back = some m := by
      rcases Option.or_eq_some_iff.1 hread with h | ⟨_, h⟩
      · exact ⟨closer, Or.inl rfl, h⟩
      · exact ⟨opener, Or.inr rfl, h⟩
    rw [literally, Option.ite_none_right_eq_some, List.isPrefixOf_iff_prefix] at hliteral
    obtain ⟨⟨rest, rfl⟩, hm⟩ := hliteral
    obtain rfl := Option.some.inj hm
    refine ⟨inner ++ closing, rest, by simp, by simp, Or.inl ⟨inner, closing, rfl, hclosing, ?_⟩⟩
    intro before behind hsplit hfront
    by_contra hlt
    exact hreads behind hfront (hearlier before behind hsplit (by omega))

end Extent

namespace Block

open Text

/-- The shape of a block with the blocks `later` behind it. -/
def Shaped (language : Language) (later : List Block) : Block → Prop
  | code _ => True
  | inlineDoc indent marker spaced text =>
    indent.isBlank = true ∧ marker ∈ language.inlineComments ∧
      (spaced = false → text = [] ∨ text.isTerminator = true) ∧
      text.stripTerminator.1.Continued ∧
      (text.Closed ∨ later = [])
  | blockDoc marker text =>
    ∃ closer body, (marker, closer) ∈ language.blockComments ∧ text = marker ++ body ∧
      ((∃ inner closing, body = inner ++ closing ∧ (closing = closer ∨ closing = marker) ∧
          ∀ before behind, body ++ sourceOf later = before ++ behind →
            closer <+: behind ∨ marker <+: behind → inner.length ≤ before.length) ∨
        ¬ closer <:+: body ∧ ¬ marker <:+: body ∧ later = [])

/-- Blocks that a source text can have. -/
structure Canonical (language : Language) (blocks : List Block) : Prop where
  source_ne_nil : ∀ block ∈ blocks, block.source ≠ []
  /-- No two neighbours are code. -/
  separate : blocks.IsChain fun block next => ¬ (block.isCode = true ∧ next.isCode = true)
  shaped : ∀ before block later, blocks = before ++ block :: later → block.Shaped language later

end Block

namespace Language

open Draft Text

variable {language : Language} {lineStart fresh : Bool}

theorem eq_of_extent {token : Token} {rest taken left : Text}
    (ht : language.token? lineStart (token.text ++ rest) = some token)
    (hsplit : token.body ++ rest = taken ++ left)
    (hextent : token.opening.extent (token.body ++ rest) = taken.length) :
    taken = token.body ∧ left = rest := by
  have hbody := (token?_text_append_iff.1 ht).2
  rw [hextent, hsplit, List.take_left] at hbody
  rw [hbody] at hsplit
  exact ⟨hbody.symm, (List.append_cancel_left hsplit).symm⟩

theorem shaped_of_doc? (h : language.Orderly) {code rest : Text} {lexeme : Lexeme} {block : Block}
    {later : List Block} (hl : language.lexeme? lineStart (lexeme.text ++ rest) = some lexeme)
    (hdoc : (withCode fresh code).doc? lexeme = some block) (hlater : Block.sourceOf later = rest)
    (hnil : rest = [] → later = []) : block.Shaped language later := by
  have hof := ofLanguage_of_doc? hl hdoc
  rcases doc?_eq_some hdoc with ⟨opener, closer, body, rfl, rfl⟩ |
    ⟨indent, marker, body, rfl, _, hbody⟩
  · have ht := lexeme?_token.1 hl
    refine ⟨closer, body, has_of_token? ht, rfl, ?_⟩
    rw [hlater]
    obtain ⟨taken, left, hsplit, hextent, hshape⟩ :=
      Extent.exists_of_blockComment opener closer (body ++ rest)
    obtain ⟨rfl, rfl⟩ := eq_of_extent ht hsplit hextent
    exact hshape.imp_right fun ⟨hcloser, hopener, hleft⟩ => ⟨hcloser, hopener, hnil hleft⟩
  · have ht := lexeme?_token.1 hl
    have hmem : marker ∈ language.inlineComments := has_of_token? ht
    have hmarker : (marker.getLast? == some '\\') = false := by
      rw [beq_eq_false_iff_ne]
      exact fun hlast => ((h.inlineComments marker hmem).2 _ (List.mem_of_getLast? hlast)).2.2 rfl
    obtain ⟨taken, left, hsplit, hextent, hcontinued, hend⟩ :=
      Extent.exists_of_inlineComment (body ++ rest)
    have hextent' : (Opening.inlineComment marker).extent (body ++ rest) = taken.length := by
      rw [Opening.extent, hmarker, hextent]
    obtain ⟨rfl, rfl⟩ := eq_of_extent ht hsplit hextent'
    rcases hbody with ⟨text, rfl, rfl⟩ | ⟨_, rfl⟩
    · rw [stripTerminator_space, continued_cons rfl (by decide)] at hcontinued
      exact ⟨hof.1, hof.2.1, hof.2.2, hcontinued, hend.imp Closed.of_space hnil⟩
    · exact ⟨hof.1, hof.2.1, hof.2.2, hcontinued, hend.imp_right hnil⟩

/-- **Every block has its shape.** -/
theorem Layout.shaped (h : language.Orderly) {text : Text} {blocks : List Block}
    (hlayout : Layout language lineStart fresh text blocks) :
    ∀ before block later, blocks = before ++ block :: later → block.Shaped language later := by
  have hcode : ∀ (code : Text) (blocks : List Block),
      (∀ before block later, blocks = before ++ block :: later → block.Shaped language later) →
      ∀ before block later, Block.codeOf code ++ blocks = before ++ block :: later →
        block.Shaped language later := by
    intro code blocks hblocks before block later hsplit
    by_cases hnil : code = []
    · rw [hnil, Block.codeOf_nil] at hsplit
      exact hblocks before block later hsplit
    · rw [Block.codeOf_of_ne_nil hnil, List.singleton_append] at hsplit
      cases before with
      | nil =>
        obtain ⟨rfl, _⟩ := List.cons.inj hsplit
        trivial
      | cons first before => exact hblocks before block later (List.cons.inj hsplit).2
  induction hlayout with
  | @code _ _ text =>
    have hempty : ∀ before block later, ([] : List Block) = before ++ block :: later →
        block.Shaped language later := by simp
    simpa using hcode text [] hempty
  | @doc lineStart fresh read lexeme code rest block blocks hscan hread hdoc htail ih =>
    refine hcode code (block :: blocks) ?_
    intro before other later hsplit
    cases before with
    | nil =>
      obtain ⟨rfl, rfl⟩ := List.cons.inj hsplit
      refine shaped_of_doc? h (lexeme?_of_read hscan hread hdoc).2 hdoc htail.sourceOf_eq ?_
      rintro rfl
      exact htail.eq_nil
    | cons first before => exact ih before other later (List.cons.inj hsplit).2

end Language

/-- **Classified texts are canonical.**  No block is empty, no two neighbours are code, and every
comment has its shape. -/
theorem canonical_classify {language : Language} (h : language ∈ Language.table) (source : Text) :
    Block.Canonical language (classify language source) where
  source_ne_nil block hb := Document.source_ne_nil_of_mem_classify h hb
  separate := by
    refine (Document.isChain_classify language source).imp fun block next hprecedes hcode => ?_
    cases block with
    | code =>
      cases next with
      | code => exact hprecedes
      | inlineDoc | blockDoc => exact absurd hcode.2 nofun
    | inlineDoc | blockDoc => exact absurd hcode.1 nofun
  shaped :=
    (Language.layout_blocksFrom language true true source).shaped (Language.orderly_of_mem_table h)

/-- A block comment that another one ends, a continued comment, and a comment that stays open. -/
theorem canonical_classify_javascript :
    Block.Canonical .javascript
      [.code "f(); ", .blockDoc "/*" "/* a /*", .code " b\n",
        .inlineDoc [] "//" true "c\\\n d\n", .code "g ", .blockDoc "/*" "/*"] := by
  have hblocks : classify .javascript "f(); /* a /* b\n// c\\\n d\ng /*" =
      [.code "f(); ", .blockDoc "/*" "/* a /*", .code " b\n",
        .inlineDoc [] "//" true "c\\\n d\n", .code "g ", .blockDoc "/*" "/*"] := by decide
  rw [← hblocks]
  exact canonical_classify (by decide) _

end Literate
