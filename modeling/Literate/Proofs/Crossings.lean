import Literate.Proofs.Borders
import Literate.Proofs.Closings

/-!
# Exchanging what stands behind code

A text starts with a block of code that ends its line, and what stands behind it is exchanged for
another text.  If the scan has a border behind the code, the code stays what it is, and the new text
is classified for itself (`blocksFrom_append_of_border`).  If a token reaches over the end of the
code, it is a here-document that closes with blanks, and it swallows the first character of a new
text that does not start with a blank (`exists_code_of_crossing`).
-/

namespace Literate

namespace Language

open Draft Text

variable {language : Language} {lineStart : Bool} {code rest : Text} {blocks : List Block}

/-- **The border stays.** -/
theorem blocksFrom_append_of_border (h : language.Orderly) {fresh : Bool}
    (hblocks : language.blocksFrom lineStart fresh (code ++ rest) = .code code :: blocks)
    (hends : code.EndsLine) (hrest : rest.EndsLine) (hcut : ¬ CutsPair code rest)
    (hpairs : PairsToEnd (code ++ rest)) {before after : List Lexeme}
    (hscan : language.lexemes lineStart (code ++ rest) = before ++ after)
    (hcover : before.flatMap Lexeme.text = code) {rest' : Text} (hcut' : ¬ CutsPair code rest') :
    language.lexemes lineStart (code ++ rest') =
        before ++ language.lexemes (code.lineStartAfter lineStart) rest' ∧
      language.blocksFrom lineStart fresh (code ++ rest') =
        Block.prepend code (language.blocksFrom (code.lineStartAfter lineStart) true rest') := by
  subst hcover
  have hscan' := lexemes_append_of_border h hrest rest' before after lineStart []
  simp only [List.append_nil, List.nil_append] at hscan'
  have hsame := hscan' (Or.inr hends) hcut hcut' hpairs hscan
  have hcode := addAll_of_code hblocks hscan (Nat.le_refl _)
  exact ⟨hsame, blocksFrom_append hends hsame hcode⟩

theorem exists_read_of_code {fresh : Bool} {text : Text}
    (hblocks : language.blocksFrom lineStart fresh text = .code code :: blocks)
    (hne : blocks ≠ []) :
    ∃ read after indent, language.lexemes lineStart text = read ++ after ∧
      read.flatMap Lexeme.text = code ++ indent ∧ Text.isBlank indent = true ∧
      after ≠ [] := by
  obtain ⟨block, blocks, rfl⟩ := List.exists_cons_of_ne_nil hne
  obtain ⟨read, lexeme, rest, rfl, hscan, hread, hdoc, _⟩ := exists_read_of_code_cons hblocks
  have hcover := (lexeme?_of_read hscan hread hdoc).1
  exact ⟨read, _, block.indent, hscan, hcover, isBlank_indent_of_doc? hdoc, by simp⟩

theorem isBlank_of_crossing {fresh : Bool} {before after : List Lexeme} {lexeme : Lexeme}
    {front back : Text}
    (hblocks : language.blocksFrom lineStart fresh (before.flatMap Lexeme.text ++ front ++ rest) =
      .code (before.flatMap Lexeme.text ++ front) :: blocks)
    (hne : blocks ≠ [])
    (hscan : language.lexemes lineStart (before.flatMap Lexeme.text ++ front ++ rest) =
      before ++ lexeme :: after)
    (hlexeme : lexeme.text = front ++ back) (hfront : front ≠ []) :
    back.isBlank = true ∧ ∃ behind, behind ≠ [] ∧ rest = back ++ behind ∧
      language.lexeme? (lineStartAfter lineStart (before.flatMap Lexeme.text))
        (lexeme.text ++ behind) = some lexeme := by
  obtain ⟨read, later, indent, hread, htext, hblank, hlater⟩ := exists_read_of_code hblocks hne
  obtain ⟨behind, hbehind, hl, hafter⟩ := exists_rest_of_lexemes_eq hscan
  obtain rfl : rest = back ++ behind := by
    rw [hlexeme] at hbehind
    simpa using hbehind
  -- The lexeme is among those of the code and of the indent behind it.
  obtain ⟨more, hmore, hmid⟩ : ∃ more, read = before ++ lexeme :: more ∧ after = more ++ later := by
    have hpos := List.length_pos_iff.2 hfront
    have hlength := congrArg List.length htext
    rw [List.length_append, List.length_append] at hlength
    rcases List.append_eq_append_iff.1 (hscan.symm.trans hread) with
      ⟨middle, rfl, hmiddle⟩ | ⟨middle, rfl, _⟩
    · cases middle with
      | nil =>
        rw [List.append_nil] at hlength
        omega
      | cons first middle =>
        obtain ⟨rfl, rfl⟩ := List.cons.inj hmiddle
        exact ⟨middle, rfl, rfl⟩
    · rw [List.flatMap_append, List.length_append] at hlength
      omega
  have hindent : back ++ more.flatMap Lexeme.text = indent := by
    rw [hmore, List.flatMap_append, List.flatMap_cons, hlexeme] at htext
    simpa using htext
  rw [← hindent, Text.isBlank, List.all_append, Bool.and_eq_true] at hblank
  refine ⟨hblank.1, behind, ?_, rfl, hl⟩
  rintro rfl
  rw [lexemes_nil, hmid, List.append_eq_nil_iff] at hafter
  exact hlater hafter.2

/-- **A lexeme that reaches over the end of code is a here-document**, because what it takes of the
next line is blank. -/
theorem heredoc_of_crossing (h : language.Orderly) {fresh : Bool} {before after : List Lexeme}
    {lexeme : Lexeme} {front back : Text}
    (hblocks : language.blocksFrom lineStart fresh (code ++ rest) = .code code :: blocks)
    (hne : blocks ≠ []) (hends : code.EndsLine)
    (hscan : language.lexemes lineStart (code ++ rest) = before ++ lexeme :: after)
    (hcode : before.flatMap Lexeme.text ++ front = code) (hlexeme : lexeme.text = front ++ back)
    (hfront : front ≠ []) (hback : back ≠ []) :
    ∃ rule opener delimiter body, rule.Orderly ∧ delimiter.Unbroken ∧
      rule.shape.fewest ≤ delimiter.length ∧ EndsLine body ∧ front = opener ++ body ∧
      language.opening? (lineStartAfter lineStart (before.flatMap Lexeme.text)) front =
        some (.heredoc rule opener delimiter) ∧
      body.length < Extent.heredoc rule delimiter (body ++ rest) := by
  subst hcode
  obtain ⟨hblank, behind, hbehind, rfl, hl⟩ :=
    isBlank_of_crossing hblocks hne hscan hlexeme hfront
  have hfrontEnds : EndsLine front := (endsLine_append_of_ne_nil hfront).1 hends
  have hpos := List.length_pos_iff.2 hback
  cases lexeme with
  | plain c =>
    have hlength := congrArg List.length hlexeme
    have := List.length_pos_iff.2 hfront
    simp only [Lexeme.text, List.length_append, List.length_cons, List.length_nil] at hlength
    omega
  | token token =>
    have ht := lexeme?_token.1 hl
    have htoken : token.text = front ++ back := hlexeme
    have ho := (token?_text_append_iff.1 ht).1
    rw [htoken, List.append_assoc, opening?_append_of_endsLine h hfrontEnds] at ho
    obtain ⟨body, rfl, hbodyEnds⟩ := exists_append_of_opening? h hfrontEnds ho
    have hbody : token.body = body ++ back := by
      rw [Token.text, List.append_assoc] at htoken
      exact List.append_cancel_left htoken
    obtain ⟨c, hlast⟩ : ∃ c, back.getLast? = some c :=
      ⟨back.getLast hback, List.getLast?_eq_some_getLast hback⟩
    have hc : isBlank c = true := by
      rw [Text.isBlank, List.all_eq_true] at hblank
      exact hblank c (List.mem_of_getLast? hlast)
    have hlast' : token.body.getLast? = some c := by
      rw [hbody, List.getLast?_append, hlast]
      rfl
    obtain ⟨rule, opener, delimiter, hopening⟩ := heredoc_of_isBlank h ht hbehind hlast' hc
    have hhas := has_of_token? ht
    rw [hopening] at hhas
    obtain ⟨hrule, start, source, hopen⟩ := hhas
    obtain ⟨hunbroken, hleast⟩ := Heredoc.delimiter_of_opening? (h.heredocs _ hrule) hopen
    refine ⟨rule, opener, delimiter, body, h.heredocs _ hrule, hunbroken, hleast, hbodyEnds, ?_, ?_,
      ?_⟩
    · rw [hopening]
      rfl
    · rw [ho, hopening]
    · have hextent := extent_of_token? hbehind ht
      rw [hopening, hbody, List.append_assoc, Opening.extent] at hextent
      rw [hextent, List.length_append]
      omega

/-- **The new text is swallowed.**  If a token reaches over the end of the code, and the new text
behind it does not start with a blank, its first character becomes code. -/
theorem exists_code_of_crossing (h : language.Orderly) {fresh : Bool} {before after : List Lexeme}
    {lexeme : Lexeme} {front back : Text}
    (hblocks : language.blocksFrom lineStart fresh (code ++ rest) = .code code :: blocks)
    (hne : blocks ≠ []) (hends : code.EndsLine) (hrest : rest.EndsLine)
    (hcut : ¬ CutsPair code rest) (hpairs : PairsToEnd (code ++ rest))
    (hscan : language.lexemes lineStart (code ++ rest) = before ++ lexeme :: after)
    (hcode : before.flatMap Lexeme.text ++ front = code) (hlexeme : lexeme.text = front ++ back)
    (hfront : front ≠ []) (hback : back ≠ []) {c : Char} {rest' : Text}
    (hc : isBlank c = false) (hcut' : ¬ CutsPair code (c :: rest')) :
    ∃ text blocks', language.blocksFrom lineStart fresh (code ++ c :: rest') =
      .code text :: blocks' ∧ code ++ [c] <+: text := by
  obtain ⟨rule, opener, delimiter, body, horderly, hunbroken, hleast, hbodyEnds, hfrontEq, ho,
    hlt⟩ := heredoc_of_crossing h hblocks hne hends hscan hcode hlexeme hfront hback
  subst hcode
  have hscan' := lexemes_append_of_border h hrest (c :: rest') before (lexeme :: after) lineStart
    front (Or.inr hends) hcut hcut' hpairs hscan
  have hadd := addAll_of_code hblocks hscan (by simp)
  have hfrontEnds : EndsLine front := (endsLine_append_of_ne_nil hfront).1 hends
  -- The here-document does not close before the new text either.
  have hlong : body.length < Extent.heredoc rule delimiter (body ++ c :: rest') := by
    by_contra hnot
    have hshort := Opening.heredoc_append horderly hunbroken hleast rest hbodyEnds
      (List.cons_ne_nil c rest') (Nat.le_of_not_lt hnot)
    omega
  obtain ⟨n, hn⟩ : ∃ n,
      Extent.heredoc rule delimiter (body ++ c :: rest') = body.length + (n + 1) :=
    ⟨Extent.heredoc rule delimiter (body ++ c :: rest') - body.length - 1, by omega⟩
  let token : Token := ⟨.heredoc rule opener delimiter, body ++ c :: rest'.take n⟩
  have ht : language.token? (lineStartAfter lineStart (before.flatMap Lexeme.text))
      (front ++ c :: rest') = some token := by
    refine token?_eq_some_iff.2 ⟨body ++ c :: rest', ?_, ?_, ?_⟩
    · rw [hfrontEq, List.append_assoc]
      rfl
    · rw [opening?_append_of_endsLine h hfrontEnds, ho]
    · simp only [token, Opening.extent]
      rw [hn, List.take_length_add_append, List.take_succ_cons]
  obtain ⟨behind, hbehind⟩ := (token?_isPrefix ht).2
  have htoken : token.text = front ++ c :: rest'.take n := by
    rw [hfrontEq, List.append_assoc]
    rfl
  have hl : language.lexeme? (lineStartAfter lineStart (before.flatMap Lexeme.text))
      ((Lexeme.token token).text ++ behind) = some (.token token) := by
    refine lexeme?_token.2 ?_
    show language.token? _ (token.text ++ behind) = some token
    rw [hbehind, ht]
  have hstep := lexemes_append hl
  rw [show (Lexeme.token token).text = token.text from rfl, hbehind] at hstep
  rw [blocksFrom, hscan', hstep, addAll_append, hadd, addAll_cons, add_withCode_of_none rfl,
    show (Lexeme.token token).text = token.text from rfl, htoken, ← List.append_assoc]
  exact exists_code_of_finish hc _ _

end Language

end Literate
