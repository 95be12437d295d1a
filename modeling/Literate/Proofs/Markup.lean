import Literate.Proofs.JsonText
import Literate.Region.Html
import Mathlib.Data.List.Forall2
import Mathlib.Data.List.Infix
import Mathlib.Data.List.SplitBy

/-!
# Markup cannot be forged

Between tags a text is written without angle brackets, and it can be read back:

  `((text.toMarkup.replace "&lt;" "<").replace "&gt;" ">").replace "&amp;" "&" = text`.

So the first bracket behind a text is the one that ends it, whatever the text looks like.  An element
of code and an element of a block comment are told apart by their first tag, and of each of them the
content can be read off, and of code the number of its first line as well (`html_append_inj`).
Element by element, the markup of such regions shows them as they are (`htmlOf_eq_iff_looksLike`).
-/

namespace Literate

namespace Text

/-! ### Replacing -/

/-- Like `replace`, where the first `inside` characters belong to a place already replaced. -/
def replaceFrom (old new : Text) : Nat → Text → Text
  | _, [] => []
  | inside + 1, _ :: rest => replaceFrom old new inside rest
  | 0, c :: rest =>
    if startsWith old (c :: rest) then new ++ replaceFrom old new (old.length - 1) rest
    else c :: replaceFrom old new 0 rest

/-- Put the new text in every place of the old one, from left to right. -/
def replace (text old new : Text) : Text :=
  replaceFrom old new 0 text

theorem replaceFrom_length_append (old new a b : Text) :
    replaceFrom old new a.length (a ++ b) = b.replace old new := by
  induction a with
  | nil => rfl
  | cons c a ih => exact ih

theorem replace_append {old : Text} (hne : old ≠ []) (new rest : Text) :
    (old ++ rest).replace old new = new ++ rest.replace old new := by
  obtain ⟨c, more, rfl⟩ := List.exists_cons_of_ne_nil hne
  have hstarts : startsWith (c :: more) (c :: (more ++ rest)) = true :=
    startsWith_iff.2 ⟨hne, List.prefix_append (c :: more) rest⟩
  show replaceFrom (c :: more) new 0 (c :: (more ++ rest)) = _
  rw [replaceFrom, if_pos hstarts]
  exact congrArg (new ++ ·) (replaceFrom_length_append (c :: more) new more rest)

theorem replace_cons {old : Text} {c : Char} {rest : Text}
    (h : startsWith old (c :: rest) = false) (new : Text) :
    replace (c :: rest) old new = c :: rest.replace old new := by
  show replaceFrom old new 0 (c :: rest) = _
  rw [replaceFrom, h]
  rfl

theorem replace_append_of_notMem {old a : Text} {c : Char} (hc : old.head? = some c)
    (ha : c ∉ a) (new b : Text) : (a ++ b).replace old new = a ++ b.replace old new := by
  induction a with
  | nil => rfl
  | cons d a ih =>
    rw [List.mem_cons, not_or] at ha
    have hstarts : startsWith old (d :: (a ++ b)) = false := by
      obtain ⟨more, rfl⟩ := List.head?_eq_some_iff.1 hc
      rw [Bool.eq_false_iff, Ne, startsWith_iff, List.cons_prefix_cons]
      exact fun h => ha.1 h.2.1
    rw [List.cons_append, replace_cons hstarts, ih ha.2, List.cons_append]

/-! ### Entities -/

/-- The characters that mean something between tags. -/
def special : Text :=
  ['<', '>', '&']

theorem forall_special {p : Char → Prop} : (∀ c ∈ special, p c) ↔ p '<' ∧ p '>' ∧ p '&' := by
  simp [special]

/-- The text with some of the special characters written as entities. -/
def escaping (characters text : Text) : Text :=
  text.flatMap fun c => if c ∈ characters then markupCharacter c else [c]

theorem markupCharacter_of_notMem {c : Char} (h : c ∉ special) : markupCharacter c = [c] := by
  simp only [special, List.mem_cons, List.not_mem_nil, or_false, not_or] at h
  simp [markupCharacter, h]

theorem toMarkup_eq_escaping (text : Text) : text.toMarkup = escaping special text := by
  unfold toMarkup escaping
  congr 1
  funext c
  by_cases hc : c ∈ special
  · rw [if_pos hc]
  · rw [if_neg hc, markupCharacter_of_notMem hc]

theorem escaping_nil (text : Text) : escaping [] text = text := by
  simp [escaping]

theorem escaping_cons (characters : Text) (c : Char) (text : Text) :
    escaping characters (c :: text) =
      (if c ∈ characters then markupCharacter c else [c]) ++ escaping characters text :=
  List.flatMap_cons

theorem exists_markupCharacter_eq {c : Char} (h : c ∈ special) :
    ∃ name, markupCharacter c = '&' :: name ∧ '&' ∉ name := by
  have hentity : ∀ c ∈ special, (markupCharacter c).head? = some '&' ∧
      '&' ∉ (markupCharacter c).tail := forall_special.2 (by decide)
  obtain ⟨hhead, htail⟩ := hentity c h
  obtain ⟨name, hname⟩ := List.head?_eq_some_iff.1 hhead
  rw [hname] at htail ⊢
  exact ⟨name, rfl, htail⟩

theorem startsWith_markupCharacter {c d : Char} (hc : c ∈ special) (hd : d ∈ special)
    (hne : d ≠ c) (rest : Text) :
    startsWith (markupCharacter c) (markupCharacter d ++ rest) = false := by
  have hpairs : ∀ c ∈ special, ∀ d ∈ special, d ≠ c → 2 ≤ (markupCharacter d).length ∧
      ¬ (markupCharacter c).take 2 <+: (markupCharacter d).take 2 := by
    simp only [forall_special]
    decide
  obtain ⟨hlength, hdiffer⟩ := hpairs c hc d hd hne
  rw [Bool.eq_false_iff, Ne, startsWith_iff]
  rintro ⟨_, hfront⟩
  have htake := hfront.take 2
  rw [List.take_append_of_le_length hlength] at htake
  exact hdiffer htake

/-- **One kind of entity is read back**, as long as every ampersand is written as an entity. -/
theorem replace_escaping {c : Char} {others : Text} (hc : c ∈ special) (hothers : others ⊆ special)
    (hnew : c ∉ others) (hamp : '&' ∈ c :: others) (text : Text) :
    (escaping (c :: others) text).replace (markupCharacter c) [c] = escaping others text := by
  obtain ⟨entity, hentity, _⟩ := exists_markupCharacter_eq hc
  have hhead : (markupCharacter c).head? = some '&' := by
    rw [hentity]
    rfl
  have hne : markupCharacter c ≠ [] := by
    rw [hentity]
    exact List.cons_ne_nil '&' entity
  induction text with
  | nil => rfl
  | cons d text ih =>
    rw [escaping_cons, escaping_cons]
    by_cases hd : d = c
    · subst hd
      rw [if_pos (List.mem_cons_self ..), if_neg hnew, replace_append hne, ih]
    · by_cases hmem : d ∈ others
      · rw [if_pos (List.mem_cons_of_mem c hmem), if_pos hmem]
        have hother := startsWith_markupCharacter hc (hothers hmem) hd (escaping (c :: others) text)
        obtain ⟨name, hname, hrest⟩ := exists_markupCharacter_eq (hothers hmem)
        rw [hname, List.cons_append] at hother ⊢
        rw [replace_cons hother, replace_append_of_notMem hhead hrest, ih, List.cons_append]
      · have hplain : d ∉ c :: others := by
          rw [List.mem_cons, not_or]
          exact ⟨hd, hmem⟩
        have hchar : '&' ∉ [d] := by
          rw [List.mem_singleton]
          rintro rfl
          exact hplain hamp
        rw [if_neg hplain, if_neg hmem, replace_append_of_notMem hhead hchar, ih]

/-- **A text between tags is read back**, the ampersands last. -/
theorem replace_toMarkup (text : Text) :
    ((text.toMarkup.replace "&lt;" "<").replace "&gt;" ">").replace "&amp;" "&" = text := by
  have hless : (escaping special text).replace "&lt;" "<" = escaping ['>', '&'] text :=
    replace_escaping (c := '<') (by decide) (by decide) (by decide) (by decide) text
  have hgreater : (escaping ['>', '&'] text).replace "&gt;" ">" = escaping ['&'] text :=
    replace_escaping (c := '>') (by decide) (by decide) (by decide) (by decide) text
  have hand : (escaping ['&'] text).replace "&amp;" "&" = escaping [] text :=
    replace_escaping (c := '&') (by decide) (by decide) (by decide) (by decide) text
  rw [toMarkup_eq_escaping, hless, hgreater, hand, escaping_nil]

theorem toMarkup_injective : Function.Injective toMarkup := by
  intro text other h
  rw [← replace_toMarkup text, h, replace_toMarkup]

/-- **There are no angle brackets in a text between tags.** -/
theorem notMem_toMarkup (text : Text) : '<' ∉ text.toMarkup ∧ '>' ∉ text.toMarkup := by
  have hspecial : ∀ c ∈ special, '<' ∉ markupCharacter c ∧ '>' ∉ markupCharacter c :=
    forall_special.2 (by decide)
  have hchar : ∀ c, '<' ∉ markupCharacter c ∧ '>' ∉ markupCharacter c := by
    intro c
    by_cases hc : c ∈ special
    · exact hspecial c hc
    · rw [markupCharacter_of_notMem hc, List.mem_singleton, List.mem_singleton]
      constructor
      · rintro rfl
        exact hc (by decide)
      · rintro rfl
        exact hc (by decide)
  simp only [toMarkup, List.mem_flatMap, not_exists, not_and]
  exact ⟨fun c _ => (hchar c).1, fun c _ => (hchar c).2⟩

theorem append_inj_of_closer {closer a b x y : Text} {c : Char} (hc : closer.head? = some c)
    (ha : c ∉ a) (hb : c ∉ b) (h : a ++ (closer ++ x) = b ++ (closer ++ y)) : a = b ∧ x = y := by
  obtain ⟨more, rfl⟩ := List.head?_eq_some_iff.1 hc
  induction a generalizing b with
  | nil =>
    cases b with
    | nil => exact ⟨rfl, List.append_cancel_left h⟩
    | cons d b =>
      obtain ⟨rfl, _⟩ := List.cons.inj h
      exact absurd (List.mem_cons_self ..) hb
  | cons d a ih =>
    cases b with
    | nil =>
      obtain ⟨rfl, _⟩ := List.cons.inj h
      exact absurd (List.mem_cons_self ..) ha
    | cons e b =>
      rw [List.mem_cons, not_or] at ha hb
      obtain ⟨rfl, hrest⟩ := List.cons.inj h
      obtain ⟨rfl, hxy⟩ := ih ha.2 hb.2 hrest
      exact ⟨rfl, hxy⟩

theorem ofNat_injective : Function.Injective ofNat := by
  intro n m h
  rw [← Nat.ofDigitChars_ten_toDigits (n := n), ← Nat.ofDigitChars_ten_toDigits (n := m)]
  exact congrArg (Nat.ofDigitChars 10 · 0) h

end Text

namespace Region

open Text

variable {mode : EditorMode} {region other : Region} {rest rest' : Text}

/-! ### Elements -/

/-- The region is shown character for character: it is code or a block comment. -/
def IsVerbatim (region : Region) : Prop :=
  region.role = .code ∨ region.role = .comment [] true

instance (region : Region) : Decidable region.IsVerbatim :=
  inferInstanceAs (Decidable (_ ∨ _))

/-- What can be told of two regions in their markup is the same. -/
structure LooksLike (region other : Region) : Prop where
  kind : region.role.kind = other.role.kind
  content : region.content = other.content
  firstLine : region.role.kind = .code → region.firstLine = other.firstLine

/-- **Number and content can be read off an element of code**, and where it ends. -/
theorem codeHtml_append_inj {line line' : Nat} {content content' : Text}
    (h : codeHtml mode line content ++ rest = codeHtml mode line' content' ++ rest') :
    line = line' ∧ content = content' ∧ rest = rest' := by
  have hquote : ∀ n, '\x22' ∉ ofNat n := by
    intro n hmem
    exact absurd (isDigit_of_mem_ofNat hmem) (by decide)
  unfold codeHtml at h
  simp only [List.append_assoc] at h
  obtain ⟨hline, hafter⟩ := append_inj_of_closer rfl (hquote line) (hquote line')
    (List.append_cancel_left h)
  obtain ⟨hcontent, hrest⟩ := append_inj_of_closer (c := '<') (by decide +kernel)
    (notMem_toMarkup content).1 (notMem_toMarkup content').1
    (List.append_cancel_left (List.append_cancel_left hafter))
  exact ⟨ofNat_injective hline, toMarkup_injective hcontent, hrest⟩

theorem commentHtml_append_inj {content content' : Text}
    (h : commentHtml mode [] true content ++ rest = commentHtml mode [] true content' ++ rest') :
    content = content' ∧ rest = rest' := by
  unfold commentHtml at h
  simp only [List.append_assoc, List.append_cancel_left_eq, if_true] at h
  obtain ⟨hcontent, hrest⟩ := append_inj_of_closer (c := '<') (by decide +kernel)
    (notMem_toMarkup content).1 (notMem_toMarkup content').1 h
  exact ⟨toMarkup_injective hcontent, hrest⟩

theorem codeHtml_append_ne (mode : EditorMode) (line : Nat) (content content' : Text) :
    codeHtml mode line content ++ rest ≠ commentHtml mode [] true content' ++ rest' := by
  intro h
  unfold codeHtml commentHtml at h
  simp only [List.append_assoc] at h
  have htag := congrArg (List.take 20) h
  rw [List.take_append_of_le_length (by decide +kernel),
    List.take_append_of_le_length (by decide +kernel)] at htag
  exact absurd htag (by decide +kernel)

theorem html_code (h : region.role = .code) (mode : EditorMode) :
    html mode region = codeHtml mode region.firstLine region.content := by
  unfold html
  rw [h]

theorem html_blockComment (h : region.role = .comment [] true) (mode : EditorMode) :
    html mode region = commentHtml mode [] true region.content := by
  unfold html
  rw [h]

/-- **A region can be read off its element**, as far as it is to be seen there. -/
theorem html_append_inj (h : region.IsVerbatim) (h' : other.IsVerbatim)
    (heq : html mode region ++ rest = html mode other ++ rest') :
    LooksLike region other ∧ rest = rest' := by
  rcases h with hrole | hrole <;> rcases h' with hrole' | hrole'
  · rw [html_code hrole, html_code hrole'] at heq
    obtain ⟨hline, hcontent, hrest⟩ := codeHtml_append_inj heq
    exact ⟨⟨by rw [hrole, hrole'], hcontent, fun _ => hline⟩, hrest⟩
  · rw [html_code hrole, html_blockComment hrole'] at heq
    exact (codeHtml_append_ne _ _ _ _ heq).elim
  · rw [html_blockComment hrole, html_code hrole'] at heq
    exact (codeHtml_append_ne _ _ _ _ heq.symm).elim
  · rw [html_blockComment hrole, html_blockComment hrole'] at heq
    obtain ⟨hcontent, hrest⟩ := commentHtml_append_inj heq
    refine ⟨⟨by rw [hrole, hrole'], hcontent, ?_⟩, hrest⟩
    intro hkind
    rw [hrole] at hkind
    simp [Role.kind] at hkind

theorem LooksLike.html_eq (h : region.IsVerbatim) (h' : other.IsVerbatim)
    (hlooks : LooksLike region other) (mode : EditorMode) : html mode region = html mode other := by
  obtain ⟨hkind, hcontent, hline⟩ := hlooks
  rcases h with hrole | hrole <;> rcases h' with hrole' | hrole' <;>
    simp only [hrole, hrole', Role.kind, reduceCtorEq] at hkind hline
  · rw [html_code hrole, html_code hrole', hline trivial, hcontent]
  · rw [html_blockComment hrole, html_blockComment hrole', hcontent]

theorem html_ne_nil (h : region.IsVerbatim) (mode : EditorMode) : html mode region ≠ [] := by
  intro hnil
  rcases h with hrole | hrole
  · rw [html_code hrole] at hnil
    unfold codeHtml at hnil
    simp only [List.append_eq_nil_iff] at hnil
    exact absurd hnil.2 (by decide +kernel)
  · rw [html_blockComment hrole] at hnil
    unfold commentHtml at hnil
    simp only [List.append_eq_nil_iff] at hnil
    exact absurd hnil.2 (by decide +kernel)

/-! ### All elements -/

theorem htmlOf_cons (mode : EditorMode) (region : Region) (regions : List Region) :
    htmlOf mode (region :: regions) = html mode region ++ htmlOf mode regions :=
  List.flatMap_cons

/-- **What looks the same is the same**, element by element. -/
theorem forall₂_looksLike_of_htmlOf_eq {regions others : List Region}
    (h : ∀ region ∈ regions, region.IsVerbatim) (h' : ∀ region ∈ others, region.IsVerbatim)
    (heq : htmlOf mode regions = htmlOf mode others) : List.Forall₂ LooksLike regions others := by
  induction regions generalizing others with
  | nil =>
    cases others with
    | nil => exact .nil
    | cons other others =>
      rw [htmlOf_cons] at heq
      have hother := h' other (List.mem_cons_self ..)
      exact absurd (List.append_eq_nil_iff.1 heq.symm).1 (html_ne_nil hother mode)
  | cons region regions ih =>
    have hregion := h region (List.mem_cons_self ..)
    cases others with
    | nil =>
      rw [htmlOf_cons] at heq
      exact absurd (List.append_eq_nil_iff.1 heq).1 (html_ne_nil hregion mode)
    | cons other others =>
      rw [htmlOf_cons, htmlOf_cons] at heq
      obtain ⟨hlooks, hrest⟩ := html_append_inj hregion (h' other (List.mem_cons_self ..)) heq
      exact .cons hlooks (ih (fun r hr => h r (List.mem_cons_of_mem _ hr))
        (fun r hr => h' r (List.mem_cons_of_mem _ hr)) hrest)

theorem htmlOf_eq_of_forall₂ {regions others : List Region}
    (h : ∀ region ∈ regions, region.IsVerbatim) (h' : ∀ region ∈ others, region.IsVerbatim)
    (hlooks : List.Forall₂ LooksLike regions others) :
    htmlOf mode regions = htmlOf mode others := by
  induction hlooks with
  | nil => rfl
  | cons hlooks _ ih =>
    rw [htmlOf_cons, htmlOf_cons, hlooks.html_eq (h _ (List.mem_cons_self ..))
      (h' _ (List.mem_cons_self ..)), ih (fun r hr => h r (List.mem_cons_of_mem _ hr))
        (fun r hr => h' r (List.mem_cons_of_mem _ hr))]

theorem exists_role_of_mem_ofRuns {line : Nat} {runs : List (List Block)}
    (h : region ∈ ofRuns line runs) : ∃ block ∈ runs.flatten, region.role = .ofBlock block := by
  induction runs generalizing line with
  | nil => simp [ofRuns] at h
  | cons run runs ih =>
    cases run with
    | nil => exact ih h
    | cons block blocks =>
      rcases List.mem_cons.1 h with rfl | h
      · exact ⟨block, by simp, rfl⟩
      · obtain ⟨found, hfound, hrole⟩ := ih h
        exact ⟨found, by simp [List.mem_flatten.1 hfound], hrole⟩

/-- Without inline comments all regions are shown character for character. -/
theorem isVerbatim_of_mem_ofBlocks {blocks : List Block}
    (h : ∀ indent marker spaced text, .inlineDoc indent marker spaced text ∉ blocks)
    (hmem : region ∈ ofBlocks blocks) : region.IsVerbatim := by
  obtain ⟨block, hblock, hrole⟩ := exists_role_of_mem_ofRuns hmem
  rw [List.flatten_splitBy] at hblock
  cases block with
  | code text => exact Or.inl hrole
  | blockDoc marker text => exact Or.inr hrole
  | inlineDoc indent marker spaced text => exact absurd hblock (h indent marker spaced text)

/-- **Code and block comments cannot forge markup.**  Two lists of such regions, and all the regions
of a source without inline comments are such, have the same markup exactly if they agree one by one
in what is shown of them: kind, content, and the first line of code.  It is so because a text between
tags has no angle brackets and can be read back. -/
theorem htmlOf_eq_iff_looksLike (mode : EditorMode) {regions others : List Region}
    (h : ∀ region ∈ regions, region.IsVerbatim) (h' : ∀ region ∈ others, region.IsVerbatim) :
    (htmlOf mode regions = htmlOf mode others ↔ List.Forall₂ LooksLike regions others) ∧
    (∀ blocks, (∀ indent marker spaced text, .inlineDoc indent marker spaced text ∉ blocks) →
      ∀ region ∈ ofBlocks blocks, region.IsVerbatim) ∧
    ∀ text : Text, '<' ∉ text.toMarkup ∧ '>' ∉ text.toMarkup ∧
      ((text.toMarkup.replace "&lt;" "<").replace "&gt;" ">").replace "&amp;" "&" = text := by
  refine ⟨⟨forall₂_looksLike_of_htmlOf_eq h h', htmlOf_eq_of_forall₂ h h'⟩, ?_, ?_⟩
  · intro blocks hblocks region hmem
    exact isVerbatim_of_mem_ofBlocks hblocks hmem
  · intro text
    exact ⟨(notMem_toMarkup text).1, (notMem_toMarkup text).2, replace_toMarkup text⟩

/-- A comment that looks like the end of its own cell and the start of an element of code is told
apart from a comment and code. -/
theorem htmlOf_eq_iff_looksLike_cell :
    htmlOf .view [⟨.comment [] true, 1, "/*</td><div class=\"litdoc-code\">*/", none⟩] ≠
      htmlOf .view [⟨.comment [] true, 1, "/*", none⟩, ⟨.code, 1, "*/", none⟩] := by
  intro heq
  have hlooks := (htmlOf_eq_iff_looksLike .view (by decide) (by decide)).1.1 heq
  exact absurd hlooks.length_eq (by decide)

end Region

end Literate
