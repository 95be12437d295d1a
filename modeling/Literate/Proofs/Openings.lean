import Literate.Proofs.Tokens
import Mathlib.Data.List.Find

/-!
# Openings and line breaks

No opening of an orderly language reaches over a line break, so what opens at the front of a text is
decided by its first line:

  `opening? lineStart (text ++ b :: rest) = opening? lineStart text`

for a line break `b`.  In particular nothing opens at a line break.  The second half of the file is
about what a saved comment starts with.  Between the blanks of its indent nothing opens, and at its
marker it is the comment that opens, in every language of the table.
-/

namespace Literate

namespace Text

variable {b : Char}

theorem isPrefixOf_append_of_notMem (b : Char) (rest : Text) :
    ∀ (token text : Text), b ∉ token →
      token.isPrefixOf (text ++ b :: rest) = token.isPrefixOf text := by
  intro token
  induction token with
  | nil => intro text _; rw [List.isPrefixOf_nil_left, List.isPrefixOf_nil_left]
  | cons c token ih =>
    intro text h
    rw [List.mem_cons, not_or] at h
    cases text with
    | nil =>
      have hc : (c == b) = false := beq_eq_false_iff_ne.2 (Ne.symm h.1)
      rw [List.nil_append, List.isPrefixOf_cons_cons, hc, Bool.false_and,
        List.isPrefixOf_cons_nil]
    | cons d text =>
      rw [List.cons_append, List.isPrefixOf_cons_cons, List.isPrefixOf_cons_cons, ih text h.2]

theorem Unbroken.notMem {token : Text} (h : token.Unbroken) (hb : isLineBreak b = true) :
    b ∉ token := by
  intro hmem
  rw [h b hmem] at hb
  simp at hb

theorem isPrefixOf_append_break (hb : isLineBreak b = true) (rest : Text) (token text : Text)
    (h : token.Unbroken) : token.isPrefixOf (text ++ b :: rest) = token.isPrefixOf text :=
  isPrefixOf_append_of_notMem b rest token text (h.notMem hb)

theorem startsWith_append_break (hb : isLineBreak b = true) (rest : Text) {token : Text}
    (h : token.Unbroken) (text : Text) :
    startsWith token (text ++ b :: rest) = startsWith token text := by
  rw [startsWith, startsWith, isPrefixOf_append_break hb rest token text h]

end Text

namespace Heredoc

open Text

variable {rule : Heredoc} {b : Char}

theorem isPrefix_of_delimiter? {text delimiter : Text} (h : rule.delimiter? text = some delimiter) :
    rule.start ++ delimiter ++ rule.startEnd <+: text := by
  obtain ⟨body, rfl⟩ := start_isPrefix_of_delimiter? h
  rw [delimiter?, if_pos (List.isPrefixOf_iff_prefix.2 (List.prefix_append ..)),
    List.drop_left] at h
  obtain ⟨n, hn, rfl⟩ := Option.map_eq_some_iff.1 h
  have hend := List.find?_some hn
  obtain ⟨rest, hrest⟩ := List.isPrefixOf_iff_prefix.1 hend
  refine ⟨rest, ?_⟩
  rw [List.append_assoc, List.append_assoc, hrest, List.take_append_drop]

theorem delimiter?_append_break (h : rule.Orderly) (hb : isLineBreak b = true) (text rest : Text) :
    rule.delimiter? (text ++ b :: rest) = rule.delimiter? text := by
  rw [delimiter?, delimiter?, isPrefixOf_append_break hb rest _ text h.start.unbroken]
  split
  · next hstart =>
    obtain ⟨body, rfl⟩ := List.isPrefixOf_iff_prefix.1 hstart
    rw [List.append_assoc, List.drop_left, List.drop_left]
    have hdrop : ∀ n ∈ rule.shape.lengths (rule.start.lineStartAfter false) body,
        rule.startEnd.isPrefixOf ((body ++ b :: rest).drop n) =
          rule.startEnd.isPrefixOf (body.drop n) := by
      intro n hn
      rw [List.drop_append_of_le_length (Form.le_length_of_mem hn),
        isPrefixOf_append_break hb rest _ _ h.startEnd]
    dsimp only
    rw [Form.lengths_append_break h.shape hb, List.find?_congr hdrop]
    refine Option.map_congr fun n hn => ?_
    exact List.take_append_of_le_length (Form.le_length_of_mem (List.mem_of_find?_eq_some hn))
  · rfl

theorem opening?_append_break (h : rule.Orderly) (hb : isLineBreak b = true) (lineStart : Bool)
    (text rest : Text) :
    rule.opening? lineStart (text ++ b :: rest) = rule.opening? lineStart text := by
  rw [opening?, opening?, Form.lengths_append_break h.lead.1 hb]
  have hwidth : ∀ width ∈ rule.lead.lengths lineStart text,
      ((rule.delimiter? ((text ++ b :: rest).drop width)).map fun delimiter =>
        ((text ++ b :: rest).take (width + rule.start.length + delimiter.length +
          rule.startEnd.length), delimiter)) =
      (rule.delimiter? (text.drop width)).map fun delimiter =>
        (text.take (width + rule.start.length + delimiter.length + rule.startEnd.length),
          delimiter) := by
    intro width hw
    have hle := Form.le_length_of_mem hw
    rw [List.drop_append_of_le_length hle, delimiter?_append_break h hb]
    refine Option.map_congr fun delimiter hd => ?_
    have hlength := (isPrefix_of_delimiter? hd).length_le
    simp only [List.length_append, List.length_drop] at hlength
    rw [List.take_append_of_le_length (by omega)]
  split
  · rfl
  · generalize rule.lead.lengths lineStart text = widths at hwidth
    induction widths with
    | nil => rfl
    | cons width widths ih =>
      rw [List.findSome?_cons, List.findSome?_cons, hwidth width (List.mem_cons_self ..),
        ih fun other ho => hwidth other (List.mem_cons_of_mem _ ho)]

end Heredoc

namespace Language

open Text

variable {language : Language} {lineStart : Bool} {b : Char}

/-- **Openings do not see past a line break.** -/
theorem opening?_append_break (h : language.Orderly) (hb : isLineBreak b = true) (lineStart : Bool)
    (text rest : Text) :
    language.opening? lineStart (text ++ b :: rest) = language.opening? lineStart text := by
  have hblock : language.blockCommentOpening? (text ++ b :: rest) =
      language.blockCommentOpening? text := by
    rw [blockCommentOpening?, blockCommentOpening?, List.find?_congr]
    intro pair hp
    exact startsWith_append_break hb rest (h.blockComments pair hp).1.unbroken text
  have hlong : language.longStringOpening? (text ++ b :: rest) =
      language.longStringOpening? text := by
    rw [longStringOpening?, longStringOpening?, List.find?_congr]
    intro token ht
    exact startsWith_append_break hb rest (h.longStrings token ht).unbroken text
  have hheredoc : language.heredocOpening? lineStart (text ++ b :: rest) =
      language.heredocOpening? lineStart text := by
    have hrules := h.heredocs
    rw [heredocOpening?, heredocOpening?]
    generalize language.heredocs = rules at hrules
    induction rules with
    | nil => rfl
    | cons rule rules ih =>
      rw [List.findSome?_cons, List.findSome?_cons,
        Heredoc.opening?_append_break (hrules rule (List.mem_cons_self ..)) hb,
        ih fun other ho => hrules other (List.mem_cons_of_mem _ ho)]
  have hinline : language.inlineCommentOpening? (text ++ b :: rest) =
      language.inlineCommentOpening? text := by
    rw [inlineCommentOpening?, inlineCommentOpening?, List.find?_congr]
    intro token ht
    exact startsWith_append_break hb rest (h.inlineComments token ht).unbroken text
  have hshort : language.shortStringOpening? (text ++ b :: rest) =
      language.shortStringOpening? text := by
    rw [shortStringOpening?, shortStringOpening?, List.find?_congr]
    intro token ht
    exact startsWith_append_break hb rest (h.shortStrings token ht).1.unbroken text
  have htemplate : language.templateOpening? (text ++ b :: rest) =
      language.templateOpening? text := by
    rw [templateOpening?, templateOpening?]
    cases text with
    | nil =>
      have hquote : (b == '\x60') = false := by
        rcases isLineBreak_iff.1 hb with rfl | rfl <;> decide
      simp [hquote]
    | cons c text => rfl
  rw [opening?, opening?, hblock, hlong, hheredoc, hinline, hshort, htemplate]

theorem opening?_nil (language : Language) (lineStart : Bool) :
    language.opening? lineStart [] = none := by
  cases h : language.opening? lineStart [] with
  | none => rfl
  | some opening =>
    have hfront := opening?_isPrefix h
    exact absurd (List.prefix_nil.1 hfront.2) hfront.1

/-- **Nothing opens at a line break.** -/
theorem opening?_break (h : language.Orderly) (hb : isLineBreak b = true) (lineStart : Bool)
    (rest : Text) : language.opening? lineStart (b :: rest) = none :=
  (opening?_append_break h hb lineStart [] rest).trans (opening?_nil ..)

theorem opening?_append_of_endsLine (h : language.Orderly) {text : Text} (hends : text.EndsLine)
    (lineStart : Bool) (rest : Text) :
    language.opening? lineStart (text ++ rest) = language.opening? lineStart text := by
  obtain ⟨b, hlast, hb⟩ := hends
  obtain ⟨front, rfl⟩ := List.getLast?_eq_some_iff.1 hlast
  rw [List.append_assoc, List.singleton_append, opening?_append_break h hb,
    opening?_append_break h hb]

/-- An opening of a text that ends its line leaves a text that ends its line. -/
theorem exists_append_of_opening? (h : language.Orderly) {text : Text} (hends : text.EndsLine)
    {opening : Opening} (ho : language.opening? lineStart text = some opening) :
    ∃ body : Text, text = opening.text ++ body ∧ body.EndsLine := by
  obtain ⟨b, hlast, hb⟩ := hends
  obtain ⟨front, rfl⟩ := List.getLast?_eq_some_iff.1 hlast
  rw [opening?_append_break h hb] at ho
  obtain ⟨body, rfl⟩ := (opening?_isPrefix ho).2
  exact ⟨body ++ [b], by simp, ⟨b, by simp, hb⟩⟩

/-! ### The start of a saved comment -/

/-- No token that is tried before a marker is the start of the marker, and no here-document opens
around it. -/
theorem marker_of_mem_table (h : language ∈ table) {marker : Text}
    (hm : marker ∈ language.inlineComments) :
    marker.Solid ∧ language.inlineComments = [marker] ∧
      (∀ pair ∈ language.blockComments, ¬ pair.1 <+: marker) ∧
      (∀ token ∈ language.longStrings, ¬ token <+: marker) ∧
      (∀ rule ∈ language.heredocs, ¬ rule.start <+: marker) ∧
      ∀ rule ∈ language.heredocs, ∀ c ∈ marker.head?, rule.lead.startsWith c = false := by
  have hall : ∀ language ∈ table, ∀ marker ∈ language.inlineComments,
      marker.Solid ∧ language.inlineComments = [marker] ∧
        (∀ pair ∈ language.blockComments, ¬ pair.1 <+: marker) ∧
        (∀ token ∈ language.longStrings, ¬ token <+: marker) ∧
        (∀ rule ∈ language.heredocs, ¬ rule.start <+: marker) ∧
        ∀ rule ∈ language.heredocs, marker.head?.all (!rule.lead.startsWith ·) = true := by decide
  obtain ⟨hsolid, honly, hblock, hlong, hheredoc, hleads⟩ := hall language h marker hm
  refine ⟨hsolid, honly, hblock, hlong, hheredoc, ?_⟩
  intro rule hr c hc
  simpa using (Option.all_eq_true _ _).1 (hleads rule hr) c hc

theorem isPrefixOf_blank {token : Text} (h : token.Solid) {c : Char}
    (hc : Literate.isBlank c = true) (rest : Text) : token.isPrefixOf (c :: rest) = false := by
  obtain ⟨d, token, rfl, _, hd, _⟩ := h.exists_cons
  have hne : (d == c) = false := by
    rw [beq_eq_false_iff_ne]
    rintro rfl
    rw [hd] at hc
    simp at hc
  rw [List.isPrefixOf_cons_cons, hne, Bool.false_and]

theorem isPrefixOf_marker {token marker : Text} (h : token.Solid) (hm : ¬ token <+: marker)
    (rest : Text) : token.isPrefixOf (marker ++ ' ' :: rest) = false := by
  have hspace : ' ' ∉ token := by
    intro hmem
    exact absurd (h.2 ' ' hmem).2.1 (by decide)
  rw [isPrefixOf_append_of_notMem ' ' rest token marker hspace, Bool.eq_false_iff]
  intro hfront
  exact hm (List.isPrefixOf_iff_prefix.1 hfront)

theorem startsWith_eq_false {token text : Text} (h : token.isPrefixOf text = false) :
    startsWith token text = false := by
  rw [startsWith, h, Bool.and_false]

theorem delimiter?_eq_none {rule : Heredoc} {text : Text}
    (h : rule.start.isPrefixOf text = false) : rule.delimiter? text = none := by
  rw [Heredoc.delimiter?, h]
  rfl

theorem opening?_marker (h : language ∈ table) {marker : Text}
    (hm : marker ∈ language.inlineComments) (lineStart : Bool) (rest : Text) :
    language.opening? lineStart (marker ++ ' ' :: rest) = some (.inlineComment marker) := by
  obtain ⟨hsolid, honly, hblock, hlong, hheredoc, hleads⟩ := marker_of_mem_table h hm
  have horderly := orderly_of_mem_table h
  have hb : language.blockCommentOpening? (marker ++ ' ' :: rest) = none := by
    rw [blockCommentOpening?, Option.map_eq_none_iff, List.find?_eq_none]
    rintro ⟨opener, closer⟩ hp
    have hsolid := (horderly.blockComments _ hp).1
    simp [startsWith_eq_false (isPrefixOf_marker hsolid (hblock _ hp) rest)]
  have hl : language.longStringOpening? (marker ++ ' ' :: rest) = none := by
    rw [longStringOpening?, Option.map_eq_none_iff, List.find?_eq_none]
    intro token ht
    rw [startsWith_eq_false (isPrefixOf_marker (horderly.longStrings token ht) (hlong token ht)
      rest)]
    simp
  have hh : language.heredocOpening? lineStart (marker ++ ' ' :: rest) = none := by
    rw [heredocOpening?, List.findSome?_eq_none_iff]
    intro rule hr
    rw [Option.map_eq_none_iff, Heredoc.opening?]
    split
    · rfl
    · rw [List.findSome?_eq_none_iff]
      intro width hw
      obtain ⟨c, tail, hmarker, _⟩ := hsolid.exists_cons
      have hzero : width = 0 := by
        rw [hmarker] at hw
        exact Form.eq_zero_of_startsWith_eq_false (hleads rule hr c (by rw [hmarker]; rfl)) hw
      have hstart := (horderly.heredocs rule hr).start
      rw [hzero, List.drop_zero,
        delimiter?_eq_none (isPrefixOf_marker hstart (hheredoc rule hr) rest), Option.map_none]
  have hi : language.inlineCommentOpening? (marker ++ ' ' :: rest) =
      some (.inlineComment marker) := by
    have hstart : startsWith marker (marker ++ ' ' :: rest) = true :=
      startsWith_iff.2 ⟨hsolid.1, List.prefix_append ..⟩
    rw [inlineCommentOpening?, honly, List.find?_cons, hstart]
    rfl
  rw [opening?, hb, hl, hh, hi]
  rfl

theorem isPrefixOf_start_of_mem_table (h : language ∈ table) {marker : Text}
    (hm : marker ∈ language.inlineComments) {rule : Heredoc} (hr : rule ∈ language.heredocs)
    (rest : Text) : rule.start.isPrefixOf (marker ++ rest) = false := by
  have hall : ∀ language ∈ table, ∀ marker ∈ language.inlineComments,
      ∀ rule ∈ language.heredocs, marker.head? ≠ rule.start.head? := by decide
  have hne := hall language h marker hm rule hr
  obtain ⟨c, marker, rfl, _⟩ := ((orderly_of_mem_table h).inlineComments _ hm).exists_cons
  obtain ⟨d, start, hstart, _⟩ := ((orderly_of_mem_table h).heredocs rule hr).start.exists_cons
  have hd : (d == c) = false := by
    rw [beq_eq_false_iff_ne]
    rintro rfl
    exact hne (by rw [hstart]; rfl)
  rw [hstart, List.cons_append, List.isPrefixOf_cons_cons, hd, Bool.false_and]

theorem opening?_indent (h : language ∈ table) {marker : Text}
    (hm : marker ∈ language.inlineComments) (lineStart : Bool) {c : Char} {indent : Text}
    (hblank : Text.isBlank (c :: indent) = true) (rest : Text) :
    language.opening? lineStart (c :: (indent ++ (marker ++ rest))) = none := by
  have horderly := orderly_of_mem_table h
  simp only [Text.isBlank, List.all_cons, Bool.and_eq_true] at hblank
  obtain ⟨hc, hindent⟩ := hblank
  have hb : language.blockCommentOpening? (c :: (indent ++ (marker ++ rest))) = none := by
    rw [blockCommentOpening?, Option.map_eq_none_iff, List.find?_eq_none]
    rintro ⟨opener, closer⟩ hp
    have hsolid := (horderly.blockComments _ hp).1
    simp [startsWith_eq_false (isPrefixOf_blank hsolid hc _)]
  have hfind : ∀ tokens : List Text, (∀ token ∈ tokens, token.Solid) →
      tokens.find? (startsWith · (c :: (indent ++ (marker ++ rest)))) = none := by
    intro tokens hs
    rw [List.find?_eq_none]
    intro token ht
    rw [startsWith_eq_false (isPrefixOf_blank (hs token ht) hc _)]
    simp
  have hh : language.heredocOpening? lineStart (c :: (indent ++ (marker ++ rest))) =
      none := by
    rw [heredocOpening?, List.findSome?_eq_none_iff]
    intro rule hr
    have hstart := (horderly.heredocs rule hr).start
    rw [Option.map_eq_none_iff, Heredoc.opening?]
    split
    · rfl
    · rw [List.findSome?_eq_none_iff]
      intro width hw
      have hle := Form.le_of_isWithin (horderly.heredocs rule hr).lead.2 hw
      rw [Option.map_eq_none_iff]
      rcases Nat.le_one_iff_eq_zero_or_eq_one.1 hle with rfl | rfl
      · exact delimiter?_eq_none (isPrefixOf_blank hstart hc _)
      · refine delimiter?_eq_none ?_
        cases indent with
        | nil => exact isPrefixOf_start_of_mem_table h hm hr rest
        | cons d indent =>
          simp only [List.all_cons, Bool.and_eq_true] at hindent
          exact isPrefixOf_blank hstart hindent.1 _
  have ht : language.templateOpening? (c :: (indent ++ (marker ++ rest))) = none := by
    have hquote : (c == '\x60') = false := by
      rw [beq_eq_false_iff_ne]
      rintro rfl
      exact absurd hc (by decide)
    simp [templateOpening?, hquote]
  rw [opening?, hb, hh, ht, longStringOpening?, inlineCommentOpening?, shortStringOpening?,
    hfind _ horderly.longStrings, hfind _ horderly.inlineComments,
    hfind _ fun quote hq => (horderly.shortStrings quote hq).1]
  rfl

end Language

end Literate
