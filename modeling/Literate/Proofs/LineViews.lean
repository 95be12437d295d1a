import Literate.Proofs.Lines

/-!
# Six views of the lines of a text

`lines` cuts a text up, and `countTerminators`, `detect`, `stripTerminator` and `lastLine` each look
at the line breaks in a way of their own: all of them, the first, those at the end from the back.
Here they are tied together.  The lines of a text are the one way to cut it into stretches without
line breaks and whole terminators (`IsLines`),

  `IsLines text ls ↔ ls = lines text`,

and every other view can be read off them.  The terminator at the end of a text belongs to the last
line but one, and without it that line is the last (`exists_lines_append_ending`).
-/

namespace Literate

def Line.source (line : Line) : Text :=
  line.text ++ (line.terminator.map LineEnding.text).getD []

namespace Text

structure IsLines (text : Text) (lines : List Line) : Prop where
  /-- The lines, put together again, are the text. -/
  joined : lines.flatMap Line.source = text
  unbroken : ∀ line ∈ lines, ∀ c ∈ line.text, c ≠ '\n' ∧ c ≠ '\r'
  /-- The last line has no terminator, and all others have one. -/
  last : ∃ before final, lines = before ++ [⟨final, none⟩] ∧
    ∀ line ∈ before, line.terminator.isSome = true
  terminators : ∀ line ∈ lines, ∀ ending ∈ line.terminator,
    ending.text ∈ (["\n", "\r\n", "\r"] : List Text)
  /-- No terminator is the first half of a pair. -/
  whole : ∀ before line after, lines = before ++ line :: after → line.terminator = some .cr →
    (after.flatMap Line.source).head? ≠ some '\n'

/-! ### The lines of a text are one of a kind -/

theorem joined_lines (text : Text) : (lines text).flatMap Line.source = text :=
  flatMap_lines text

/-- Only a carriage return can be cut off its line feed. -/
theorem cutsPair_ending_iff {ending : LineEnding} {rest : Text} :
    CutsPair ending.text rest ↔ ending = .cr ∧ rest.head? = some '\n' := by
  cases ending <;> simp [CutsPair, LineEnding.text]

theorem mem_terminators (ending : LineEnding) :
    ending.text ∈ (["\n", "\r\n", "\r"] : List Text) := by
  cases ending <;> decide

theorem isLines_singleton {text : Text} (h : Unbroken text) : IsLines text [⟨text, none⟩] where
  joined := by simp [Line.source]
  unbroken line hline c hc := by
    obtain rfl := List.mem_singleton.1 hline
    exact isLineBreak_eq_false_iff.1 (h c hc)
  last := ⟨[], text, rfl, by simp⟩
  terminators _ _ ending _ := mem_terminators ending
  whole before line after hsplit hcr := by
    obtain rfl : ⟨text, none⟩ = line := by
      have hmem : line ∈ [(⟨text, none⟩ : Line)] := by simp [hsplit]
      exact (List.mem_singleton.1 hmem).symm
    simp at hcr

theorem IsLines.cons {line rest : Text} {ending : LineEnding} {more : List Line}
    (hrest : IsLines rest more) (h : Unbroken line) (hcut : ¬ CutsPair ending.text rest) :
    IsLines (line ++ ending.text ++ rest) (⟨line, some ending⟩ :: more) where
  joined := by simp [Line.source, hrest.joined]
  unbroken other hother c hc := by
    rcases List.mem_cons.1 hother with rfl | hother
    · exact isLineBreak_eq_false_iff.1 (h c hc)
    · exact hrest.unbroken other hother c hc
  last := by
    obtain ⟨before, final, rfl, hbefore⟩ := hrest.last
    refine ⟨⟨line, some ending⟩ :: before, final, rfl, ?_⟩
    intro other hother
    rcases List.mem_cons.1 hother with rfl | hother
    · rfl
    · exact hbefore other hother
  terminators _ _ ending _ := mem_terminators ending
  whole before other after hsplit hcr := by
    cases before with
    | nil =>
      obtain ⟨rfl, rfl⟩ := List.cons.inj hsplit
      obtain rfl := Option.some.inj hcr
      rw [hrest.joined]
      intro hhead
      exact hcut (cutsPair_ending_iff.2 ⟨rfl, hhead⟩)
    | cons first before => exact hrest.whole before other after (List.cons.inj hsplit).2 hcr

theorem isLines_lines (text : Text) : IsLines text (lines text) := by
  induction text using line_induction with
  | last text h =>
    rw [lines_of_unbroken h]
    exact isLines_singleton h
  | line line ending rest h hcut ih =>
    rw [lines_append h hcut]
    exact ih.cons h hcut

theorem IsLines.tail {text : Text} {line : Line} {more : List Line}
    (h : IsLines text (line :: more)) (hne : more ≠ []) :
    line.terminator.isSome = true ∧ IsLines (more.flatMap Line.source) more := by
  obtain ⟨before, final, hsplit, hbefore⟩ := h.last
  cases before with
  | nil => exact absurd (List.cons.inj hsplit).2 hne
  | cons first before =>
    obtain ⟨rfl, hmore⟩ := List.cons.inj hsplit
    refine ⟨hbefore line (List.mem_cons_self ..), ?_⟩
    exact
      { joined := rfl
        unbroken := fun other hother => h.unbroken other (List.mem_cons_of_mem _ hother)
        last := ⟨before, final, hmore, fun other hother =>
          hbefore other (List.mem_cons_of_mem _ hother)⟩
        terminators := fun other hother => h.terminators other (List.mem_cons_of_mem _ hother)
        whole := fun front other after hfront => by
          refine h.whole (line :: front) other after ?_
          rw [hfront]
          rfl }

theorem IsLines.eq_lines {text : Text} {ls : List Line} (h : IsLines text ls) :
    ls = lines text := by
  induction ls generalizing text with
  | nil =>
    obtain ⟨before, final, hnil, _⟩ := h.last
    simp at hnil
  | cons line more ih =>
    have hline : Unbroken line.text := by
      intro c hc
      exact isLineBreak_eq_false_iff.2 (h.unbroken line (List.mem_cons_self ..) c hc)
    have hjoined := h.joined
    rw [List.flatMap_cons] at hjoined
    obtain ⟨first, terminator⟩ := line
    by_cases hne : more = []
    · obtain ⟨before, final, hsplit, _⟩ := h.last
      rw [hne, ← List.nil_append [_]] at hsplit
      obtain ⟨rfl, hlast⟩ := List.append_inj' hsplit rfl
      obtain ⟨rfl, rfl⟩ : first = final ∧ terminator = none := by simpa using hlast
      rw [hne, ← hjoined, hne, Line.source, Option.map_none, Option.getD_none, List.append_nil,
        List.flatMap_nil, List.append_nil, lines_of_unbroken hline]
    · obtain ⟨hsome, hrest⟩ := h.tail hne
      obtain ⟨ending, rfl⟩ := Option.isSome_iff_exists.1 hsome
      have hcut : ¬ CutsPair ending.text (more.flatMap Line.source) := by
        intro hcut
        obtain ⟨rfl, hhead⟩ := cutsPair_ending_iff.1 hcut
        exact h.whole [] _ more rfl rfl hhead
      calc (⟨first, some ending⟩ :: more : List Line)
          = ⟨first, some ending⟩ :: lines (more.flatMap Line.source) := by rw [← ih hrest]
        _ = lines (first ++ ending.text ++ more.flatMap Line.source) :=
          (lines_append hline hcut).symm
        _ = lines text := by rw [← hjoined]; rfl

/-- **A text is cut into lines in one way.** -/
theorem isLines_iff {text : Text} {ls : List Line} : IsLines text ls ↔ ls = lines text :=
  ⟨IsLines.eq_lines, fun h => h ▸ isLines_lines text⟩

/-! ### The first line -/

theorem detect_of_unbroken {text : Text} (h : Unbroken text) : LineEnding.detect text = .lf := by
  induction text with
  | nil => rfl
  | cons c text ih =>
    obtain ⟨hc, htext⟩ := unbroken_cons.1 h
    obtain ⟨hn, hr⟩ := isLineBreak_eq_false_iff.1 hc
    rw [LineEnding.detect, ih htext]
    · exact fun _ h _ => hr h
    · exact hr
    · exact hn

theorem detect_append {line rest : Text} {ending : LineEnding} (h : Unbroken line)
    (hcut : ¬ CutsPair ending.text rest) :
    LineEnding.detect (line ++ ending.text ++ rest) = ending := by
  induction line with
  | nil =>
    cases ending with
    | lf => rfl
    | crlf => rfl
    | cr =>
      show LineEnding.detect ('\r' :: rest) = .cr
      rw [LineEnding.detect]
      rintro tail rfl
      exact hcut ⟨rfl, rfl⟩
  | cons c line ih =>
    obtain ⟨hc, hline⟩ := unbroken_cons.1 h
    obtain ⟨hn, hr⟩ := isLineBreak_eq_false_iff.1 hc
    rw [List.cons_append, List.cons_append, LineEnding.detect, ih hline]
    · exact fun _ h _ => hr h
    · exact hr
    · exact hn

/-- **The first terminator is that of the first line.** -/
theorem detect_eq (text : Text) :
    LineEnding.detect text = ((lines text).head?.bind Line.terminator).getD .lf := by
  rcases exists_line text with h | ⟨line, ending, rest, hline, hcut, rfl⟩
  · rw [detect_of_unbroken h, lines_of_unbroken h]
    rfl
  · rw [detect_append hline hcut, lines_append hline hcut]
    rfl

/-! ### The last lines -/

theorem lastLine_append_of_endsLine {front : Text} (h : EndsLine front) (rest : Text) :
    lastLine (front ++ rest) = lastLine rest := by
  by_cases hrest : Unbroken rest
  · have hnil := lastLine_append_of_unbroken hrest []
    rw [lastLine_append_of_unbroken hrest, lastLine_of_ended (Or.inr h), ← List.nil_append rest,
      hnil]
    rfl
  · obtain ⟨c, hc, hbreak⟩ : ∃ c ∈ rest, isLineBreak c = true := by simpa [Unbroken] using hrest
    exact lastLine_append_of_mem hc hbreak front

theorem getLast?_lines (text : Text) : (lines text).getLast? = some ⟨lastLine text, none⟩ := by
  induction text using line_induction with
  | last text h =>
    have hline := lastLine_append_of_unbroken h []
    rw [lines_of_unbroken h, ← List.nil_append text, hline]
    rfl
  | line line ending rest h hcut ih =>
    rw [lines_append h hcut, List.getLast?_cons, ih,
      lastLine_append_of_endsLine (endsLine_append_ending line ending)]
    rfl

theorem exists_lines_append_ending {content : Text} {ending : LineEnding}
    (hcut : ¬ CutsPair content ending.text) :
    ∃ before line, lines content = before ++ [⟨line, none⟩] ∧
      lines (content ++ ending.text) = before ++ [⟨line, some ending⟩, ⟨[], none⟩] := by
  induction content using line_induction with
  | last text h =>
    refine ⟨[], text, lines_of_unbroken h, ?_⟩
    have hend : ¬ CutsPair ending.text [] := by simp [CutsPair]
    have hlines := lines_append h hend
    rwa [List.append_nil] at hlines
  | line line ending' rest h hcut' ih =>
    obtain ⟨before, final, hrest, hended⟩ := ih fun hc => hcut (hc.append_left _)
    have hborder : ¬ CutsPair ending'.text (rest ++ ending.text) := by
      rintro ⟨hlast, hhead⟩
      cases rest with
      | nil =>
        refine hcut ⟨?_, hhead⟩
        rw [List.append_nil, List.getLast?_append_of_ne_nil _ (ending_ne_nil ending'), hlast]
      | cons c rest => exact hcut' ⟨hlast, hhead⟩
    refine ⟨⟨line, some ending'⟩ :: before, final, ?_, ?_⟩
    · rw [lines_append h hcut', hrest]
      rfl
    · rw [List.append_assoc, lines_append h hborder, hended]
      rfl

theorem endsLine_of_lines_eq {text : Text} {before : List Line} {line : Line}
    (h : lines text = before ++ [line, ⟨[], none⟩]) : EndsLine text := by
  obtain ⟨front, final, hsplit, hfront⟩ := (isLines_lines text).last
  have hterminated : line.terminator.isSome = true := by
    refine hfront line ?_
    rw [h, ← List.singleton_append, ← List.append_assoc] at hsplit
    rw [← (List.append_inj' hsplit rfl).1]
    simp
  obtain ⟨ending, hending⟩ := Option.isSome_iff_exists.1 hterminated
  have hjoined := joined_lines text
  rw [h] at hjoined
  have htext : before.flatMap Line.source ++ line.text ++ ending.text = text := by
    simpa [Line.source, hending] using hjoined
  rw [← htext]
  exact endsLine_append_ending ..

/-- **Which terminator can be split off, and what the lines of the rest are.** -/
theorem stripTerminator_of_lines_eq {text : Text} {before : List Line} {line : Line}
    (h : lines text = before ++ [line, ⟨[], none⟩]) :
    (stripTerminator text).2 = line.terminator ∧
      lines (stripTerminator text).1 = before ++ [{ line with terminator := none }] := by
  obtain ⟨content, ending, rfl, hcut⟩ := exists_ending (endsLine_of_lines_eq h)
  obtain ⟨before', final, hcontent, hended⟩ := exists_lines_append_ending hcut
  obtain ⟨rfl, hline⟩ := List.append_inj' (h.symm.trans hended) rfl
  obtain rfl : line = ⟨final, some ending⟩ := (List.cons.inj hline).1
  rw [stripTerminator_append hcut]
  exact ⟨rfl, hcontent⟩

theorem isSome_stripTerminator_iff_lines (text : Text) :
    (stripTerminator text).2.isSome = true ↔
      ∃ before line, lines text = before ++ [line, ⟨[], none⟩] := by
  rw [isSome_stripTerminator]
  constructor
  · intro h
    obtain ⟨content, ending, rfl, hcut⟩ := exists_ending h
    obtain ⟨before, final, _, hended⟩ := exists_lines_append_ending hcut
    exact ⟨before, _, hended⟩
  · rintro ⟨before, line, h⟩
    exact endsLine_of_lines_eq h

/-- **The views agree.**  A text is cut into lines in one way.  There is one line more than there
are terminators; the style of a text is the terminator of its first line; a terminator can be split
off if the last of several lines is empty, and then it is that of the line before, which is left as
the last; what follows the last line break is the last line; and terminators are counted part by
part, up to a pair that the border cuts. -/
theorem line_views_agree (text : Text) :
    (∀ ls, IsLines text ls ↔ ls = lines text) ∧
    (lines text).length = countTerminators text + 1 ∧
    LineEnding.detect text = ((lines text).head?.bind Line.terminator).getD .lf ∧
    ((stripTerminator text).2.isSome = true ↔
      ∃ before line, lines text = before ++ [line, ⟨[], none⟩]) ∧
    (∀ before line, lines text = before ++ [line, ⟨[], none⟩] →
      (stripTerminator text).2 = line.terminator ∧
      lines (stripTerminator text).1 = before ++ [{ line with terminator := none }]) ∧
    (lines text).getLast?.map Line.text = some (lastLine text) ∧
    ∀ rest, countTerminators (text ++ rest) +
        (if text.getLast? = some '\r' ∧ rest.head? = some '\n' then 1 else 0) =
      countTerminators text + countTerminators rest := by
  refine ⟨fun _ => isLines_iff, length_lines text, detect_eq text,
    isSome_stripTerminator_iff_lines text, fun _ _ => stripTerminator_of_lines_eq, ?_,
    countTerminators_append text⟩
  rw [getLast?_lines]
  rfl

/-- An instance: two kinds of terminators, the second of them at the end. -/
theorem line_views_agree_mixed :
    lines "a\r\n\r" = [⟨"a", some .crlf⟩] ++ [⟨[], some .cr⟩, ⟨[], none⟩] ∧
      (stripTerminator "a\r\n\r").2 = some .cr ∧
      lines (stripTerminator "a\r\n\r").1 = [⟨"a", some .crlf⟩] ++ [⟨[], none⟩] := by
  have hlines : lines "a\r\n\r" = [⟨"a", some .crlf⟩] ++ [⟨[], some .cr⟩, ⟨[], none⟩] := by decide
  exact ⟨hlines, (line_views_agree "a\r\n\r").2.2.2.2.1 _ _ hlines⟩

end Text

end Literate
