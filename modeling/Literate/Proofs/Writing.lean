import Literate.Document
import Literate.Proofs.Layout

/-!
# What is written for a region

A region is written line by line behind a margin, which is empty for code.  `writeLines` follows the
lines of the content, so whatever adds up over the characters of a text can be computed for what is
written: its length, its pairs, its first and its last character.  Regions that come back unedited
depend on the runs of blocks they show and on nothing else (`editedRegions_eq`), and writing them
succeeds unless documentation has no marker.
-/

namespace Literate

namespace RegionWriter

open Text

theorem writeLines_of_unbroken {line : Text} (h : line.Unbroken) (margin last : Text) :
    writeLines margin line last = margin ++ line ++ last := by
  rw [writeLines, lines_of_unbroken h]
  simp

/-- **The first line of a content and the rest of it.** -/
theorem writeLines_append {line : Text} {ending : LineEnding} {rest : Text} (h : line.Unbroken)
    (hcut : ¬ CutsPair ending.text rest) (margin last : Text) :
    writeLines margin (line ++ ending.text ++ rest) last =
      margin ++ line ++ ending.text ++ writeLines margin rest last := by
  rw [writeLines, lines_append h hcut, List.flatMap_cons]
  rfl

theorem writeLines_nil (content last : Text) : writeLines [] content last = content ++ last := by
  induction content using line_induction with
  | last line h => exact writeLines_of_unbroken h ..
  | line line ending rest h hcut ih =>
    rw [writeLines_append h hcut, ih]
    simp

theorem length_writeLines (margin content last : Text) :
    (writeLines margin content last).length =
      (countTerminators content + 1) * margin.length + content.length + last.length := by
  rw [← length_lines]
  induction content using line_induction with
  | last line h =>
    rw [writeLines_of_unbroken h, lines_of_unbroken h]
    simp [Nat.add_assoc]
  | line line ending rest h hcut ih =>
    rw [writeLines_append h hcut, lines_append h hcut]
    simp only [List.length_append, List.length_cons, ih, Nat.add_mul]
    omega

theorem exists_writeLines_eq_append (margin content last : Text) :
    ∃ rest, writeLines margin content last = margin ++ rest := by
  rcases exists_line content with h | ⟨line, ending, rest, h, hcut, rfl⟩
  · exact ⟨_, by rw [writeLines_of_unbroken h, List.append_assoc]⟩
  · exact ⟨_, by rw [writeLines_append h hcut, List.append_assoc, List.append_assoc]⟩

theorem exists_writeLines_eq_append_last (margin content last : Text) :
    ∃ front, writeLines margin content last = front ++ last := by
  induction content using line_induction with
  | last line h => exact ⟨_, writeLines_of_unbroken h ..⟩
  | line line ending rest h hcut ih =>
    obtain ⟨front, hfront⟩ := ih
    refine ⟨margin ++ line ++ ending.text ++ front, ?_⟩
    rw [writeLines_append h hcut, hfront]
    simp

theorem endsLine_writeLines (margin content : Text) (ending : LineEnding) :
    (writeLines margin content ending.text).EndsLine := by
  obtain ⟨front, hfront⟩ := exists_writeLines_eq_append_last margin content ending.text
  rw [hfront]
  exact endsLine_append_ending front ending

/-- **A margin adds no pair.** -/
theorem pairs_writeLines {margin : Text} (hne : margin ≠ []) (hmargin : margin.Unbroken)
    (content : Text) (ending : LineEnding) :
    pairs (writeLines margin content ending.text) = pairs content + pairs ending.text := by
  have hpre : ∀ line : Text, line.Unbroken → (margin ++ line).Unbroken :=
    fun line h => unbroken_append.2 ⟨hmargin, h⟩
  have hcutOf : ∀ line : Text, line.Unbroken → ∀ after : Text, ¬ CutsPair line after := by
    rintro line h after ⟨hlast, _⟩
    simpa [isLineBreak] using h _ (List.mem_of_getLast? hlast)
  induction content using line_induction with
  | last line h =>
    rw [writeLines_of_unbroken h, pairs_append_of_not_cutsPair (hcutOf _ (hpre line h) _),
      pairs_of_unbroken (hpre line h), pairs_of_unbroken h]
  | line line ending' rest h hcut ih =>
    have hnext : ¬ CutsPair ending'.text (writeLines margin rest ending.text) := by
      rintro ⟨_, hhead⟩
      obtain ⟨more, hmore⟩ := exists_writeLines_eq_append margin rest ending.text
      rw [hmore, List.head?_append_of_ne_nil _ hne] at hhead
      simpa [isLineBreak] using hmargin _ (List.mem_of_head? hhead)
    rw [writeLines_append h hcut, List.append_assoc, List.append_assoc line,
      pairs_append_of_not_cutsPair (hcutOf _ (hpre line h) _),
      pairs_append_of_not_cutsPair (hcutOf _ h _),
      pairs_append_of_not_cutsPair hnext, pairs_append_of_not_cutsPair hcut,
      pairs_of_unbroken (hpre line h), pairs_of_unbroken h, ih]
    omega

/-- What is written for a text behind a margin: the terminator at its end is kept apart, and
`ending` stands in if there is none. -/
def writeText (margin : Text) (ending : LineEnding) (text : Text) : Text :=
  writeLines margin text.stripTerminator.1 (text.stripTerminator.2.getD ending).text

theorem writeText_append_ending {content : Text} {ending' : LineEnding}
    (h : ¬ CutsPair content ending'.text) (margin : Text) (ending : LineEnding) :
    writeText margin ending (content ++ ending'.text) = writeLines margin content ending'.text := by
  rw [writeText, stripTerminator_append h]
  rfl

theorem writeText_of_not_endsLine {text : Text} (h : ¬ text.EndsLine) (margin : Text)
    (ending : LineEnding) :
    writeText margin ending text = writeLines margin text ending.text := by
  rw [writeText, stripTerminator_of_not_endsLine h]
  rfl

theorem endsLine_writeText (margin : Text) (ending : LineEnding) (text : Text) :
    (writeText margin ending text).EndsLine :=
  endsLine_writeLines ..

theorem writeText_nil_of_endsLine {text : Text} (h : text.EndsLine) (ending : LineEnding) :
    writeText [] ending text = text := by
  obtain ⟨content, ending', rfl, hcut⟩ := exists_ending h
  rw [writeText_append_ending hcut, writeLines_nil]

theorem writeText_nil_of_not_endsLine {text : Text} (h : ¬ text.EndsLine) (ending : LineEnding) :
    writeText [] ending text = text ++ ending.text := by
  rw [writeText_of_not_endsLine h, writeLines_nil]

/-- **The first line of a text and the rest of it.** -/
theorem writeText_append {line : Text} {ending' : LineEnding} {rest : Text} (h : line.Unbroken)
    (hcut : ¬ CutsPair ending'.text rest) (hrest : rest.EndsLine) (margin : Text)
    (ending : LineEnding) :
    writeText margin ending (line ++ ending'.text ++ rest) =
      margin ++ line ++ ending'.text ++ writeText margin ending rest := by
  obtain ⟨content, ending'', rfl, hcut'⟩ := exists_ending hrest
  have hcontent : ¬ CutsPair ending'.text content := by
    rintro ⟨hlast, hhead⟩
    refine hcut ⟨hlast, ?_⟩
    rw [List.head?_append, hhead]
    rfl
  have hfront : ¬ CutsPair (line ++ ending'.text ++ content) ending''.text := by
    rintro ⟨hlast, hhead⟩
    by_cases hne : content = []
    · subst hne
      rw [List.append_nil, List.getLast?_append_of_ne_nil _ (ending_ne_nil ending')] at hlast
      exact hcut ⟨hlast, hhead⟩
    · rw [List.getLast?_append_of_ne_nil _ hne] at hlast
      exact hcut' ⟨hlast, hhead⟩
  rw [← List.append_assoc, writeText_append_ending hfront, writeText_append_ending hcut',
    writeLines_append h hcontent]

theorem getLast?_writeText {text : Text} (h : text.EndsLine) (margin : Text) (ending : LineEnding) :
    (writeText margin ending text).getLast? = text.getLast? := by
  obtain ⟨content, ending', rfl, hcut⟩ := exists_ending h
  obtain ⟨front, hfront⟩ := exists_writeLines_eq_append_last margin content ending'.text
  rw [writeText_append_ending hcut, hfront, List.getLast?_append_of_ne_nil _ (ending_ne_nil _),
    List.getLast?_append_of_ne_nil _ (ending_ne_nil _)]

/-- **Writing breaks no pair.** -/
theorem pairs_le_pairs_writeText {margin : Text} (hmargin : margin.Unbroken) (ending : LineEnding)
    (text : Text) : pairs text ≤ pairs (writeText margin ending text) := by
  have hlines : ∀ content : Text, ∀ last : LineEnding,
      pairs content + pairs last.text ≤ pairs (writeLines margin content last.text) := by
    intro content last
    by_cases hne : margin = []
    · rw [hne, writeLines_nil, pairs_append]
      omega
    · rw [pairs_writeLines hne hmargin]
  by_cases h : text.EndsLine
  · obtain ⟨content, last, rfl, hcut⟩ := exists_ending h
    rw [writeText_append_ending hcut, pairs_append_of_not_cutsPair hcut]
    exact hlines content last
  · rw [writeText_of_not_endsLine h]
    exact (Nat.le_add_right _ _).trans (hlines text ending)

theorem length_writeText {text : Text} (h : text.EndsLine) (margin : Text) (ending : LineEnding) :
    (writeText margin ending text).length =
      countTerminators text * margin.length + text.length := by
  obtain ⟨content, last, rfl, hcut⟩ := exists_ending h
  have hcount := countTerminators_append content last.text
  rw [if_neg hcut, Nat.add_zero, countTerminators_ending] at hcount
  rw [writeText_append_ending hcut, length_writeLines, hcount, List.length_append, Nat.add_assoc]

theorem length_le_length_writeText (margin : Text) (ending : LineEnding) (text : Text) :
    margin.length + text.length ≤ (writeText margin ending text).length := by
  have hlines : ∀ content last : Text,
      margin.length + (content.length + last.length) ≤ (writeLines margin content last).length := by
    intro content last
    rw [length_writeLines, Nat.add_mul, Nat.one_mul]
    omega
  by_cases h : text.EndsLine
  · obtain ⟨content, last, rfl, hcut⟩ := exists_ending h
    rw [writeText_append_ending hcut, List.length_append]
    exact hlines content last.text
  · rw [writeText_of_not_endsLine h]
    have := hlines text ending.text
    omega

/-! ### Regions -/

theorem terminator_map_text (writer : RegionWriter) (ending? : Option LineEnding) :
    writer.terminator (ending?.map LineEnding.text) =
      .ok (ending?.getD writer.lineEnding).text := by
  cases ending? with
  | none => rfl
  | some ending =>
    have : Text.isTerminator ending.text = true := by cases ending <;> rfl
    simp [terminator, this]

def marginOf (marker : Text) : Block → Text
  | .code _ => []
  | .inlineDoc indent _ _ _ => indent ++ marker ++ [' ']
  | .blockDoc _ _ => marker ++ [' ']

def writtenRun (marker : Text) (ending : LineEnding) : List Block → Text
  | [] => []
  | block :: blocks =>
    writeText (marginOf marker block) ending ((block :: blocks).flatMap Block.text)

theorem writeFrom_eq_ok {α : Type} {writer : RegionWriter} {region : α → EditedRegion}
    {text : α → Text} {items : List α}
    (h : ∀ item ∈ items, writer.writeRegion (region item) = .ok (text item)) (index : Nat) :
    writer.writeFrom index (items.map region) = .ok (items.flatMap text) := by
  induction items generalizing index with
  | nil => rfl
  | cons item items ih =>
    rw [List.map_cons, writeFrom, h item (List.mem_cons_self ..)]
    dsimp only
    rw [ih (fun other ho => h other (List.mem_cons_of_mem _ ho))]
    rfl

theorem exists_of_writeFrom_eq_ok {writer : RegionWriter} {regions : List EditedRegion}
    {index : Nat} {text : Text} (h : writer.writeFrom index regions = .ok text) :
    ∀ region ∈ regions, ∃ written, writer.writeRegion region = .ok written := by
  induction regions generalizing index text with
  | nil => simp
  | cons first regions ih =>
    rw [writeFrom] at h
    cases hfirst : writer.writeRegion first with
    | error fault => simp [hfirst] at h
    | ok written =>
      rw [hfirst] at h
      dsimp only at h
      cases hrest : writer.writeFrom (index + 1) regions with
      | error fault => simp [hrest, Except.map] at h
      | ok rest =>
        intro region hr
        rcases List.mem_cons.1 hr with rfl | hr
        · exact ⟨written, hfirst⟩
        · exact ih hrest region hr

end RegionWriter

namespace EditedRegion

/-- The region of a run of blocks, as it comes back when nothing was edited. -/
def ofRun : List Block → EditedRegion
  | [] => .code []
  | block :: blocks =>
    ofRegion (.showing (.ofBlock block) 1 ((block :: blocks).flatMap Block.text))

theorem map_ofRegion_ofRuns {runs : List (List Block)} (h : [] ∉ runs) (line : Nat) :
    (Region.ofRuns line runs).map ofRegion = runs.map ofRun := by
  induction runs generalizing line with
  | nil => rfl
  | cons run runs ih =>
    rw [List.mem_cons, not_or] at h
    cases run with
    | nil => exact absurd rfl h.1
    | cons block blocks =>
      rw [Region.ofRuns, List.map_cons, List.map_cons, ih h.2]
      rfl

end EditedRegion

namespace RegionWriter

theorem writeRegion_ofRun_code (writer : RegionWriter) (marker text : Text) :
    writer.writeRegion (EditedRegion.ofRun [.code text]) =
      .ok (writtenRun marker writer.lineEnding [.code text]) := by
  simp only [writeRegion, EditedRegion.ofRun, EditedRegion.ofRegion, Region.showing,
    Region.Role.ofBlock, Region.Role.kind, RegionKind.ofName?_name, terminator_map_text]
  rfl

theorem writeRegion_ofRun_doc {marker : Text} (ending : LineEnding) {block : Block}
    (hcode : block.isCode = false) (hblank : block.indent.isBlank = true) (blocks : List Block) :
    writeRegion ⟨.inline marker, ending⟩ (EditedRegion.ofRun (block :: blocks)) =
      .ok (writtenRun marker ending (block :: blocks)) := by
  cases block with
  | code => simp [Block.isCode] at hcode
  | inlineDoc indent _ _ _ =>
    have hindent : indent.isBlank = true := hblank
    simp only [writeRegion, EditedRegion.ofRun, EditedRegion.ofRegion, Region.showing,
      Region.Role.ofBlock, Region.Role.kind, RegionKind.ofName?_name, terminator_map_text,
      Region.Role.indent?, Option.getD_some, hindent, if_true]
    rfl
  | blockDoc =>
    simp only [writeRegion, EditedRegion.ofRun, EditedRegion.ofRegion, Region.showing,
      Region.Role.ofBlock, Region.Role.kind, RegionKind.ofName?_name, terminator_map_text]
    rfl

theorem writeRegion_ofRun_unavailable (ending : LineEnding) {block : Block}
    (hcode : block.isCode = false) (blocks : List Block) :
    writeRegion ⟨.unavailable, ending⟩ (EditedRegion.ofRun (block :: blocks)) =
      .error .noMarker := by
  cases block with
  | code => simp [Block.isCode] at hcode
  | inlineDoc =>
    simp only [writeRegion, EditedRegion.ofRun, EditedRegion.ofRegion, Region.showing,
      Region.Role.ofBlock, Region.Role.kind, RegionKind.ofName?_name, terminator_map_text]
    rfl
  | blockDoc =>
    simp only [writeRegion, EditedRegion.ofRun, EditedRegion.ofRegion, Region.showing,
      Region.Role.ofBlock, Region.Role.kind, RegionKind.ofName?_name, terminator_map_text]
    rfl

end RegionWriter

end Literate
