import Literate.Proofs.Borders
import Literate.Proofs.Closings
import Literate.Proofs.RoundTrip

/-!
# Line numbers

The line at which a region starts is found by counting terminators block by block.  That this is the
true line of the source,

  `region.firstLine = 1 + countTerminators before`,

where `before` is the part of the source before the region, rests on one fact about classified
texts: no border between two blocks cuts a carriage return off its line feed
(`Layout.isChain_not_cutsPair`).

The text that a region shows need not have as many lines as its part of the source.  In the source
an indent and a marker stand between two comments of a run, in the region nothing does; so where one
comment ends with a carriage return and the next one is empty and ends with a line feed, the region
has one line less.  This is the only case (`firstLine_sub_eq_iff`).
-/

namespace Literate

namespace Language

open Draft Text

variable {language : Language} {lineStart fresh : Bool}

/-! ### Borders between blocks -/

theorem not_endsLine_of_blockComment (h : language.Orderly) {opener closer body rest : Text}
    (hne : rest ≠ [])
    (ht : language.token? lineStart (opener ++ body ++ rest) =
      some ⟨.blockComment opener closer, body⟩) : ¬ EndsLine (opener ++ body) := by
  obtain ⟨hopener, hcloser⟩ := h.blockComments _ (has_of_token? ht)
  rintro ⟨c, hlast, hbreak⟩
  have hsolid : ∃ token : Text, token.Solid ∧ c ∈ token := by
    by_cases hbody : body = []
    · rw [hbody, List.append_nil] at hlast
      exact ⟨opener, hopener, List.mem_of_getLast? hlast⟩
    · have htoken : language.token? lineStart
          (Token.text ⟨.blockComment opener closer, body⟩ ++ rest) =
            some ⟨.blockComment opener closer, body⟩ := ht
      have hextent : Extent.blockComment opener closer (body ++ rest) = body.length :=
        extent_of_token? hne htoken
      have hpos := List.length_pos_iff.2 hne
      rw [List.getLast?_append_of_ne_nil _ hbody] at hlast
      rw [Extent.blockComment] at hextent
      have hreading : ∀ (rest : Text) (m : Nat),
          (literally closer rest).or (literally opener rest) = some m →
            ∃ token : Text, token.Solid ∧ literally token rest = some m := by
        intro rest m hread
        rcases Option.or_eq_some_iff.1 hread with hread | ⟨_, hread⟩
        · exact ⟨closer, hcloser, hread⟩
        · exact ⟨opener, hopener, hread⟩
      have hlt : (body ++ rest).length > body.length := by
        rw [List.length_append]
        omega
      have htake : ((body ++ rest).take body.length).getLast? = some c := by
        rw [List.take_left, hlast]
      rw [← hextent] at hlt htake
      exact exists_solid_of_endOfFirst hreading hlt htake
  obtain ⟨token, hsolid, hc⟩ := hsolid
  rw [hsolid.unbroken c hc] at hbreak
  simp at hbreak

theorem head?_source_ne (h : language.Orderly) {block : Block} (hof : block.OfLanguage language)
    (hcode : block.isCode = false) : block.source.head? ≠ some '\n' := by
  intro hhead
  cases block with
  | code => simp [Block.isCode] at hcode
  | inlineDoc indent marker spaced text =>
    obtain ⟨hindent, hmarker, _⟩ := hof
    have hsolid := h.inlineComments _ hmarker
    have hsource : (Block.inlineDoc indent marker spaced text).source =
        Region.lead indent marker spaced ++ text := rfl
    rw [hsource, List.head?_append_of_ne_nil _ (Region.lead_ne_nil hsolid spaced)] at hhead
    have := Region.unbroken_lead hindent hsolid spaced _ (List.mem_of_head? hhead)
    simp [isLineBreak] at this
  | blockDoc opener text =>
    obtain ⟨⟨closer, hpair⟩, rest, rfl⟩ := hof
    have hsolid := (h.blockComments _ hpair).1
    rw [Block.source, List.head?_append_of_ne_nil _ hsolid.1] at hhead
    have := hsolid.unbroken _ (List.mem_of_head? hhead)
    simp [isLineBreak] at this

theorem not_cutsPair_of_doc? (h : language.Orderly) {text rest : Text} {lexeme : Lexeme}
    {block : Block} (hl : language.lexeme? lineStart (lexeme.text ++ rest) = some lexeme)
    (hdoc : (withCode fresh text).doc? lexeme = some block) : ¬ CutsPair block.source rest := by
  rintro ⟨hlast, hhead⟩
  have hne : rest ≠ [] := by
    rintro rfl
    simp at hhead
  rw [source_of_doc? hdoc, List.getLast?_append_of_ne_nil _ (lexeme?_isPrefix hl).1] at hlast
  rcases doc?_eq_some hdoc with ⟨opener, closer, body, rfl, rfl⟩ |
    ⟨indent, marker, body, rfl, _, _⟩
  · exact not_endsLine_of_blockComment h hne (lexeme?_token.1 hl) ⟨'\r', hlast, rfl⟩
  · obtain ⟨hends, hcut⟩ := inlineComment_of_token? (lexeme?_token.1 hl)
    refine hcut ⟨?_, hhead⟩
    rw [← hlast]
    exact (List.getLast?_append_of_ne_nil _ (hends hne).ne_nil).symm

/-- **No border between two blocks cuts a pair.** -/
theorem Layout.isChain_not_cutsPair {text : Text} {blocks : List Block}
    (h : Layout language lineStart fresh text blocks) (horderly : language.Orderly) :
    blocks.IsChain fun a b => ¬ CutsPair a.source b.source := by
  induction h with
  | @code _ _ text =>
    by_cases hc : text = []
    · subst hc
      exact List.isChain_nil
    · rw [Block.codeOf_of_ne_nil hc]
      exact List.isChain_singleton _
  | @doc lineStart fresh read lexeme code rest block blocks hscan hread hdoc htail ih =>
    have hl := (lexeme?_of_read hscan hread hdoc).2
    have hblocks : (block :: blocks).IsChain fun a b => ¬ CutsPair a.source b.source := by
      rw [List.isChain_cons]
      refine ⟨fun next hnext => ?_, ih⟩
      rintro ⟨hlast, hhead⟩
      obtain ⟨more, rfl⟩ := List.head?_eq_some_iff.1 hnext
      have hsource := htail.sourceOf_eq
      rw [Block.sourceOf_cons] at hsource
      refine not_cutsPair_of_doc? horderly hl hdoc ⟨hlast, ?_⟩
      rw [← hsource, List.head?_append, hhead]
      rfl
    by_cases hc : code = []
    · rw [hc]
      exact hblocks
    · rw [Block.codeOf_of_ne_nil hc]
      refine List.isChain_cons_cons.2 ⟨fun hcut => ?_, hblocks⟩
      exact head?_source_ne horderly (ofLanguage_of_doc? hl hdoc) (isCode_of_doc? hdoc) hcut.2

end Language

namespace Region

open Text

/-! ### Counting block by block -/

theorem source_ne_nil {language : Language} (h : language.Orderly) {block : Block}
    (hof : block.OfLanguage language) : block.source ≠ [] := by
  cases block with
  | code text => exact hof
  | inlineDoc indent marker spaced text =>
    have hsolid := h.inlineComments _ hof.2.1
    exact List.append_ne_nil_of_left_ne_nil (lead_ne_nil hsolid spaced) text
  | blockDoc opener text =>
    obtain ⟨⟨closer, hpair⟩, rest, rfl⟩ := hof
    exact List.append_ne_nil_of_left_ne_nil (h.blockComments _ hpair).1.1 rest

theorem not_cutsPair_sourceOf {before after : List Block}
    (hne : ∀ block ∈ before ++ after, block.source ≠ [])
    (h : (before ++ after).IsChain fun a b => ¬ CutsPair a.source b.source) :
    ¬ CutsPair (Block.sourceOf before) (Block.sourceOf after) := by
  rintro ⟨hlast, hhead⟩
  rcases List.eq_nil_or_concat before with rfl | ⟨front, last, rfl⟩
  · simp [Block.sourceOf] at hlast
  · cases after with
    | nil => simp [Block.sourceOf] at hhead
    | cons next after =>
      have hborder := (List.isChain_append.1 h).2.2 last (by simp) next rfl
      refine hborder ⟨?_, ?_⟩
      · rw [List.concat_eq_append, Block.sourceOf_append, Block.sourceOf_cons,
          show Block.sourceOf [] = [] from rfl, List.append_nil,
          List.getLast?_append_of_ne_nil _ (hne last (by simp))] at hlast
        exact hlast
      · rw [Block.sourceOf_cons, List.head?_append_of_ne_nil _ (hne next (by simp))] at hhead
        exact hhead

/-- **Terminators are counted block by block.** -/
theorem height_eq_countTerminators {blocks : List Block}
    (hne : ∀ block ∈ blocks, block.source ≠ [])
    (h : blocks.IsChain fun a b => ¬ CutsPair a.source b.source) :
    height blocks = countTerminators (Block.sourceOf blocks) := by
  induction blocks with
  | nil => rfl
  | cons block blocks ih =>
    have hcut : ¬ CutsPair (Block.sourceOf [block]) (Block.sourceOf blocks) :=
      not_cutsPair_sourceOf hne h
    have hadd := countTerminators_append block.source (Block.sourceOf blocks)
    rw [Block.sourceOf_cons, show Block.sourceOf [] = [] from rfl, List.append_nil] at hcut
    rw [if_neg hcut, Nat.add_zero] at hadd
    rw [height, Block.sourceOf_cons, hadd, ih (fun other ho => hne other (by simp [ho])) h.tail]

theorem height_append (a b : List Block) : height (a ++ b) = height a + height b := by
  induction a with
  | nil => simp [height]
  | cons block a ih => rw [List.cons_append, height, height, ih, Nat.add_assoc]

/-! ### Counting text by text -/

theorem countTerminators_source {language : Language} (h : language.Orderly) {block : Block}
    (hof : block.OfLanguage language) :
    countTerminators block.source = countTerminators block.text := by
  cases block with
  | code text => rfl
  | blockDoc opener text => rfl
  | inlineDoc indent marker spaced text =>
    have hlead := unbroken_lead hof.1 (h.inlineComments _ hof.2.1) spaced
    have hadd := countTerminators_append (lead indent marker spaced) text
    rw [if_neg (not_cutsPair_of_unbroken hlead text), countTerminators_of_unbroken hlead] at hadd
    show countTerminators (lead indent marker spaced ++ text) = countTerminators text
    omega

/-- **Joining the texts of blocks makes no terminator**, and loses one wherever it makes a pair. -/
theorem countTerminators_flatMap_text {language : Language} (h : language.Orderly)
    {blocks : List Block} (hof : ∀ block ∈ blocks, block.OfLanguage language)
    (hne : ∀ block ∈ blocks, block.text ≠ []) :
    countTerminators (blocks.flatMap Block.text) ≤ height blocks ∧
      (height blocks = countTerminators (blocks.flatMap Block.text) ↔
        blocks.IsChain fun a b => ¬ CutsPair a.text b.text) := by
  induction blocks with
  | nil => simp [height, countTerminators]
  | cons block blocks ih =>
    obtain ⟨hle, hiff⟩ := ih (fun other ho => hof other (List.mem_cons_of_mem _ ho))
      fun other ho => hne other (List.mem_cons_of_mem _ ho)
    have hadd := countTerminators_append block.text (blocks.flatMap Block.text)
    have hsource := countTerminators_source h (hof block (List.mem_cons_self ..))
    -- only the first of the texts behind can make a pair
    have hcut : CutsPair block.text (blocks.flatMap Block.text) ↔
        ∃ next ∈ blocks.head?, CutsPair block.text next.text := by
      cases blocks with
      | nil => simp [CutsPair]
      | cons next blocks =>
        simp [CutsPair, List.head?_append_of_ne_nil _ (hne next (by simp))]
    rw [height, List.flatMap_cons, List.isChain_cons, ← hiff, hsource]
    by_cases hpair : CutsPair block.text (blocks.flatMap Block.text)
    · rw [if_pos hpair] at hadd
      obtain ⟨next, hnext, hpair⟩ := hcut.1 hpair
      refine ⟨by omega, fun heq => by omega, fun hchain => absurd hpair (hchain.1 next hnext)⟩
    · rw [if_neg hpair] at hadd
      refine ⟨by omega, fun heq => ⟨fun next hnext hcut' => ?_, by omega⟩, fun hchain => ?_⟩
      · exact hpair (hcut.2 ⟨next, hnext, hcut'⟩)
      · have := hchain.2
        omega

/-! ### Regions and runs -/

/-- The text of a region, with the terminator that was taken off. -/
def text (region : Region) : Text :=
  region.content ++ (region.terminator.map LineEnding.text).getD []

/-- The region shows the blocks of the run. -/
structure Shows (region : Region) (run : List Block) : Prop where
  role : run.head?.map Role.ofBlock = some region.role
  text : region.text = run.flatMap Block.text

theorem text_showing (role : Role) (line : Nat) (text : Text) :
    (showing role line text).text = text := by
  by_cases h : text.EndsLine
  · obtain ⟨content, ending, rfl, hcut⟩ := exists_ending h
    simp [Region.text, showing, stripTerminator_append hcut]
  · simp [Region.text, showing, stripTerminator_of_not_endsLine h]

theorem forall₂_shows_ofRuns {runs : List (List Block)} (hne : [] ∉ runs) (line : Nat) :
    List.Forall₂ Shows (ofRuns line runs) runs := by
  induction runs generalizing line with
  | nil => exact .nil
  | cons run runs ih =>
    rw [List.mem_cons, not_or] at hne
    cases run with
    | nil => exact absurd rfl hne.1
    | cons block blocks => exact .cons ⟨rfl, text_showing ..⟩ (ih hne.2 _)

theorem exists_head_of_ofRuns {runs : List (List Block)} (hne : [] ∉ runs) {line : Nat}
    {region : Region} {after : List Region} (h : ofRuns line runs = region :: after) :
    region.firstLine = line ∧ runs.flatten ≠ [] := by
  match runs with
  | [] => simp [ofRuns] at h
  | [] :: _ => simp at hne
  | (block :: blocks) :: runs =>
    obtain ⟨rfl, _⟩ := List.cons.inj h
    exact ⟨rfl, by simp⟩

/-- **A region starts behind all the runs before its own**, and the next one behind that. -/
theorem exists_run_of_ofRuns {runs : List (List Block)} (hne : [] ∉ runs) {line : Nat}
    {before after : List Region} {region : Region}
    (h : ofRuns line runs = before ++ region :: after) :
    ∃ front run back, runs = front ++ run :: back ∧ front.length = before.length ∧
      region.Shows run ∧ region.firstLine = line + height front.flatten ∧
      after = ofRuns (region.firstLine + height run) back := by
  induction runs generalizing line before with
  | nil => simp [ofRuns] at h
  | cons run runs ih =>
    rw [List.mem_cons, not_or] at hne
    cases run with
    | nil => exact absurd rfl hne.1
    | cons block blocks =>
      rw [ofRuns] at h
      cases before with
      | nil =>
        obtain ⟨rfl, rfl⟩ := List.cons.inj h
        exact ⟨[], _, runs, rfl, rfl, ⟨rfl, text_showing ..⟩, rfl, rfl⟩
      | cons first before =>
        obtain ⟨front, run, back, rfl, hlength, hshows, hline, hafter⟩ :=
          ih hne.2 (List.cons.inj h).2
        refine ⟨(block :: blocks) :: front, run, back, rfl, congrArg (· + 1) hlength, hshows, ?_,
          hafter⟩
        rw [hline, List.flatten_cons, height_append, Nat.add_assoc]

end Region

namespace Document

open Text

variable {language : Language} {source : Text}

theorem isChain_not_cutsPair_classify (h : language ∈ Language.table) (source : Text) :
    (classify language source).IsChain fun a b => ¬ CutsPair a.source b.source :=
  (Language.layout_blocksFrom language true true source).isChain_not_cutsPair
    (Language.orderly_of_mem_table h)

theorem source_ne_nil_of_mem_classify (h : language ∈ Language.table) {block : Block}
    (hb : block ∈ classify language source) : block.source ≠ [] :=
  Region.source_ne_nil (Language.orderly_of_mem_table h) (ofLanguage_of_mem_classify hb)

/-- **Regions start at the lines of the source.**  The regions show the runs of blocks one by one,
the sources of the runs are the source, and a region starts at the line that the source has reached
before its run.  No border between two blocks cuts a pair. -/
theorem firstLine_eq (h : language ∈ Language.table) (source : Text) :
    (runs language source).flatMap Block.sourceOf = source ∧
      List.Forall₂ Region.Shows (Region.ofBlocks (classify language source))
        (runs language source) ∧
      (∀ before region after,
        Region.ofBlocks (classify language source) = before ++ region :: after →
        region.firstLine = 1 + countTerminators
          (((runs language source).take before.length).flatMap Block.sourceOf)) ∧
      ∀ before after, classify language source = before ++ after →
        ¬ CutsPair (Block.sourceOf before) (Block.sourceOf after) := by
  have hnil : [] ∉ runs language source := List.nil_notMem_splitBy _ _
  have hchain := isChain_not_cutsPair_classify h source
  have hne : ∀ block ∈ classify language source, block.source ≠ [] :=
    fun _ hb => source_ne_nil_of_mem_classify h hb
  refine ⟨flatMap_sourceOf_runs language source, Region.forall₂_shows_ofRuns hnil 1, ?_, ?_⟩
  · intro before region after hregions
    obtain ⟨front, run, back, hruns, hlength, _, hline, _⟩ :=
      Region.exists_run_of_ofRuns hnil hregions
    rw [← flatten_runs, hruns, List.flatten_append] at hchain hne
    rw [hline, Region.height_eq_countTerminators
      (fun block hb => hne block (List.mem_append_left _ hb)) hchain.left_of_append, hruns,
      ← hlength, List.take_left, flatMap_sourceOf]
  · intro before after hblocks
    rw [hblocks] at hchain hne
    exact Region.not_cutsPair_sourceOf hne hchain

theorem firstLine_eq_python :
    (∀ before region after,
        Region.ofBlocks (classify .python "x\r# a\r\n# b\r\ny") = before ++ region :: after →
        region.firstLine = 1 + countTerminators
          (((runs .python "x\r# a\r\n# b\r\ny").take before.length).flatMap Block.sourceOf)) ∧
      (Region.ofBlocks (classify .python "x\r# a\r\n# b\r\ny")).map Region.firstLine =
        [1, 2, 4] := by
  have hmem : Language.python ∈ Language.table := by decide
  exact ⟨(firstLine_eq hmem "x\r# a\r\n# b\r\ny").2.2.1, by decide⟩

/-! ### The lines that a region shows -/

theorem text_ne_nil_of_classify (h : language ∈ Language.table) {before after : List Block}
    {block : Block} (hafter : after ≠ [])
    (hblocks : classify language source = before ++ block :: after) : block.text ≠ [] := by
  have hof : block.OfLanguage language := ofLanguage_of_mem_classify (by rw [hblocks]; simp)
  cases block with
  | code text => exact hof
  | blockDoc opener text =>
    exact Region.source_ne_nil (Language.orderly_of_mem_table h) hof
  | inlineDoc indent marker spaced text =>
    obtain ⟨next, more, rfl⟩ := List.exists_cons_of_ne_nil hafter
    have hchain := isChain_classify language source
    rw [hblocks] at hchain
    exact (List.isChain_cons_cons.1 hchain.right_of_append).1.1.ne_nil

/-- **A region shows the lines of its part of the source unless it joins two of its comments.**  The
next region starts where the text of the region ends exactly if no comment of the run ends with a
carriage return while the next one starts with a line feed. -/
theorem firstLine_sub_eq_iff (h : language ∈ Language.table) {before after : List Region}
    {region next : Region}
    (hregions : Region.ofBlocks (classify language source) = before ++ region :: next :: after) :
    ∃ run, (runs language source)[before.length]? = some run ∧ region.Shows run ∧
      next.firstLine = region.firstLine + countTerminators (Block.sourceOf run) ∧
      (next.firstLine - region.firstLine = countTerminators region.text ↔
        run.IsChain fun a b => ¬ CutsPair a.text b.text) := by
  have horderly := Language.orderly_of_mem_table h
  have hnil : [] ∉ runs language source := List.nil_notMem_splitBy _ _
  obtain ⟨front, run, back, hruns, hlength, hshows, _, hafter⟩ :=
    Region.exists_run_of_ofRuns hnil hregions
  have hback : [] ∉ back := fun hmem => hnil (by simp [hruns, hmem])
  obtain ⟨hnext, hbehind⟩ := Region.exists_head_of_ofRuns hback hafter.symm
  have hblocks : classify language source = front.flatten ++ (run ++ back.flatten) := by
    rw [← flatten_runs, hruns, List.flatten_append, List.flatten_cons]
  have hmem : ∀ block ∈ run, block ∈ classify language source := by
    intro block hb
    simp [hblocks, hb]
  have hof := fun block hb => ofLanguage_of_mem_classify (hmem block hb)
  have htext : ∀ block ∈ run, block.text ≠ [] := by
    intro block hb
    obtain ⟨a, b, rfl⟩ := List.append_of_mem hb
    have hsplit : classify language source =
        (front.flatten ++ a) ++ block :: (b ++ back.flatten) := by simp [hblocks]
    exact text_ne_nil_of_classify h (by simp [hbehind]) hsplit
  have hchain := isChain_not_cutsPair_classify h source
  rw [hblocks] at hchain
  have hcount := Region.height_eq_countTerminators
    (fun block hb => Region.source_ne_nil horderly (hof block hb))
    hchain.right_of_append.left_of_append
  refine ⟨run, ?_, hshows, by rw [hnext, hcount], ?_⟩
  · rw [hruns, ← hlength, List.getElem?_append_right (Nat.le_refl _), Nat.sub_self]
    rfl
  · rw [hnext, Nat.add_sub_cancel_left, hshows.text]
    exact (Region.countTerminators_flatMap_text horderly hof htext).2

theorem firstLine_sub_eq_iff_python :
    ∃ run, (runs .python "# a\r# b\nx\n")[0]? = some run ∧
      (Region.showing (.comment [] false) 1 "a\rb\n").Shows run ∧
      3 = 1 + countTerminators (Block.sourceOf run) ∧
      (3 - 1 = countTerminators (Region.showing (.comment [] false) 1 "a\rb\n").text ↔
        run.IsChain fun a b => ¬ CutsPair a.text b.text) := by
  have hmem : Language.python ∈ Language.table := by decide
  have hregions : Region.ofBlocks (classify .python "# a\r# b\nx\n") =
      [] ++ .showing (.comment [] false) 1 "a\rb\n" :: .showing .code 3 "x\n" :: [] := by decide
  exact firstLine_sub_eq_iff hmem hregions

/-- A comment that ends with a carriage return and an empty one that ends with a line feed are two
lines of the source, but their region shows one. -/
theorem firstLine_sub_ne_python :
    Language.python ∈ Language.table ∧ Language.python.docOnly = false ∧
      ∃ region next, Region.ofBlocks (classify .python "# a\r# \nx\n") = [region, next] ∧
        next.firstLine - region.firstLine = 2 ∧
        countTerminators (region.content ++ (region.terminator.map LineEnding.text).getD []) = 1 :=
  ⟨by decide, rfl, .showing (.comment [] false) 1 "a\r\n", .showing .code 3 "x\n", by decide⟩

end Document

end Literate
