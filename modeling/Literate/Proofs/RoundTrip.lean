import Literate.Proofs.Neighbours
import Literate.Proofs.Runs

/-!
# Which sources come back unchanged

A source that is loaded and saved without an edit comes back unchanged exactly if `RoundTrips` holds
of it.  That this is enough is seen run by run.  That it is needed is seen from two weights: if the
saved text is the source, then run by run the pairs agree, so no run joins two of its texts into a
pair; then run by run the lengths agree, so no margin was added or lost.
-/

namespace Literate

open Text RegionWriter

/-- The conditions under which a source comes back unchanged, in terms of its blocks. -/
structure RoundTrips (blocks : List Block) (source : Text) : Prop where
  noBlockComment : ∀ opener text, .blockDoc opener text ∉ blocks
  spaced : ∀ indent marker spaced text,
    .inlineDoc indent marker spaced text ∈ blocks → spaced = true
  terminated : ∀ indent marker spaced text, .inlineDoc indent marker spaced text ∈ blocks →
    text.countTerminators = 1 ∧ text.EndsLine
  ended : source = [] ∨ source.EndsLine
  /-- No two comments of one region leave a carriage return before a line feed. -/
  unpaired : ∀ before after indent marker marker' spaced spaced' text,
    blocks = before ++ .inlineDoc indent marker spaced text ::
      .inlineDoc indent marker' spaced' ['\n'] :: after → text.getLast? ≠ some '\r'

namespace Document

variable {language : Language} {source : Text} {mode : EditorMode}

/-- The runs of blocks that the regions of a source show. -/
def runs (language : Language) (source : Text) : List (List Block) :=
  (classify language source).splitBy Region.joins

theorem flatten_runs (language : Language) (source : Text) :
    (runs language source).flatten = classify language source :=
  List.flatten_splitBy ..

theorem flatMap_sourceOf (runs : List (List Block)) :
    runs.flatMap Block.sourceOf = Block.sourceOf runs.flatten := by
  induction runs with
  | nil => rfl
  | cons run runs ih => rw [List.flatMap_cons, List.flatten_cons, Block.sourceOf_append, ih]

theorem flatMap_sourceOf_runs (language : Language) (source : Text) :
    (runs language source).flatMap Block.sourceOf = source := by
  rw [flatMap_sourceOf, flatten_runs, Language.classify_eq_blocksFrom,
    Language.sourceOf_blocksFrom]

theorem mem_classify_of_mem_runs {run : List Block} {block : Block}
    (hrun : run ∈ runs language source) (hblock : block ∈ run) :
    block ∈ classify language source := by
  rw [← flatten_runs]
  exact List.mem_flatten_of_mem hrun hblock

theorem exists_run_of_mem_classify {block : Block} (h : block ∈ classify language source) :
    ∃ run ∈ runs language source, block ∈ run := by
  rw [← flatten_runs] at h
  exact List.mem_flatten.1 h

theorem ofLanguage_of_mem_classify {block : Block} (h : block ∈ classify language source) :
    block.OfLanguage language :=
  (Language.layout_blocksFrom language true true source).ofLanguage block h

theorem isChain_classify (language : Language) (source : Text) :
    (classify language source).IsChain Block.Precedes :=
  (Language.layout_blocksFrom language true true source).isChain

/-- **What a region of a classified source shows.** -/
theorem cases_of_mem_runs (h : language ∈ Language.table) {run : List Block}
    (hrun : run ∈ runs language source) :
    (∃ text : Text, text ≠ [] ∧ run = [.code text]) ∨
      (∃ opener text : Text, opener.Solid ∧ opener <+: text ∧ run = [.blockDoc opener text]) ∨
      ∃ indent marker items, indent.isBlank = true ∧ marker.Solid ∧
        language.saveMarker? = some marker ∧ items ≠ [] ∧
        run = Region.inlineRun indent marker items := by
  have horderly := Language.orderly_of_mem_table h
  have hof : ∀ block ∈ run, block.OfLanguage language :=
    fun block hb => ofLanguage_of_mem_classify (mem_classify_of_mem_runs hrun hb)
  rcases Region.run_cases (List.ne_nil_of_mem_splitBy hrun) (List.isChain_of_mem_splitBy hrun)
    with ⟨text, rfl⟩ | ⟨opener, text, rfl⟩ | ⟨indent, marker, items, hitems, rfl⟩
  · exact Or.inl ⟨text, hof _ (List.mem_singleton_self _), rfl⟩
  · obtain ⟨⟨closer, hmem⟩, hfront⟩ := hof _ (List.mem_singleton_self _)
    exact Or.inr (Or.inl ⟨opener, text, (horderly.blockComments _ hmem).1, hfront, rfl⟩)
  · obtain ⟨item, hitem⟩ := List.exists_mem_of_ne_nil items hitems
    obtain ⟨hindent, hmem, _⟩ := hof _ (List.mem_map_of_mem hitem)
    exact Or.inr (Or.inr ⟨indent, marker, items, hindent, horderly.inlineComments _ hmem,
      Language.eq_saveMarker_of_mem_table h hmem, hitems, rfl⟩)

/-! ### Saving writes the runs -/

theorem editedRegions_eq (hdoc : language.docOnly = false) (hmode : mode ≠ .raw) :
    (ofSource language source mode).editedRegions =
      (runs language source).map EditedRegion.ofRun := by
  rw [editedRegions, ofSource]
  simp only [hdoc, hmode, Bool.false_or, decide_false, Bool.false_eq_true, if_false]
  exact EditedRegion.map_ofRegion_ofRuns (List.nil_notMem_splitBy _ _) 1

theorem writeRegion_inline_of_mem_runs (h : language ∈ Language.table) (marker : Text)
    (ending : LineEnding) {run : List Block} (hrun : run ∈ runs language source) :
    writeRegion ⟨.inline marker, ending⟩ (EditedRegion.ofRun run) =
      .ok (writtenRun marker ending run) := by
  rcases cases_of_mem_runs h hrun with ⟨text, _, rfl⟩ | ⟨opener, text, _, _, rfl⟩ |
    ⟨indent, marker', items, hindent, _, _, hitems, rfl⟩
  · exact writeRegion_ofRun_code ..
  · exact writeRegion_ofRun_doc ending rfl rfl []
  · cases items with
    | nil => exact absurd rfl hitems
    | cons item items =>
      have hblank : (Block.inlineDoc indent marker' item.1 item.2).indent.isBlank = true := hindent
      exact writeRegion_ofRun_doc ending rfl hblank _

theorem writeRegion_unavailable_of_mem_runs (h : language ∈ Language.table)
    (hm : language.saveMarker? = none) (ending : LineEnding) {run : List Block}
    (hrun : run ∈ runs language source) {written : Text} :
    writeRegion ⟨.unavailable, ending⟩ (EditedRegion.ofRun run) = .ok written ↔
      (∀ block ∈ run, block.isCode = true) ∧ written = writtenRun [] ending run := by
  rcases cases_of_mem_runs h hrun with ⟨text, _, rfl⟩ | ⟨opener, text, _, _, rfl⟩ |
    ⟨indent, marker', items, _, _, hm', _, rfl⟩
  · rw [writeRegion_ofRun_code]
    constructor
    · intro hok
      exact ⟨by simp [Block.isCode], (Except.ok.inj hok).symm⟩
    · rintro ⟨_, rfl⟩
      rfl
  · rw [writeRegion_ofRun_unavailable ending rfl]
    simp [Block.isCode]
  · rw [hm] at hm'
    simp at hm'

/-- **What an unedited document is saved as.** -/
theorem save_eq_ok_iff (h : language ∈ Language.table) (hdoc : language.docOnly = false)
    (hmode : mode ≠ .raw) {saved : Text} :
    (ofSource language source mode).save (ofSource language source mode).editedRegions =
        .ok saved ↔
      (language.saveMarker? = none → ∀ block ∈ classify language source, block.isCode = true) ∧
        saved = (runs language source).flatMap
          (writtenRun (language.saveMarker?.getD []) (LineEnding.detect source)) := by
  rw [save, write, editedRegions_eq hdoc hmode]
  have hwriter : (ofSource language source mode).writer =
      ⟨.ofMarker (language.saveMarker?.getD []), LineEnding.detect source⟩ := by
    simp only [writer, ofSource, hdoc, Bool.false_eq_true, if_false]
  rw [hwriter]
  generalize LineEnding.detect source = ending
  cases hm : language.saveMarker? with
  | some marker =>
    have hne : marker ≠ [] := by
      have := Option.filter_eq_some_iff.1 hm
      simpa using this.2
    have hstyle : DocStyle.ofMarker marker = .inline marker := by
      simp [DocStyle.ofMarker, hne]
    rw [Option.getD_some, hstyle,
      writeFrom_eq_ok fun run hrun => writeRegion_inline_of_mem_runs h marker ending hrun]
    constructor
    · intro hok
      exact ⟨by simp, (Except.ok.inj hok).symm⟩
    · rintro ⟨_, rfl⟩
      rfl
  | none =>
    rw [Option.getD_none, show DocStyle.ofMarker [] = .unavailable from rfl]
    have hwrite : (∀ block ∈ classify language source, block.isCode = true) →
        ∀ run ∈ runs language source, writeRegion ⟨.unavailable, ending⟩ (EditedRegion.ofRun run) =
          .ok (writtenRun [] ending run) := by
      intro hall run hrun
      refine (writeRegion_unavailable_of_mem_runs h hm ending hrun).2 ⟨fun block hb => ?_, rfl⟩
      exact hall block (mem_classify_of_mem_runs hrun hb)
    constructor
    · intro hok
      have hall : ∀ block ∈ classify language source, block.isCode = true := by
        intro block hb
        obtain ⟨run, hrun, hb⟩ := exists_run_of_mem_classify hb
        obtain ⟨written, hwritten⟩ :=
          exists_of_writeFrom_eq_ok hok _ (List.mem_map_of_mem (f := EditedRegion.ofRun) hrun)
        exact ((writeRegion_unavailable_of_mem_runs h hm ending hrun).1 hwritten).1 block hb
      rw [writeFrom_eq_ok (hwrite hall)] at hok
      exact ⟨fun _ => hall, (Except.ok.inj hok).symm⟩
    · rintro ⟨hall, rfl⟩
      exact writeFrom_eq_ok (hwrite (hall rfl)) 0

/-! ### The conditions are enough -/

theorem exists_classify_eq_append {run : List Block} (hrun : run ∈ runs language source) :
    ∃ before after, classify language source = before ++ run ++ after := by
  obtain ⟨front, back, hruns⟩ := List.append_of_mem hrun
  refine ⟨front.flatten, back.flatten, ?_⟩
  rw [← flatten_runs, hruns]
  simp

theorem endsLine_of_mem_classify (h : language ∈ Language.table)
    (hended : source = [] ∨ source.EndsLine) {indent marker text : Text} {spaced : Bool}
    (hmem : .inlineDoc indent marker spaced text ∈ classify language source) : text.EndsLine :=
  (Language.layout_blocksFrom language true true source).endsLine_of_mem
    (Language.orderly_of_mem_table h) hended hmem

theorem endsLine_code_of_mem_runs
    (hblock : ∀ opener text, .blockDoc opener text ∉ classify language source)
    (hended : source.Ended) {text : Text} (hrun : [.code text] ∈ runs language source) :
    text.EndsLine := by
  obtain ⟨before, after, hblocks⟩ := exists_classify_eq_append hrun
  have hchain := isChain_classify language source
  rw [hblocks, List.append_assoc] at hchain
  have hright := hchain.right_of_append
  cases after with
  | cons next after =>
    have hnext := (List.isChain_cons_cons.1 hright).1
    cases next with
    | code => exact absurd hnext (by simp [Block.Precedes])
    | inlineDoc => exact hnext
    | blockDoc opener text' =>
      exact absurd (by rw [hblocks]; simp) (hblock opener text')
  | nil =>
    have hsource : Block.sourceOf (classify language source) = source :=
      Language.sourceOf_blocksFrom language true true source
    rw [hblocks, List.append_nil, Block.sourceOf_append,
      show Block.sourceOf [.code text] = text by simp [Block.sourceOf, Block.source]] at hsource
    have hne : text ≠ [] :=
      ofLanguage_of_mem_classify (mem_classify_of_mem_runs hrun (List.mem_singleton_self _))
    rw [← hsource] at hended
    exact hended.of_append.resolve_left hne

theorem writtenRun_eq_sourceOf (h : language ∈ Language.table)
    (hround : RoundTrips (classify language source) source) {run : List Block}
    (hrun : run ∈ runs language source) (ending : LineEnding) :
    writtenRun (language.saveMarker?.getD []) ending run = Block.sourceOf run := by
  obtain ⟨before, after, hblocks⟩ := exists_classify_eq_append hrun
  have hmem : ∀ block ∈ run, block ∈ classify language source :=
    fun block hb => mem_classify_of_mem_runs hrun hb
  rcases cases_of_mem_runs h hrun with ⟨text, _, rfl⟩ | ⟨opener, text, _, _, rfl⟩ |
    ⟨indent, marker, items, hindent, hsolid, hm, hitems, rfl⟩
  · have hends := endsLine_code_of_mem_runs hround.noBlockComment hround.ended hrun
    rw [Region.writtenRun_code, writeText_nil_of_endsLine hends]
    simp [Block.sourceOf, Block.source]
  · exact absurd (hmem _ (List.mem_singleton_self _)) (hround.noBlockComment opener text)
  · have hitem : ∀ item ∈ items,
        .inlineDoc indent marker item.1 item.2 ∈ classify language source :=
      fun item hi => hmem _ (List.mem_map_of_mem hi)
    have hends := fun item hi => hround.terminated _ _ _ _ (hitem item hi)
    have hspaced := fun item hi => hround.spaced _ _ _ _ (hitem item hi)
    have hseparate : Separate (items.map Prod.snd) := by
      refine Region.separate_of_unpaired hends ?_
      rintro front back item next rfl hnext
      refine hround.unpaired (before ++ Region.inlineRun indent marker front)
        (Region.inlineRun indent marker back ++ after) indent marker marker item.1 next.1 item.2 ?_
      rw [hblocks]
      simp [Region.inlineRun, ← hnext]
    rw [Region.writtenRun_inlineRun _ _ _ _ hitems, hm, Option.getD_some]
    exact Region.writeText_flatten_eq_sourceOf hitems hseparate hspaced hends ending

/-! ### The conditions are needed -/

theorem ended_flatMap_writtenRun {runs : List (List Block)} (hne : [] ∉ runs) (marker : Text)
    (ending : LineEnding) : Ended (runs.flatMap (writtenRun marker ending)) := by
  by_cases hruns : runs = []
  · rw [hruns]
    exact Or.inl rfl
  · right
    have hends : (writtenRun marker ending (runs.getLast hruns)).EndsLine := by
      cases hrun : runs.getLast hruns with
      | nil => exact absurd (hrun ▸ List.getLast_mem hruns) hne
      | cons block blocks => exact endsLine_writeText ..
    rw [← List.dropLast_append_getLast hruns, List.flatMap_append, List.flatMap_cons,
      List.flatMap_nil, List.append_nil]
    exact (endsLine_append_of_ne_nil hends.ne_nil).2 hends

theorem ended_of_eq_flatMap_writtenRun {marker : Text} {ending : LineEnding}
    (heq : source = (runs language source).flatMap (writtenRun marker ending)) :
    source = [] ∨ source.EndsLine := by
  have hended := ended_flatMap_writtenRun (List.nil_notMem_splitBy Region.joins
    (classify language source)) marker ending
  rw [heq]
  exact hended

theorem covers_writtenRun (h : language ∈ Language.table) {marker : Text}
    (hm : language.saveMarker? = some marker) {run : List Block}
    (hrun : run ∈ runs language source) (ending : LineEnding) :
    Region.Covers (writtenRun marker ending run) (Block.sourceOf run) := by
  have hsolid : marker.Solid := by
    have hmem := List.mem_of_head? (Option.filter_eq_some_iff.1 hm).1
    exact (Language.orderly_of_mem_table h).inlineComments _ hmem
  have hspace : Unbroken [' '] := unbroken_cons.2 ⟨rfl, unbroken_nil⟩
  rcases cases_of_mem_runs h hrun with ⟨text, htext, rfl⟩ | ⟨opener, text, hopener, hfront, rfl⟩ |
    ⟨indent, marker', items, hindent, hsolid', _, hitems, rfl⟩
  · rw [Region.writtenRun_code,
      show Block.sourceOf [.code text] = text by simp [Block.sourceOf, Block.source]]
    exact Region.covers_code htext ending
  · rw [Region.writtenRun_blockDoc,
      show Block.sourceOf [.blockDoc opener text] = text by simp [Block.sourceOf, Block.source]]
    exact Region.covers_blockDoc (unbroken_append.2 ⟨hsolid.unbroken, hspace⟩) hopener hfront ending
  · rw [Region.writtenRun_inlineRun _ _ _ _ hitems]
    have hmargin : Unbroken (indent ++ marker ++ [' ']) := Region.unbroken_lead hindent hsolid true
    exact Region.covers_inlineRun hmargin hindent hsolid' hitems ending

/-- **Pairs.**  If the source comes back, no run joins two of its texts into a pair. -/
theorem separate_of_eq_flatMap_writtenRun (h : language ∈ Language.table) {marker : Text}
    (hm : language.saveMarker? = some marker) {ending : LineEnding}
    (heq : source = (runs language source).flatMap (writtenRun marker ending))
    {indent : Text} (hindent : indent.isBlank = true) (hsolid : marker.Solid)
    {items : List (Bool × Text)} (hitems : items ≠ [])
    (hrun : Region.inlineRun indent marker items ∈ runs language source) :
    Separate (items.map Prod.snd) := by
  have hpairs := (Region.pairs_flatMap_le
    fun run hr => covers_writtenRun h hm hr ending).2 (by rw [flatMap_sourceOf_runs, ← heq]) _ hrun
  obtain ⟨hle, hseparate⟩ := Region.pairs_sourceOf_inlineRun hindent hsolid items
  have hmargin : Unbroken (indent ++ marker ++ [' ']) := Region.unbroken_lead hindent hsolid true
  have hwritten := pairs_le_pairs_writeText hmargin ending (items.map Prod.snd).flatten
  rw [Region.writtenRun_inlineRun _ _ _ _ hitems] at hpairs
  exact hseparate (by omega)

/-- **Lengths.**  If the source comes back, every run is as long as what is written for it, so it is
code or spaced comments of one line each. -/
theorem run_of_eq_flatMap_writtenRun (h : language ∈ Language.table) {marker : Text}
    (hm : language.saveMarker? = some marker) {ending : LineEnding}
    (heq : source = (runs language source).flatMap (writtenRun marker ending)) {run : List Block}
    (hrun : run ∈ runs language source) :
    (∃ text, run = [.code text]) ∨ ∃ indent items, Separate (items.map Prod.snd) ∧
      (∀ item ∈ items, item.1 = true ∧ countTerminators item.2 = 1) ∧
      run = Region.inlineRun indent marker items := by
  have hended := ended_of_eq_flatMap_writtenRun heq
  have hinline : ∀ indent items, items ≠ [] → indent.isBlank = true → marker.Solid →
      Region.inlineRun indent marker items ∈ runs language source →
      Separate (items.map Prod.snd) ∧ ∀ item ∈ items, item.2.EndsLine := by
    intro indent items hitems hindent hsolid hmem
    refine ⟨separate_of_eq_flatMap_writtenRun h hm heq hindent hsolid hitems hmem, ?_⟩
    intro item hi
    exact endsLine_of_mem_classify h hended
      (mem_classify_of_mem_runs hmem (List.mem_map_of_mem hi))
  have hlength : ∀ run ∈ runs language source,
      (Block.sourceOf run).length ≤ (writtenRun marker ending run).length := by
    intro run hrun
    rcases cases_of_mem_runs h hrun with ⟨text, _, rfl⟩ | ⟨opener, text, _, _, rfl⟩ |
      ⟨indent, marker', items, hindent, hsolid, hm', hitems, rfl⟩
    · rw [Region.writtenRun_code]
      have := length_le_length_writeText [] ending text
      simpa [Block.sourceOf, Block.source] using this
    · rw [Region.writtenRun_blockDoc]
      have := length_le_length_writeText (marker ++ [' ']) ending text
      simp only [Block.sourceOf, Block.source, List.flatMap_cons, List.flatMap_nil, List.append_nil]
      omega
    · obtain rfl := Option.some.inj (hm.symm.trans hm')
      obtain ⟨hseparate, hends⟩ := hinline indent items hitems hindent hsolid hrun
      rw [Region.writtenRun_inlineRun _ _ _ _ hitems,
        length_writeText (Region.endsLine_flatten hitems hends)]
      exact (Region.length_sourceOf_inlineRun hseparate hends).1
  have hsame := (Region.length_flatMap_le hlength).2 (by rw [flatMap_sourceOf_runs, ← heq]) run hrun
  rcases cases_of_mem_runs h hrun with ⟨text, _, rfl⟩ | ⟨opener, text, _, _, rfl⟩ |
    ⟨indent, marker', items, hindent, hsolid, hm', hitems, rfl⟩
  · exact Or.inl ⟨text, rfl⟩
  · rw [Region.writtenRun_blockDoc] at hsame
    have := length_le_length_writeText (marker ++ [' ']) ending text
    simp only [Block.sourceOf, Block.source, List.flatMap_cons, List.flatMap_nil, List.append_nil,
      List.length_append, List.length_cons] at hsame this
    omega
  · obtain rfl := Option.some.inj (hm.symm.trans hm')
    obtain ⟨hseparate, hends⟩ := hinline indent items hitems hindent hsolid hrun
    rw [Region.writtenRun_inlineRun _ _ _ _ hitems,
      length_writeText (Region.endsLine_flatten hitems hends)] at hsame
    exact Or.inr ⟨indent, items, hseparate,
      (Region.length_sourceOf_inlineRun hseparate hends).2 hsame, rfl⟩

/-- **The converse**, for a language with a marker. -/
theorem roundTrips_of_eq_flatMap_writtenRun (h : language ∈ Language.table) {marker : Text}
    (hm : language.saveMarker? = some marker) {ending : LineEnding}
    (heq : source = (runs language source).flatMap (writtenRun marker ending)) :
    RoundTrips (classify language source) source := by
  have hended := ended_of_eq_flatMap_writtenRun heq
  have hinline : ∀ indent marker' spaced text,
      .inlineDoc indent marker' spaced text ∈ classify language source →
      spaced = true ∧ countTerminators text = 1 := by
    intro indent marker' spaced text hmem
    obtain ⟨run, hrun, hb⟩ := exists_run_of_mem_classify hmem
    rcases run_of_eq_flatMap_writtenRun h hm heq hrun with ⟨code, rfl⟩ |
      ⟨indent', items, _, hitems, rfl⟩
    · simp at hb
    · obtain ⟨item, hi, hitem⟩ := List.mem_map.1 hb
      obtain ⟨_, _, rfl, rfl⟩ := Block.inlineDoc.inj hitem
      exact hitems item hi
  refine ⟨?_, ?_, ?_, hended, ?_⟩
  · intro opener text hmem
    obtain ⟨run, hrun, hb⟩ := exists_run_of_mem_classify hmem
    rcases run_of_eq_flatMap_writtenRun h hm heq hrun with ⟨code, rfl⟩ | ⟨indent, items, _, _, rfl⟩
    · simp at hb
    · simp [Region.inlineRun] at hb
  · exact fun indent marker' spaced text hmem => (hinline _ _ _ _ hmem).1
  · exact fun indent marker' spaced text hmem =>
      ⟨(hinline _ _ _ _ hmem).2, endsLine_of_mem_classify h hended hmem⟩
  · intro before after indent marker₁ marker₂ spaced spaced' text hblocks hlast
    have hmarker : ∀ marker' spaced text,
        .inlineDoc indent marker' spaced text ∈ classify language source → marker' = marker := by
      intro marker' spaced text hmem
      have := Language.eq_saveMarker_of_mem_table h (ofLanguage_of_mem_classify hmem).2.1
      exact Option.some.inj (this.symm.trans hm)
    obtain rfl := hmarker marker₁ spaced text (by rw [hblocks]; simp)
    obtain rfl := hmarker marker₂ spaced' ['\n'] (by rw [hblocks]; simp)
    have hflat := (flatten_runs language source).trans hblocks
    obtain ⟨run, hrun, front, back, hback⟩ := Region.exists_run_of_joins
      (List.nil_notMem_splitBy _ _) (List.isChain_getLast_head_splitBy _ _) hflat
      (by simp [Region.joins])
    rcases run_of_eq_flatMap_writtenRun h hm heq hrun with ⟨code, rfl⟩ |
      ⟨indent', items, hseparate, _, rfl⟩
    · cases front <;> simp at hback
    · exact Region.not_separate_of_inlineRun_eq hback hlast hseparate

theorem save_of_whole (hwhole : language.docOnly = true ∨ mode = .raw) (source : Text) :
    (ofSource language source mode).save (ofSource language source mode).editedRegions =
      .ok (if source.isEmpty then [] else writeText [] (LineEnding.detect source) source) := by
  have hwrite : ∀ role style, (role = .code ∨ role = .document ∧ style = .verbatim) →
      writeRegion ⟨style, LineEnding.detect source⟩
        (EditedRegion.ofRegion (Region.showing role 1 source)) =
        .ok (writeText [] (LineEnding.detect source) source) := by
    rintro role style (rfl | ⟨rfl, rfl⟩)
    · simp only [writeRegion, EditedRegion.ofRegion, Region.showing, Region.Role.kind,
        RegionKind.ofName?_name, terminator_map_text]
      rfl
    · simp only [writeRegion, EditedRegion.ofRegion, Region.showing, Region.Role.kind,
        RegionKind.ofName?_name, terminator_map_text]
      rfl
  have hregions : ∀ role style, (role = .code ∨ role = .document ∧ style = .verbatim) →
      write ⟨style, LineEnding.detect source⟩
        ((Region.whole role source).map EditedRegion.ofRegion) =
        .ok (if source.isEmpty then [] else writeText [] (LineEnding.detect source) source) := by
    intro role style hrole
    rw [Region.whole]
    split
    · rfl
    · rw [List.map_cons, List.map_nil, write, writeFrom, hwrite role style hrole]
      simp [writeFrom, Except.map]
  by_cases hdoc : language.docOnly = true
  · have hdocument := hregions .document .verbatim (Or.inr ⟨rfl, rfl⟩)
    simpa only [save, writer, editedRegions, ofSource, hdoc, if_true] using hdocument
  · have hraw : mode = .raw := hwhole.resolve_left hdoc
    have hcode := hregions .code (.ofMarker (language.saveMarker?.getD [])) (Or.inl rfl)
    simpa only [save, writer, editedRegions, ofSource, hdoc, hraw, if_true, Bool.false_eq_true,
      if_false] using hcode

/-- **Which sources come back unchanged.**  Saving a document that was not edited gives its source
exactly if there are no block comments, every inline comment that is documentation has a space after
its marker and is one line with its terminator, the source ends with a terminator, and no region
leaves a carriage return before a line feed.  A document shown in one piece comes back with a
terminator at its end, and is otherwise unchanged. -/
theorem save_editedRegions_eq_ok_iff (h : language ∈ Language.table) (source : Text)
    (mode : EditorMode) :
    (language.docOnly = false → mode ≠ .raw →
      ((ofSource language source mode).save (ofSource language source mode).editedRegions =
          .ok source ↔ RoundTrips (classify language source) source)) ∧
      (language.docOnly = true ∨ mode = .raw →
        ((ofSource language source mode).save (ofSource language source mode).editedRegions =
            .ok source ↔ source = [] ∨ source.EndsLine) ∧
          (¬ (source = [] ∨ source.EndsLine) →
            (ofSource language source mode).save (ofSource language source mode).editedRegions =
              .ok (source ++ (LineEnding.detect source).text))) := by
  refine ⟨fun hdoc hmode => ?_, fun hwhole => ?_⟩
  · rw [save_eq_ok_iff h hdoc hmode]
    constructor
    · rintro ⟨hcode, heq⟩
      cases hm : language.saveMarker? with
      | some marker =>
        rw [hm] at heq
        exact roundTrips_of_eq_flatMap_writtenRun h hm heq
      | none =>
        have hall := hcode hm
        refine ⟨fun opener text hmem => ?_, fun _ _ _ _ hmem => ?_, fun _ _ _ _ hmem => ?_,
          ended_of_eq_flatMap_writtenRun heq, ?_⟩
        · exact absurd (hall _ hmem) (by simp [Block.isCode])
        · exact absurd (hall _ hmem) (by simp [Block.isCode])
        · exact absurd (hall _ hmem) (by simp [Block.isCode])
        · intro before after indent marker marker' spaced spaced' text hblocks
          have hmem : .inlineDoc indent marker spaced text ∈ classify language source := by
            rw [hblocks]
            simp
          exact absurd (hall _ hmem) (by simp [Block.isCode])
    · intro hround
      refine ⟨fun hm block hmem => ?_, ?_⟩
      · cases block with
        | code => rfl
        | inlineDoc indent marker spaced text =>
          have := Language.eq_saveMarker_of_mem_table h (ofLanguage_of_mem_classify hmem).2.1
          rw [hm] at this
          simp at this
        | blockDoc opener text => exact absurd hmem (hround.noBlockComment opener text)
      · rw [List.flatMap_congr fun run hrun => writtenRun_eq_sourceOf h hround hrun _,
          flatMap_sourceOf_runs]
  · have hne : ∀ source : Text, source.EndsLine → source.isEmpty = false := by
      intro source hends
      simpa using hends.ne_nil
    rw [save_of_whole hwhole]
    by_cases hended : source = [] ∨ source.EndsLine
    · refine ⟨iff_of_true ?_ hended, fun hnot => absurd hended hnot⟩
      rcases hended with rfl | hends
      · rfl
      · rw [hne source hends, if_neg (by simp), writeText_nil_of_endsLine hends]
    · have hnil : source.isEmpty = false := by
        simpa using fun hnil : source = [] => hended (Or.inl hnil)
      have hends : ¬ source.EndsLine := fun hends => hended (Or.inr hends)
      rw [hnil, if_neg (by simp), writeText_nil_of_not_endsLine hends]
      refine ⟨iff_of_false ?_ hended, fun _ => rfl⟩
      intro hok
      exact ending_ne_nil _ (List.append_right_eq_self.1 (Except.ok.inj hok))

/-- An instance: a comment and its code, and a line without terminator in one piece. -/
theorem save_editedRegions_eq_ok_iff_python :
    ((ofSource .python "x\n# a\n" .edit).save (ofSource .python "x\n# a\n" .edit).editedRegions =
        .ok "x\n# a\n" ↔ RoundTrips (classify .python "x\n# a\n") "x\n# a\n") ∧
      (ofSource .python "x" .raw).save (ofSource .python "x" .raw).editedRegions = .ok "x\n" := by
  have hmem : Language.python ∈ Language.table := by decide
  refine ⟨(save_editedRegions_eq_ok_iff hmem "x\n# a\n" .edit).1 rfl (by decide), ?_⟩
  refine ((save_editedRegions_eq_ok_iff hmem "x" .raw).2 (Or.inr rfl)).2 ?_
  rintro (hnil | ⟨c, hc, hbreak⟩)
  · exact absurd hnil (by decide)
  · obtain rfl : 'x' = c := by simpa using hc
    exact absurd hbreak (by decide)

end Document

end Literate
