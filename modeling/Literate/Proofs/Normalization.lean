import Literate.Proofs.DocEdits
import Literate.Proofs.LastLines

/-!
# Saving twice

A document is loaded, saved, loaded again and saved again, and nobody edits it.  The first saving
may change it: markers get their space, comments that share a region are joined line by line, and
the last line gets a terminator.  The second saving changes nothing, if the language has inline
comments only and every comment is one line (`save_save`).

What is read back from a saved text is *tidy*: each comment has its space and one terminator, and no
two neighbours leave a carriage return before a line feed (`settles_blocksFrom`, run by run).  So
the saved text is one of those that come back unchanged (`roundTrips_of_tidy`).
-/

namespace Literate

namespace Text

/-! ### The lines of a text -/

theorem flatten_lines (text : Text) (ending : LineEnding) :
    (text.lines.map fun line => line.text ++ (line.terminator.getD ending).text).flatten =
      text ++ ending.text := by
  rw [← RegionWriter.writeLines_nil, RegionWriter.writeLines, List.flatMap_def]
  congr 1
  refine List.map_congr_left fun line _ => ?_
  cases line.terminator <;> rfl

theorem isChain_lines {ending : LineEnding} (text : Text) (hcut : ¬ CutsPair text ending.text) :
    (text.lines.map fun line => line.text ++ (line.terminator.getD ending).text).IsChain
      fun a b => a.getLast? = some '\r' → b ≠ ['\n'] := by
  induction text using line_induction with
  | last text htext =>
    rw [lines_of_unbroken htext]
    exact List.isChain_singleton _
  | line first ending' rest hfirst hrest ih =>
    rw [lines_append hfirst hrest, List.map_cons, List.isChain_cons]
    refine ⟨?_, ih fun hc => hcut (hc.append_left _)⟩
    rintro next hnext hr rfl
    obtain ⟨more, hmore⟩ := List.head?_eq_some_iff.1 hnext
    have hflatten := flatten_lines rest ending
    rw [hmore, List.flatten_cons, List.singleton_append] at hflatten
    by_cases hnil : rest = []
    · subst hnil
      rw [List.append_nil] at hcut
      exact hcut ⟨hr, by rw [← List.nil_append ending.text, ← hflatten]; rfl⟩
    · rw [Option.getD_some, List.getLast?_append_of_ne_nil _ (ending_ne_nil ending')] at hr
      refine hrest ⟨hr, ?_⟩
      rw [← List.head?_append_of_ne_nil rest hnil, ← hflatten]
      rfl

end Text

/-! ### Tidy blocks -/

/-- A comment has its space and one terminator. -/
def Block.Written : Block → Prop
  | inlineDoc _ _ spaced text => spaced = true ∧ text.countTerminators = 1
  | _ => True

/-- The second block has no line feed that belongs to a carriage return of the first, if the two are
shown in one region. -/
def Block.Apart (a b : Block) : Prop :=
  Region.Role.ofBlock a = Region.Role.ofBlock b → a.text.getLast? = some '\r' → b.text ≠ ['\n']

structure Tidy (blocks : List Block) : Prop where
  written : ∀ block ∈ blocks, block.Written
  apart : blocks.IsChain Block.Apart

namespace Tidy

open Text

theorem code (text : Text) : Tidy [.code text] where
  written := by
    intro block hmem
    rw [List.mem_singleton.1 hmem]
    trivial
  apart := List.isChain_singleton _

theorem append {a b : List Block} (ha : Tidy a) (hb : Tidy b)
    (hborder : ∀ x ∈ a.getLast?, ∀ y ∈ b.head?,
      Region.Role.ofBlock x ≠ Region.Role.ofBlock y) : Tidy (a ++ b) where
  written := fun block hmem => (List.mem_append.1 hmem).elim (ha.written block) (hb.written block)
  apart := List.isChain_append.2 ⟨ha.apart, hb.apart, fun x hx y hy hrole =>
    absurd hrole (hborder x hx y hy)⟩

/-- **The lines of a comment region are tidy.** -/
theorem lines (indent marker : Text) {content : Text} {ending : LineEnding}
    (hcut : ¬ CutsPair content ending.text) :
    Tidy (content.lines.map fun line => .inlineDoc indent marker true
      (line.text ++ (line.terminator.getD ending).text)) where
  written := by
    intro block hmem
    obtain ⟨line, hline, rfl⟩ := List.mem_map.1 hmem
    have hunbroken := unbroken_of_mem_lines hline
    have hcount := countTerminators_append line.text (line.terminator.getD ending).text
    rw [if_neg (Region.not_cutsPair_of_unbroken hunbroken _),
      countTerminators_of_unbroken hunbroken, countTerminators_ending] at hcount
    exact ⟨rfl, hcount⟩
  apart := by
    have hchain := isChain_lines content hcut
    rw [List.isChain_map] at hchain ⊢
    exact hchain.imp fun a b hab _ => hab

end Tidy

namespace Document

open Text RegionWriter

variable {language : Language} {marker indent : Text} {ending : LineEnding} {lineStart : Bool}

theorem not_cutsPair_stripTerminator (text : Text) (ending : LineEnding) :
    ¬ CutsPair text.stripTerminator.1 (text.stripTerminator.2.getD ending).text := by
  by_cases hends : text.EndsLine
  · obtain ⟨content, ending', rfl, hcut⟩ := exists_ending hends
    rwa [stripTerminator_append hcut]
  · rw [stripTerminator_of_not_endsLine hends]
    exact fun hcut => hends ⟨'\r', hcut.1, rfl⟩

/-- **A run of comments is read back as the lines of its text.** -/
theorem exists_blocksFrom_writtenRun (h : language ∈ Language.table)
    (hm : marker ∈ language.inlineComments) (hindent : indent.isBlank = true) (lineStart : Bool)
    (ending : LineEnding) {items : List (Bool × Text)} (hitems : items ≠ []) {rest : Text}
    (hescapes : ¬ Escapes (stripTerminator (items.map Prod.snd).flatten).1)
    (hlast : rest = [] ∨ (stripTerminator (items.map Prod.snd).flatten).1.getLast? ≠ some '\\')
    (hcut : ¬ CutsPair ((stripTerminator (items.map Prod.snd).flatten).2.getD ending).text rest) :
    ∃ blocks, Tidy blocks ∧ blocks ≠ [] ∧
      (∀ block ∈ blocks, Region.Role.ofBlock block = .comment indent false) ∧
      language.blocksFrom lineStart true
          (writtenRun marker ending (Region.inlineRun indent marker items) ++ rest) =
        blocks ++ language.blocksFrom (lineStartAfter lineStart
          ((stripTerminator (items.map Prod.snd).flatten).2.getD ending).text) true rest := by
  rw [Region.writtenRun_inlineRun _ _ _ _ hitems]
  generalize (items.map Prod.snd).flatten = text at hescapes hlast hcut ⊢
  refine ⟨_, Tidy.lines indent marker (not_cutsPair_stripTerminator text ending), ?_, ?_,
    Language.blocksFrom_writeLines h hm hindent hcut _ lineStart ?_⟩
  · intro hnil
    have hlength := length_lines (stripTerminator text).1
    rw [List.map_eq_nil_iff.1 hnil, List.length_nil] at hlength
    omega
  · intro block hmem
    obtain ⟨line, _, rfl⟩ := List.mem_map.1 hmem
    rfl
  · intro line hl
    by_contra hnot
    rw [not_or, not_not] at hnot
    rcases escapes_of_mem_lines hl hnot.2 with ⟨hnone, hback⟩ | hescapes'
    · exact hlast.elim (fun hnil => hnot.1 ⟨hnil, hnone⟩) fun hne => hne hback
    · exact hescapes hescapes'

/-- The lists are runs of blocks, each as long as it can be. -/
structure IsCut (runs : List (List Block)) : Prop where
  ne_nil : [] ∉ runs
  joined : ∀ run ∈ runs, run.IsChain fun a b => Region.joins a b = true
  separate : runs.IsChain fun x y => ∃ hx hy, Region.joins (x.getLast hx) (y.head hy) = false

theorem isCut_runs (language : Language) (source : Text) : IsCut (runs language source) where
  ne_nil := List.nil_notMem_splitBy _ _
  joined _ hrun := List.isChain_of_mem_splitBy hrun
  separate := List.isChain_getLast_head_splitBy _ _

theorem IsCut.tail {run : List Block} {runs : List (List Block)} (h : IsCut (run :: runs)) :
    IsCut runs where
  ne_nil hmem := h.ne_nil (List.mem_cons_of_mem _ hmem)
  joined other hother := h.joined other (List.mem_cons_of_mem _ hother)
  separate := List.IsChain.tail h.separate

theorem IsCut.eq_nil {runs : List (List Block)} (h : IsCut runs) (hnil : runs.flatten = []) :
    runs = [] := by
  cases runs with
  | nil => rfl
  | cons run runs =>
    rw [List.flatten_cons, List.append_eq_nil_iff] at hnil
    exact absurd (hnil.1 ▸ List.mem_cons_self ..) h.ne_nil

theorem IsCut.cases (h : language ∈ Language.table) (hblock : language.blockComments = [])
    (hm : marker ∈ language.inlineComments) {run : List Block} {runs : List (List Block)}
    (hcut : IsCut (run :: runs)) (hof : ∀ block ∈ run, block.OfLanguage language) :
    (∃ code : Text, code ≠ [] ∧ run = [.code code]) ∨ ∃ indent items, indent.isBlank = true ∧
      items ≠ [] ∧ run = Region.inlineRun indent marker items := by
  have hne : run ≠ [] := by
    rintro rfl
    exact hcut.ne_nil (List.mem_cons_self ..)
  rcases Region.run_cases hne (hcut.joined run (List.mem_cons_self ..)) with ⟨code, rfl⟩ |
    ⟨opener, text, rfl⟩ | ⟨indent, marker', items, hitems, rfl⟩
  · exact Or.inl ⟨code, hof _ (List.mem_singleton_self _), rfl⟩
  · obtain ⟨⟨closer, hmem⟩, _⟩ := hof _ (List.mem_singleton_self _)
    rw [hblock] at hmem
    simp at hmem
  · obtain ⟨item, hitem⟩ := List.exists_mem_of_ne_nil items hitems
    obtain ⟨hindent, hmem, _⟩ := hof _ (List.mem_map_of_mem hitem)
    obtain ⟨_, honly, _⟩ := Language.marker_of_mem_table h hm
    rw [honly, List.mem_singleton] at hmem
    subst hmem
    exact Or.inr ⟨indent, items, hindent, hitems, rfl⟩

/-- What is read back is tidy, and starts with the same kind of block. -/
structure Settles (blocks blocks' : List Block) : Prop where
  tidy : Tidy blocks'
  head : blocks'.head?.map Region.Role.ofBlock = blocks.head?.map Region.Role.ofBlock

theorem settles_code_last (h : language.Orderly) (hblock : language.blockComments = [])
    {text code : Text} (hblocks : language.blocksFrom lineStart true text = [.code code])
    (ending : LineEnding) :
    Settles [.code code] (language.blocksFrom lineStart true (writeText [] ending code)) := by
  obtain rfl : code = text := by
    have hsource := Language.sourceOf_blocksFrom language lineStart true text
    rw [hblocks] at hsource
    simpa [Block.sourceOf, Block.source] using hsource
  by_cases hends : code.EndsLine
  · rw [writeText_nil_of_endsLine hends, hblocks]
    exact ⟨Tidy.code code, rfl⟩
  · rw [writeText_nil_of_not_endsLine hends, Language.blocksFrom_append_ending h hblock
      (fun hcut => hends ⟨'\r', hcut.1, rfl⟩) hblocks]
    exact ⟨Tidy.code _, rfl⟩

/-- Code before comments stays what it is, or it takes in the only comment behind it. -/
theorem settles_code_cons (h : language ∈ Language.table) (hblock : language.blockComments = [])
    {text code shown r' : Text} {spaced : Bool} {blocks : List Block}
    (hblocks : language.blocksFrom lineStart true text =
      .code code :: .inlineDoc indent marker spaced shown :: blocks)
    (hline : shown.stripTerminator.1.Unbroken) (ending : LineEnding)
    (hr' : blocks = [] →
      indent ++ (marker ++ r') = writeText (indent ++ marker ++ [' ']) ending shown)
    (ih : ∀ rest, language.blocksFrom (code.lineStartAfter lineStart) true rest =
      .inlineDoc indent marker spaced shown :: blocks →
      Settles (.inlineDoc indent marker spaced shown :: blocks) (language.blocksFrom
        (code.lineStartAfter lineStart) true (indent ++ (marker ++ r')))) :
    Settles (.code code :: .inlineDoc indent marker spaced shown :: blocks)
      (language.blocksFrom lineStart true (code ++ (indent ++ (marker ++ r')))) := by
  have hlayout := Language.layout_blocksFrom language lineStart true text
  rw [hblocks] at hlayout
  have hm : marker ∈ language.inlineComments :=
    (hlayout.ofLanguage (.inlineDoc indent marker spaced shown) (by simp)).2.1
  have hne : code ≠ [] := hlayout.ofLanguage (.code code) (by simp)
  obtain ⟨r, rfl, hrest⟩ := Language.exists_of_code_cons h hblocks
  obtain ⟨htidy, hhead⟩ := ih _ hrest
  -- A string that never closed may close in the comment, now that it has its space and terminator.
  -- Then the comment is the last block, and all is one block of code.
  rcases Language.blocksFrom_rewritten h hblock hm hblocks hline hr' with hborder | hswallowed
  · rw [hborder]
    generalize language.blocksFrom (code.lineStartAfter lineStart) true
      (indent ++ (marker ++ r')) = blocks' at htidy hhead
    obtain ⟨block, blocks', rfl⟩ : ∃ block rest, blocks' = block :: rest := by
      refine List.exists_cons_of_ne_nil ?_
      rintro rfl
      simp at hhead
    have hrole : Region.Role.ofBlock block = .comment indent false := Option.some.inj hhead
    have hcode : block.isCode = false := by
      cases block with
      | code => simp [Region.Role.ofBlock] at hrole
      | inlineDoc => rfl
      | blockDoc => rfl
    rw [Block.prepend_of_isCode_eq_false hcode, Block.codeOf_of_ne_nil hne]
    refine ⟨(Tidy.code code).append htidy ?_, rfl⟩
    rintro _ ⟨rfl⟩ _ ⟨rfl⟩
    rw [hrole]
    simp [Region.Role.ofBlock]
  · rw [hswallowed]
    exact ⟨Tidy.code _, rfl⟩

theorem head?_map_of_forall {role : Region.Role} {blocks : List Block} (hne : blocks ≠ [])
    (h : ∀ block ∈ blocks, Region.Role.ofBlock block = role) (rest : List Block) :
    (blocks ++ rest).head?.map Region.Role.ofBlock = some role := by
  cases blocks with
  | nil => exact absurd rfl hne
  | cons block blocks => exact congrArg some (h block (List.mem_cons_self ..))

theorem head?_map_inlineRun (indent marker : Text) {items : List (Bool × Text)}
    (hitems : items ≠ []) (rest : List Block) :
    (Region.inlineRun indent marker items ++ rest).head?.map Region.Role.ofBlock =
      some (.comment indent false) := by
  refine head?_map_of_forall (by simpa [Region.inlineRun] using hitems) ?_ rest
  intro block hmem
  obtain ⟨item, _, rfl⟩ := List.mem_map.1 hmem
  rfl

/-- The last run of comments.  Its last line may lack a terminator, or escape it. -/
theorem settles_inlineRun_last (h : language ∈ Language.table)
    (hm : marker ∈ language.inlineComments) (hindent : indent.isBlank = true) {text : Text}
    {items : List (Bool × Text)} (hitems : items ≠ [])
    (hblocks : language.blocksFrom lineStart true text = Region.inlineRun indent marker items)
    (hline : ∀ item ∈ items, item.2.stripTerminator.1.Unbroken) (ending : LineEnding) :
    Settles (Region.inlineRun indent marker items) (language.blocksFrom lineStart true
      (writtenRun marker ending (Region.inlineRun indent marker items))) := by
  have hescapes : ¬ Escapes (stripTerminator (items.map Prod.snd).flatten).1 := by
    have hsplit := List.dropLast_append_getLast hitems
    rw [← hsplit, List.map_append, List.flatten_append, List.map_singleton, List.flatten_singleton]
    refine not_escapes_stripTerminator_flatten ?_ (hline _ (List.getLast_mem hitems))
    intro shown hshown
    obtain ⟨item, hitem, rfl⟩ := List.mem_map.1 hshown
    have hmem : .inlineDoc indent marker item.1 item.2 ∈
        (language.blocksFrom lineStart true text).dropLast := by
      rw [hblocks, Region.inlineRun, ← List.map_dropLast]
      exact List.mem_map_of_mem hitem
    exact Language.terminated_of_mem_dropLast hmem (hline item (List.mem_of_mem_dropLast hitem))
  obtain ⟨blocks, htidy, hne, hrole, hread⟩ := exists_blocksFrom_writtenRun h hm hindent lineStart
    ending hitems hescapes (Or.inl rfl) (by simp [CutsPair])
  have hnil : ∀ start, language.blocksFrom start true [] = [] := fun _ => rfl
  rw [List.append_nil, hnil, List.append_nil] at hread
  rw [hread]
  refine ⟨htidy, ?_⟩
  have hhead := head?_map_of_forall hne hrole []
  rwa [← head?_map_inlineRun indent marker hitems [], List.append_nil, List.append_nil] at hhead

theorem settles_inlineRun (h : language ∈ Language.table)
    (hm : marker ∈ language.inlineComments) (hindent : indent.isBlank = true) {text written : Text}
    {items : List (Bool × Text)} (hitems : items ≠ []) {blocks : List Block} (hne : blocks ≠ [])
    (hblocks : language.blocksFrom lineStart true text =
      Region.inlineRun indent marker items ++ blocks)
    (hline : ∀ item ∈ items, item.2.stripTerminator.1.Unbroken)
    (hhead : written.head? = some '\n' →
      ∃ code more, blocks = .code code :: more ∧ code.head? = some '\n')
    (hrole : blocks.head?.map Region.Role.ofBlock ≠ some (.comment indent false))
    (ih : ∀ start rest, language.blocksFrom start true rest = blocks →
      Settles blocks (language.blocksFrom start true written)) (ending : LineEnding) :
    Settles (Region.inlineRun indent marker items ++ blocks) (language.blocksFrom lineStart true
      (writtenRun marker ending (Region.inlineRun indent marker items) ++ written)) := by
  have hitem : ∀ item ∈ items, item.2.EndsLine ∧ ¬ item.2.Escapes := by
    intro item hi
    have hmem : .inlineDoc indent marker item.1 item.2 ∈
        (language.blocksFrom lineStart true text).dropLast := by
      rw [hblocks, List.dropLast_append_of_ne_nil hne]
      exact List.mem_append_left _ (List.mem_map_of_mem hi)
    exact Language.terminated_of_mem_dropLast hmem (hline item hi)
  have hends := fun item hi => (hitem item hi).1
  have hescapes : ¬ Escapes (items.map Prod.snd).flatten := by
    have hall : ∀ shown ∈ items.map Prod.snd, shown.EndsLine ∧ ¬ shown.Escapes := by
      intro shown hshown
      obtain ⟨item, hi, rfl⟩ := List.mem_map.1 hshown
      exact hitem item hi
    have hnil : ¬ Escapes [] := unbroken_nil.not_escapes
    simpa using not_escapes_flatten_append hall hnil
  obtain ⟨hcontent, hlast⟩ := not_escapes_stripTerminator hescapes
  have hflatten := Region.endsLine_flatten hitems hends
  obtain ⟨ending', hending⟩ := Option.isSome_iff_exists.1 (isSome_stripTerminator.2 hflatten)
  -- Only code is written with a line feed at its front, and that line feed is in the source too.
  have hcut : ¬ CutsPair ending'.text written := by
    rintro ⟨hr, hn⟩
    obtain ⟨code, more, rfl, hcode⟩ := hhead hn
    exact not_cutsPair_ending hblocks hitems hends hending ⟨hr, hcode⟩
  obtain ⟨lines, htidy, hlines, hlinesRole, hread⟩ := exists_blocksFrom_writtenRun h hm hindent
    lineStart ending hitems hcontent (Or.inr (hlast hflatten)) (by rw [hending]; exact hcut)
  obtain ⟨rest, _, hrest, _⟩ := exists_rest_of_inlineRun items lineStart text hblocks hends
  rw [lineStartAfter_inlineRun indent marker hitems hends hending] at hrest
  obtain ⟨htidy', hhead'⟩ := ih _ rest hrest
  rw [hread, hending, Option.getD_some]
  refine ⟨htidy.append htidy' ?_, ?_⟩
  · intro x hx y hy hsame
    refine hrole ?_
    rw [← hhead', Option.mem_def.1 hy, Option.map_some, ← hsame,
      hlinesRole x (List.mem_of_getLast? hx)]
  · rw [head?_map_of_forall hlines hlinesRole, head?_map_inlineRun indent marker hitems]

theorem exists_writtenRun_code (marker : Text) (ending : LineEnding) (code : Text) :
    ∃ rest, writtenRun marker ending [.code code] = code ++ rest := by
  rw [Region.writtenRun_code]
  by_cases hends : code.EndsLine
  · exact ⟨[], by rw [writeText_nil_of_endsLine hends, List.append_nil]⟩
  · exact ⟨_, writeText_nil_of_not_endsLine hends ending⟩

theorem exists_writtenRun_inlineRun (marker : Text) (ending : LineEnding) (indent marker' : Text)
    {items : List (Bool × Text)} (hitems : items ≠ []) :
    ∃ rest, writtenRun marker ending (Region.inlineRun indent marker' items) =
      indent ++ (marker ++ ' ' :: rest) := by
  rw [Region.writtenRun_inlineRun _ _ _ _ hitems, writeText]
  obtain ⟨rest, hrest⟩ := exists_writeLines_eq_append (indent ++ marker ++ [' '])
    (stripTerminator (items.map Prod.snd).flatten).1
    ((stripTerminator (items.map Prod.snd).flatten).2.getD ending).text
  exact ⟨rest, by rw [hrest]; simp⟩

theorem endsLine_of_code_cons {text code : Text} {items : List (Bool × Text)} (hitems : items ≠ [])
    {blocks : List Block} (hblocks : language.blocksFrom lineStart true text =
      .code code :: (Region.inlineRun indent marker items ++ blocks)) : code.EndsLine := by
  obtain ⟨item, items, rfl⟩ := List.exists_cons_of_ne_nil hitems
  have hchain := (Language.layout_blocksFrom language lineStart true text).isChain
  rw [hblocks] at hchain
  exact (List.isChain_cons_cons.1 hchain).1

theorem settles_code (h : language ∈ Language.table) (hblock : language.blockComments = [])
    {text code : Text} {items : List (Bool × Text)} (hitems : items ≠ [])
    {runs : List (List Block)} (hcut : IsCut (Region.inlineRun indent marker items :: runs))
    (hblocks : language.blocksFrom lineStart true text =
      .code code :: (Region.inlineRun indent marker items :: runs).flatten)
    (hline : ∀ item ∈ items, item.2.stripTerminator.1.Unbroken)
    (ih : ∀ start rest, language.blocksFrom start true rest =
      (Region.inlineRun indent marker items :: runs).flatten →
      Settles (Region.inlineRun indent marker items :: runs).flatten (language.blocksFrom start true
        ((Region.inlineRun indent marker items :: runs).flatMap (writtenRun marker ending)))) :
    Settles (.code code :: (Region.inlineRun indent marker items :: runs).flatten)
      (language.blocksFrom lineStart true (code ++
        (Region.inlineRun indent marker items :: runs).flatMap (writtenRun marker ending))) := by
  obtain ⟨item, items, rfl⟩ := List.exists_cons_of_ne_nil hitems
  obtain ⟨tail, htail⟩ := exists_writtenRun_inlineRun marker ending indent marker hitems
  have hwritten : (Region.inlineRun indent marker (item :: items) :: runs).flatMap
      (writtenRun marker ending) =
        indent ++ (marker ++ (' ' :: tail ++ runs.flatMap (writtenRun marker ending))) := by
    rw [List.flatMap_cons, htail]
    simp
  rw [hwritten]
  refine settles_code_cons h hblock hblocks (hline item (List.mem_cons_self ..)) ending ?_ ?_
  · -- nothing stands behind the comment, so it is written for itself
    intro hnil
    obtain ⟨hitems', hruns⟩ := List.append_eq_nil_iff.1 hnil
    obtain rfl := List.map_eq_nil_iff.1 hitems'
    obtain rfl := hcut.tail.eq_nil hruns
    rw [← hwritten, List.flatMap_cons, List.flatMap_nil, List.append_nil,
      Region.writtenRun_inlineRun _ _ _ _ hitems]
    simp
  · intro rest hrest
    rw [← hwritten]
    exact ih _ rest hrest

theorem IsCut.head?_ne (h : language ∈ Language.table) (hblock : language.blockComments = [])
    (hm : marker ∈ language.inlineComments) {runs : List (List Block)} (hcut : IsCut runs)
    (hof : ∀ block ∈ runs.flatten, block.OfLanguage language) {ending : LineEnding}
    (hhead : (runs.flatMap (writtenRun marker ending)).head? = some '\n') :
    ∃ code blocks, runs.flatten = .code code :: blocks ∧ code.head? = some '\n' := by
  cases runs with
  | nil => simp at hhead
  | cons run runs =>
    have hcases := hcut.cases h hblock hm fun block hb => hof block (List.mem_append_left _ hb)
    rw [List.flatMap_cons] at hhead
    rcases hcases with ⟨code, hne, rfl⟩ | ⟨indent, items, hindent, hitems, rfl⟩
    · obtain ⟨rest, hrest⟩ := exists_writtenRun_code marker ending code
      rw [hrest, List.append_assoc, List.head?_append_of_ne_nil _ hne] at hhead
      exact ⟨code, runs.flatten, rfl, hhead⟩
    · obtain ⟨rest, hrest⟩ := exists_writtenRun_inlineRun marker ending indent marker hitems
      have hsolid := (Language.orderly_of_mem_table h).inlineComments marker hm
      have hmargin : (indent ++ marker).Unbroken :=
        unbroken_append.2 ⟨unbroken_of_isBlank hindent, hsolid.unbroken⟩
      rw [hrest, ← List.append_assoc, List.append_assoc, List.head?_append_of_ne_nil _
        (by simp [hsolid.1])] at hhead
      simpa [isLineBreak] using hmargin _ (List.mem_of_head? hhead)

theorem IsCut.role_ne (h : language ∈ Language.table) (hblock : language.blockComments = [])
    (hm : marker ∈ language.inlineComments) {items : List (Bool × Text)}
    {runs : List (List Block)} (hcut : IsCut (Region.inlineRun indent marker items :: runs))
    (hof : ∀ block ∈ runs.flatten, block.OfLanguage language) :
    runs.flatten.head?.map Region.Role.ofBlock ≠ some (.comment indent false) := by
  cases runs with
  | nil => simp
  | cons next runs =>
    have hcases := hcut.tail.cases h hblock hm fun block hb =>
      hof block (List.mem_append_left _ hb)
    rw [List.flatten_cons]
    rcases hcases with ⟨code, hne, rfl⟩ | ⟨indent', items', hindent, hitems', rfl⟩
    · simp [Region.Role.ofBlock]
    · rw [head?_map_inlineRun indent' marker hitems']
      rintro hsame
      obtain ⟨rfl, _⟩ := Region.Role.comment.inj (Option.some.inj hsame)
      obtain ⟨_, _, hjoins⟩ := (List.isChain_cons_cons.1 hcut.separate).1
      simp [Region.inlineRun, Region.joins] at hjoins

/-- **What is written for runs of blocks is read back tidy.** -/
theorem settles_blocksFrom (h : language ∈ Language.table) (hblock : language.blockComments = [])
    (hm : marker ∈ language.inlineComments) (ending : LineEnding) (runs : List (List Block)) :
    ∀ (lineStart : Bool) (text : Text), IsCut runs →
      language.blocksFrom lineStart true text = runs.flatten →
      (∀ indent marker spaced shown, .inlineDoc indent marker spaced shown ∈ runs.flatten →
        shown.stripTerminator.1.Unbroken) →
      Settles runs.flatten
        (language.blocksFrom lineStart true (runs.flatMap (writtenRun marker ending))) := by
  have horderly := Language.orderly_of_mem_table h
  -- The text and its start vary: a run is followed by what some text behind it was read as.
  induction runs with
  | nil =>
    intro lineStart text _ _ _
    exact ⟨⟨List.forall_mem_nil _, List.isChain_nil⟩, rfl⟩
  | cons run runs ih =>
    intro lineStart text hcut hblocks hline
    have hline' := fun indent marker spaced shown hmem =>
      hline indent marker spaced shown (List.mem_append_right _ hmem)
    have hof : ∀ block ∈ (run :: runs).flatten, block.OfLanguage language := by
      rw [← hblocks]
      exact (Language.layout_blocksFrom ..).ofLanguage
    have hcases := hcut.cases h hblock hm fun block hb =>
      hof block (List.mem_append_left _ hb)
    have hof' : ∀ block ∈ runs.flatten, block.OfLanguage language :=
      fun block hb => hof block (List.mem_append_right _ hb)
    rcases hcases with ⟨code, _, rfl⟩ | ⟨indent, items, hindent, hitems, rfl⟩
    · cases runs with
      | nil =>
        rw [List.flatMap_cons, List.flatMap_nil, List.append_nil, Region.writtenRun_code]
        exact settles_code_last horderly hblock hblocks ending
      | cons next runs =>
        have hnext := hcut.tail.cases h hblock hm fun block hb =>
          hof' block (List.mem_append_left _ hb)
        rcases hnext with ⟨code', _, rfl⟩ | ⟨indent, items, hindent, hitems, rfl⟩
        · exact absurd hblocks not_code_code
        · have hitem : ∀ item ∈ items, item.2.stripTerminator.1.Unbroken := fun item hi =>
            hline' indent marker item.1 item.2 (List.mem_append_left _ (List.mem_map_of_mem hi))
          have hends : code.EndsLine := endsLine_of_code_cons hitems hblocks
          rw [List.flatMap_cons, Region.writtenRun_code, writeText_nil_of_endsLine hends]
          exact settles_code h hblock hitems hcut.tail hblocks hitem
            fun start rest hrest => ih start rest hcut.tail hrest hline'
    · have hitem : ∀ item ∈ items, item.2.stripTerminator.1.Unbroken := fun item hi =>
        hline indent marker item.1 item.2 (List.mem_append_left _ (List.mem_map_of_mem hi))
      rw [List.flatten_cons] at hblocks ⊢
      rw [List.flatMap_cons]
      by_cases hblocksNe : runs.flatten = []
      · have hruns : runs = [] := hcut.tail.eq_nil hblocksNe
        subst hruns
        rw [List.flatten_nil, List.append_nil] at hblocks ⊢
        rw [List.flatMap_nil, List.append_nil]
        exact settles_inlineRun_last h hm hindent hitems hblocks hitem ending
      · exact settles_inlineRun h hm hindent hitems hblocksNe hblocks hitem
          (hcut.tail.head?_ne h hblock hm hof') (hcut.role_ne h hblock hm hof')
          (fun start rest hrest => ih start rest hcut.tail hrest hline') ending

/-! ### Saving twice -/

/-- **Tidy blocks come back unchanged.** -/
theorem roundTrips_of_tidy (h : language ∈ Language.table) (hblock : language.blockComments = [])
    {source : Text} (htidy : Tidy (classify language source)) (hended : source.Ended) :
    RoundTrips (classify language source) source where
  noBlockComment opener text hmem := by
    obtain ⟨⟨closer, hcloser⟩, _⟩ := ofLanguage_of_mem_classify hmem
    rw [hblock] at hcloser
    simp at hcloser
  spaced _ _ _ _ hmem := (htidy.written _ hmem).1
  terminated _ _ _ _ hmem := ⟨(htidy.written _ hmem).2, endsLine_of_mem_classify h hended hmem⟩
  ended := hended
  unpaired before after indent marker marker' spaced spaced' text hblocks hlast := by
    have hchain := htidy.apart
    rw [hblocks] at hchain
    exact (List.isChain_cons_cons.1 hchain.right_of_append).1 rfl hlast rfl

/-- **Saving normalises in one step.**  In a language with inline comments only, a document whose
comments are one line each can be saved unedited, and what was saved comes back unchanged: whatever
its line endings are, with or without a terminator at its end, and with bare markers. -/
theorem save_save (h : language ∈ Language.table) (hinline : language.inlineComments ≠ [])
    (hblock : language.blockComments = []) {source : Text}
    (hline : ∀ indent marker spaced text,
      .inlineDoc indent marker spaced text ∈ classify language source →
        text.stripTerminator.1.Unbroken) :
    ∃ saved, (ofSource language source .edit).save (ofSource language source .edit).editedRegions =
        .ok saved ∧
      (ofSource language saved .edit).save (ofSource language saved .edit).editedRegions =
        .ok saved := by
  obtain ⟨marker, hm⟩ := List.exists_mem_of_ne_nil _ hinline
  have hmarker := Language.eq_saveMarker_of_mem_table h hm
  have hdoc : language.docOnly = false :=
    (by decide : ∀ language ∈ Language.table, language.inlineComments ≠ [] →
      language.docOnly = false) language h hinline
  have hok : ∀ source saved, (ofSource language source .edit).save
      (ofSource language source .edit).editedRegions = .ok saved ↔
        saved = (runs language source).flatMap (writtenRun marker (LineEnding.detect source)) := by
    intro source saved
    rw [save_eq_ok_iff h hdoc (by decide), hmarker]
    simp
  let saved := (runs language source).flatMap (writtenRun marker (LineEnding.detect source))
  refine ⟨saved, (hok source saved).2 rfl, (hok saved saved).2 ?_⟩
  have hcut := isCut_runs language source
  have htidy : Tidy (classify language saved) := by
    refine (settles_blocksFrom h hblock hm _ (runs language source) true source hcut ?_ ?_).tidy
    · exact (flatten_runs language source).symm
    · rwa [flatten_runs]
  have hround := roundTrips_of_tidy h hblock htidy (ended_flatMap_writtenRun hcut.ne_nil marker _)
  have hruns : ∀ run ∈ runs language saved,
      writtenRun marker (LineEnding.detect saved) run = Block.sourceOf run := by
    intro run hrun
    have hwritten := writtenRun_eq_sourceOf h hround hrun (LineEnding.detect saved)
    rwa [hmarker] at hwritten
  rw [List.flatMap_congr hruns, flatMap_sourceOf_runs]

/-- A bare marker gets its space and the last line a terminator; then nothing changes any more. -/
theorem save_save_python :
    (ofSource .python "x\r\n#\n  # a" .edit).save
        (ofSource .python "x\r\n#\n  # a" .edit).editedRegions = .ok "x\r\n# \n  # a\r\n" ∧
      (ofSource .python "x\r\n# \n  # a\r\n" .edit).save
        (ofSource .python "x\r\n# \n  # a\r\n" .edit).editedRegions =
          .ok "x\r\n# \n  # a\r\n" := by
  have hfirst : (ofSource .python "x\r\n#\n  # a" .edit).save
      (ofSource .python "x\r\n#\n  # a" .edit).editedRegions =
        .ok "x\r\n# \n  # a\r\n" := by decide
  have hblocks : classify .python "x\r\n#\n  # a" = [.code "x\r\n".toList,
      .inlineDoc [] ['#'] false ['\n'], .inlineDoc [' ', ' '] ['#'] true ['a']] := by decide
  have hline : ∀ indent marker spaced text,
      .inlineDoc indent marker spaced text ∈ classify .python "x\r\n#\n  # a" →
        text.stripTerminator.1.Unbroken := by
    intro indent marker spaced text hmem
    rw [hblocks] at hmem
    simp only [List.mem_cons, reduceCtorEq, Block.inlineDoc.injEq, List.not_mem_nil, false_or,
      or_false] at hmem
    rcases hmem with ⟨_, _, _, rfl⟩ | ⟨_, _, _, rfl⟩
    · decide
    · decide
  obtain ⟨saved, hsaved, hagain⟩ := save_save (by decide) (by decide) rfl hline
  obtain rfl := Except.ok.inj (hsaved.symm.trans hfirst)
  exact ⟨hfirst, hagain⟩

end Document

end Literate
