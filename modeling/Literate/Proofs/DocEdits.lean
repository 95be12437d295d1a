import Literate.Proofs.Comments
import Literate.Proofs.Crossings
import Literate.Proofs.RoundTrip

/-!
# Edits of documentation

Documentation is edited, code is not, and the document is saved.  Is the saved text read back as it
was meant: the code unchanged, the documentation line by line?  It is for all edits exactly if the
blocks of the source are aligned with its scan (`save_revised_iff_aligned`).

An edit replaces run after run (`Edit`), and both directions are inductions over the runs.  If the
source is aligned, there is a border behind every block of code, and it stays there whatever is
written behind it.  If it is not, some here-document closes with the blanks of an indent; an edit
that leaves out the indents lets it run on, and the comment behind it becomes code.
-/

namespace Literate

open Text RegionWriter

namespace Document

variable {language : Language} {marker : Text} {allowed : Text → Prop}

/-- What is written for runs of blocks if the documentation in them is replaced, and the blocks that
are to be read back.  The new indents are allowed ones. -/
inductive Edit (marker : Text) (allowed : Text → Prop) :
    List (List Block) → Text → List Block → Prop
  | nil : Edit marker allowed [] [] []
  | code {text written : Text} {runs : List (List Block)} {blocks : List Block} :
      Edit marker allowed runs written blocks →
      Edit marker allowed ([.code text] :: runs) (text ++ written) (.code text :: blocks)
  | doc {indent' marker' indent content written : Text} {items : List (Bool × Text)}
      {ending : LineEnding} {runs : List (List Block)} {blocks : List Block} :
      items ≠ [] → (stripTerminator (items.map Prod.snd).flatten).2 = some ending →
      allowed indent → (∀ line ∈ content.lines, line.text.getLast? ≠ some '\\') →
      Edit marker allowed runs written blocks →
      Edit marker allowed (Region.inlineRun indent' marker' items :: runs)
        (writeLines (indent ++ marker ++ [' ']) content ending.text ++ written)
        ((content.lines.map fun line => .inlineDoc indent marker true
          (line.text ++ (line.terminator.getD ending).text)) ++ blocks)

theorem exists_rest_of_inlineRun {indent marker' : Text} {blocks : List Block} :
    ∀ (items : List (Bool × Text)) (lineStart : Bool) (text : Text),
      language.blocksFrom lineStart true text = Region.inlineRun indent marker' items ++ blocks →
      (∀ item ∈ items, item.2.EndsLine) →
      ∃ rest, text = Block.sourceOf (Region.inlineRun indent marker' items) ++ rest ∧
        language.blocksFrom
          (lineStartAfter lineStart (Block.sourceOf (Region.inlineRun indent marker' items))) true
          rest = blocks ∧
        (language.Aligned lineStart text (Region.inlineRun indent marker' items ++ blocks) ↔
          language.Aligned
            (lineStartAfter lineStart (Block.sourceOf (Region.inlineRun indent marker' items)))
            rest blocks) := by
  intro items
  induction items with
  | nil =>
    intro lineStart text h _
    exact ⟨text, rfl, h, Iff.rfl⟩
  | cons item items ih =>
    intro lineStart text h hends
    obtain ⟨read, rest, rfl, hread, hscan, hrest⟩ := Language.exists_rest_of_doc h rfl
    have hfresh : (Block.inlineDoc indent marker' item.1 item.2).freshAfter = true := by
      have := isSome_stripTerminator.2 (hends item (List.mem_cons_self ..))
      simp [Block.freshAfter, Block.text, this]
    rw [hfresh] at hrest
    obtain ⟨behind, rfl, hblocks, haligned⟩ :=
      ih _ rest hrest fun other ho => hends other (List.mem_cons_of_mem _ ho)
    have hsource : Block.sourceOf (Region.inlineRun indent marker' (item :: items)) =
        (Block.inlineDoc indent marker' item.1 item.2).source ++
          Block.sourceOf (Region.inlineRun indent marker' items) := Block.sourceOf_cons ..
    rw [hsource, lineStartAfter_append]
    refine ⟨behind, by rw [List.append_assoc], hblocks, ?_⟩
    rw [← haligned]
    exact Language.aligned_cons _ hscan hread

theorem getLast?_flatten {items : List (Bool × Text)} (hitems : items ≠ [])
    (hends : ∀ item ∈ items, item.2.EndsLine) :
    (items.map Prod.snd).flatten.getLast? = (items.getLast hitems).2.getLast? := by
  have hne := (hends _ (List.getLast_mem hitems)).ne_nil
  have hsplit := List.dropLast_append_getLast hitems
  have hmap : items.map Prod.snd = items.dropLast.map Prod.snd ++ [(items.getLast hitems).2] := by
    rw [← List.map_singleton, ← List.map_append, hsplit]
  rw [hmap, List.flatten_append, List.flatten_singleton, List.getLast?_append_of_ne_nil _ hne]

theorem getLast?_sourceOf_inlineRun {indent marker' : Text} {items : List (Bool × Text)}
    (hitems : items ≠ []) (hends : ∀ item ∈ items, item.2.EndsLine) :
    (Block.sourceOf (Region.inlineRun indent marker' items)).getLast? =
      (items.getLast hitems).2.getLast? := by
  have hne := (hends _ (List.getLast_mem hitems)).ne_nil
  have hsplit := List.dropLast_append_getLast hitems
  have hrun : Region.inlineRun indent marker' items =
      Region.inlineRun indent marker' items.dropLast ++
        Region.inlineRun indent marker' [items.getLast hitems] := by
    rw [Region.inlineRun, Region.inlineRun, Region.inlineRun, ← List.map_append, hsplit]
  rw [hrun, Block.sourceOf_append, Region.sourceOf_inlineRun_cons,
    show Block.sourceOf (Region.inlineRun indent marker' []) = [] from rfl, List.append_nil,
    List.getLast?_append_of_ne_nil _ (by simp [hne]), List.getLast?_append_of_ne_nil _ hne]

theorem lineStartAfter_inlineRun (indent marker' : Text) {items : List (Bool × Text)}
    {ending : LineEnding} (hitems : items ≠ []) (hends : ∀ item ∈ items, item.2.EndsLine)
    (hending : (stripTerminator (items.map Prod.snd).flatten).2 = some ending) (lineStart : Bool) :
    lineStartAfter lineStart (Block.sourceOf (Region.inlineRun indent marker' items)) =
      lineStartAfter lineStart ending.text := by
  rw [lineStartAfter, lineStartAfter, getLast?_sourceOf_inlineRun hitems hends,
    ← getLast?_flatten hitems hends, getLast?_of_stripTerminator hending]

/-! ### What an edit starts with -/

theorem Edit.not_cutsPair {runs : List (List Block)} {written : Text} {blocks : List Block}
    (h : Edit marker allowed runs written blocks)
    (hallowed : ∀ indent, allowed indent → indent.isBlank = true) (hsolid : marker.Solid)
    {before : Text}
    (hcode : ∀ text runs', runs = [.code text] :: runs' → text ≠ [] ∧ ¬ CutsPair before text) :
    ¬ CutsPair before written := by
  rintro ⟨hlast, hhead⟩
  cases h with
  | nil => simp at hhead
  | @code text written runs blocks hedit =>
    obtain ⟨hne, hcut⟩ := hcode text runs rfl
    rw [List.head?_append_of_ne_nil _ hne] at hhead
    exact hcut ⟨hlast, hhead⟩
  | @doc indent' marker' indent content written items ending runs blocks _ _ hindent _ hedit =>
    obtain ⟨tail, htail⟩ :=
      exists_writeLines_eq_append (indent ++ marker ++ [' ']) content ending.text
    have hmargin : Unbroken (indent ++ marker ++ [' ']) :=
      Region.unbroken_lead (hallowed indent hindent) hsolid true
    rw [htail, List.append_assoc, List.head?_append_of_ne_nil _ (by simp)] at hhead
    simpa [isLineBreak] using hmargin _ (List.mem_of_head? hhead)

theorem Edit.runs_cases {runs : List (List Block)} {written : Text} {blocks : List Block}
    (h : Edit marker allowed runs written blocks) :
    runs = [] ∧ written = [] ∧ blocks = [] ∨ (∃ text runs', runs = [.code text] :: runs') ∨
      ∃ indent marker' items runs', items ≠ [] ∧
        runs = Region.inlineRun indent marker' items :: runs' := by
  cases h with
  | nil => exact Or.inl ⟨rfl, rfl, rfl⟩
  | @code text _ runs _ _ => exact Or.inr (Or.inl ⟨text, runs, rfl⟩)
  | @doc indent' marker' _ _ _ items _ runs _ hitems _ _ _ _ =>
    exact Or.inr (Or.inr ⟨indent', marker', items, runs, hitems, rfl⟩)

theorem Edit.prepend {runs : List (List Block)} {written : Text} {blocks : List Block}
    (h : Edit marker allowed runs written blocks)
    (hcode : ∀ text runs', runs ≠ [.code text] :: runs') {code : Text} (hne : code ≠ []) :
    Block.prepend code blocks = .code code :: blocks := by
  cases h with
  | nil =>
    refine (Block.prepend_codeOf hne []).trans ?_
    rw [List.append_nil, Block.codeOf_of_ne_nil hne]
  | @code text _ runs _ _ => exact absurd rfl (hcode text runs)
  | @doc _ _ indent content _ _ ending _ blocks _ _ _ _ _ =>
    have hlines : content.lines ≠ [] := by
      intro hnil
      have := length_lines content
      rw [hnil, List.length_nil] at this
      omega
    obtain ⟨line, lines, hcons⟩ := List.exists_cons_of_ne_nil hlines
    rw [hcons, List.map_cons, List.cons_append, Block.prepend_of_isCode_eq_false rfl,
      Block.codeOf_of_ne_nil hne]
    rfl

theorem code_of_blocksFrom (h : language ∈ Language.table) {lineStart fresh : Bool}
    {text code indent marker' : Text} {items : List (Bool × Text)} {blocks : List Block}
    (hblocks : language.blocksFrom lineStart fresh text =
      .code code :: (Region.inlineRun indent marker' items ++ blocks))
    (hitems : items ≠ []) (hended : text.Ended) :
    ∃ rest, text = code ++ rest ∧ code.EndsLine ∧ rest.EndsLine ∧ ¬ CutsPair code rest := by
  have hlayout := Language.layout_blocksFrom language lineStart fresh text
  have hsource := Language.sourceOf_blocksFrom language lineStart fresh text
  rw [hblocks] at hlayout hsource
  rw [Block.sourceOf_cons, Block.sourceOf_append] at hsource
  obtain ⟨item, items, rfl⟩ := List.exists_cons_of_ne_nil hitems
  have hends : code.EndsLine := (List.isChain_cons_cons.1 hlayout.isChain).1
  have hmem : .inlineDoc indent marker' item.1 item.2 ∈
      (.code code :: (Region.inlineRun indent marker' (item :: items) ++ blocks) : List Block) := by
    simp [Region.inlineRun]
  obtain ⟨hindent, hmarker, _⟩ := hlayout.ofLanguage _ hmem
  have hsolid := (Language.orderly_of_mem_table h).inlineComments _ hmarker
  have hne : Block.sourceOf (Region.inlineRun indent marker' (item :: items)) ≠ [] :=
    Region.sourceOf_inlineRun_ne_nil indent hsolid (by simp)
  refine ⟨_, hsource.symm, hends, ?_, ?_⟩
  · rw [← hsource] at hended
    exact hended.of_append.resolve_left (by simp [hne])
  · rintro ⟨_, hhead⟩
    rw [List.head?_append_of_ne_nil _ hne] at hhead
    exact Region.head?_sourceOf_inlineRun_ne hindent hsolid _ rfl hhead

theorem code_ne_nil_of_blocksFrom {lineStart fresh : Bool} {text code : Text}
    {blocks : List Block} (hblocks : language.blocksFrom lineStart fresh text = blocks)
    (hmem : .code code ∈ blocks) : code ≠ [] := by
  have hlayout := Language.layout_blocksFrom language lineStart fresh text
  rw [hblocks] at hlayout
  exact hlayout.ofLanguage _ hmem

theorem not_code_code {lineStart fresh : Bool} {text code code' : Text} {blocks : List Block} :
    language.blocksFrom lineStart fresh text ≠ .code code :: .code code' :: blocks := by
  intro hblocks
  have hlayout := Language.layout_blocksFrom language lineStart fresh text
  rw [hblocks] at hlayout
  exact (List.isChain_cons_cons.1 hlayout.isChain).1

theorem endsLine_of_inlineRun (h : language ∈ Language.table) {lineStart fresh : Bool}
    {text indent marker' : Text} {items : List (Bool × Text)} {blocks : List Block}
    (hblocks : language.blocksFrom lineStart fresh text =
      Region.inlineRun indent marker' items ++ blocks) (hended : text.Ended) :
    ∀ item ∈ items, item.2.EndsLine := by
  intro item hi
  have hlayout := Language.layout_blocksFrom language lineStart fresh text
  rw [hblocks] at hlayout
  exact hlayout.endsLine_of_mem (Language.orderly_of_mem_table h) hended
    (List.mem_append_left _ (List.mem_map_of_mem hi))

theorem not_cutsPair_ending {lineStart fresh : Bool} {text code indent marker' : Text}
    {items : List (Bool × Text)} {ending : LineEnding} {blocks : List Block}
    (hblocks : language.blocksFrom lineStart fresh text =
      Region.inlineRun indent marker' items ++ .code code :: blocks) (hitems : items ≠ [])
    (hends : ∀ item ∈ items, item.2.EndsLine)
    (hending : (stripTerminator (items.map Prod.snd).flatten).2 = some ending) :
    ¬ CutsPair ending.text code := by
  have hlayout := Language.layout_blocksFrom language lineStart fresh text
  rw [hblocks] at hlayout
  have hlast : (Region.inlineRun indent marker' items).getLast? =
      some (.inlineDoc indent marker' (items.getLast hitems).1 (items.getLast hitems).2) := by
    rw [Region.inlineRun, List.getLast?_map, List.getLast?_eq_some_getLast hitems]
    rfl
  have hprecedes := (List.isChain_append.1 hlayout.isChain).2.2 _ hlast (.code code) rfl
  rintro ⟨hcr, hhead⟩
  refine hprecedes.2 ⟨?_, hhead⟩
  rw [← getLast?_flatten hitems hends, getLast?_of_stripTerminator hending, hcr]

/-! ### Aligned sources -/

/-- **Edited documentation is read back as it was written**, and the code is not touched. -/
theorem Edit.blocksFrom_eq (h : language ∈ Language.table) (hm : marker ∈ language.inlineComments)
    (hallowed : ∀ indent, allowed indent → indent.isBlank = true)
    {runs : List (List Block)} {written : Text} {blocks : List Block}
    (hedit : Edit marker allowed runs written blocks) :
    ∀ (lineStart : Bool) (text : Text), language.blocksFrom lineStart true text = runs.flatten →
      text.Ended → PairsToEnd text → language.Aligned lineStart text runs.flatten →
      language.blocksFrom lineStart true written = blocks := by
  have horderly := Language.orderly_of_mem_table h
  have hsolid := horderly.inlineComments marker hm
  induction hedit with
  | nil => intros; rfl
  | @code code written runs blocks hedit ih =>
    intro lineStart text hblocks hended hpairs haligned
    rw [List.flatten_cons, List.singleton_append] at hblocks haligned
    have hne : code ≠ [] := code_ne_nil_of_blocksFrom hblocks (List.mem_cons_self ..)
    have hcode : ∀ text' runs', runs ≠ [.code text'] :: runs' := by
      rintro text' runs' rfl
      exact not_code_code hblocks
    rcases hedit.runs_cases with ⟨rfl, rfl, rfl⟩ | ⟨text', runs', rfl⟩ |
      ⟨indent', marker', items, runs', hitems, rfl⟩
    · have hsource := Language.sourceOf_blocksFrom language lineStart true text
      rw [hblocks] at hsource
      have htext : code ++ [] = text := by
        simpa [Block.sourceOf, Block.source] using hsource
      rw [htext, hblocks]
      rfl
    · exact absurd rfl (hcode text' runs')
    · rw [List.flatten_cons] at hblocks haligned
      obtain ⟨rest, rfl, hends, hrest, hcut⟩ := code_of_blocksFrom h hblocks hitems hended
      have hcut' : ¬ CutsPair code written :=
        hedit.not_cutsPair hallowed hsolid fun text' runs' hruns => absurd hruns (hcode text' runs')
      obtain ⟨before, after, hscan, hcover⟩ := haligned [.code code] _ rfl
      rw [show Block.sourceOf [.code code] = code by simp [Block.sourceOf, Block.source]] at hcover
      obtain ⟨hscan₁, hblocks₁⟩ := Language.blocksFrom_append_of_border horderly hblocks hends hrest
        hcut hpairs hscan hcover hcut
      obtain ⟨-, hblocks₂⟩ := Language.blocksFrom_append_of_border horderly hblocks hends hrest
        hcut hpairs hscan hcover hcut'
      have hbehind := Block.eq_of_prepend_eq hne
        (fun _ hmem => code_ne_nil_of_blocksFrom rfl hmem) (hblocks₁.symm.trans hblocks)
      have haligned' := (Language.aligned_cons (.code code) hscan₁ hcover).1 haligned
      rw [hblocks₂, ih _ rest hbehind hended.of_append hpairs.of_append haligned',
        hedit.prepend hcode hne]
  | @doc indent' marker' indent content written items ending runs blocks hitems hending hindent
      hlast hedit ih =>
    intro lineStart text hblocks hended hpairs haligned
    rw [List.flatten_cons] at hblocks haligned
    have hends := endsLine_of_inlineRun h hblocks hended
    obtain ⟨rest, rfl, hrest, hiff⟩ := exists_rest_of_inlineRun items lineStart text hblocks hends
    have hcut : ¬ CutsPair ending.text written := by
      refine hedit.not_cutsPair hallowed hsolid ?_
      rintro code runs' rfl
      rw [List.flatten_cons, List.singleton_append] at hblocks
      exact ⟨code_ne_nil_of_blocksFrom hblocks (by simp),
        not_cutsPair_ending hblocks hitems hends hending⟩
    have hflag := lineStartAfter_inlineRun indent' marker' hitems hends hending lineStart
    rw [hflag] at hrest hiff
    rw [Language.blocksFrom_writeLines h hm (hallowed indent hindent) hcut content lineStart
        fun line hl => Or.inr (hlast line hl),
      ih _ rest hrest hended.of_append hpairs.of_append (hiff.1 haligned)]

/-! ### Other sources -/

theorem aligned_singleton (lineStart : Bool) (text : Text) :
    language.Aligned lineStart text [.code text] := by
  intro before after hblocks
  cases before with
  | nil => exact ⟨[], _, rfl, rfl⟩
  | cons first before =>
    obtain ⟨rfl, hnil⟩ := List.cons.inj hblocks
    obtain ⟨rfl, -⟩ := List.append_eq_nil_iff.1 hnil.symm
    refine ⟨language.lexemes lineStart text, [], by simp, ?_⟩
    rw [Language.flatMap_text_lexemes]
    simp [Block.sourceOf, Block.source]

theorem Edit.exists_marker {runs : List (List Block)} {written : Text} {blocks : List Block}
    (hedit : Edit marker (· = []) runs written blocks) (hruns : runs ≠ [])
    (hcode : ∀ text runs', runs ≠ [.code text] :: runs') : ∃ tail, written = marker ++ tail := by
  cases hedit with
  | nil => exact absurd rfl hruns
  | @code text _ runs _ _ => exact absurd rfl (hcode text runs)
  | @doc _ _ indent content written _ ending _ _ _ _ hindent _ _ =>
    obtain rfl : indent = [] := hindent
    obtain ⟨tail, htail⟩ := exists_writeLines_eq_append ([] ++ marker ++ [' ']) content ending.text
    exact ⟨[' '] ++ tail ++ written, by rw [htail]; simp⟩

/-- **If an edit without indents is read back as it was written, the source is aligned.** -/
theorem Edit.aligned (h : language ∈ Language.table) (hm : marker ∈ language.inlineComments)
    {runs : List (List Block)} {written : Text} {blocks : List Block}
    (hedit : Edit marker (· = []) runs written blocks) :
    ∀ (lineStart : Bool) (text : Text), language.blocksFrom lineStart true text = runs.flatten →
      text.Ended → PairsToEnd text → language.blocksFrom lineStart true written = blocks →
      language.Aligned lineStart text runs.flatten := by
  have horderly := Language.orderly_of_mem_table h
  have hsolid := horderly.inlineComments marker hm
  have hallowed : ∀ indent : Text, indent = [] → indent.isBlank = true := by
    rintro indent rfl
    rfl
  induction hedit with
  | nil =>
    intro lineStart text _ _ _ _ before after hblocks
    obtain ⟨rfl, -⟩ := List.append_eq_nil_iff.1 hblocks.symm
    exact ⟨[], _, rfl, rfl⟩
  | @code code written runs blocks hedit ih =>
    intro lineStart text hblocks hended hpairs hwritten
    rw [List.flatten_cons, List.singleton_append] at hblocks ⊢
    have hne : code ≠ [] := code_ne_nil_of_blocksFrom hblocks (List.mem_cons_self ..)
    have hcode : ∀ text' runs', runs ≠ [.code text'] :: runs' := by
      rintro text' runs' rfl
      exact not_code_code hblocks
    rcases hedit.runs_cases with ⟨rfl, rfl, rfl⟩ | ⟨text', runs', rfl⟩ |
      ⟨indent', marker', items, runs', hitems, rfl⟩
    · have hsource := Language.sourceOf_blocksFrom language lineStart true text
      rw [hblocks] at hsource
      obtain rfl : code = text := by
        simpa [Block.sourceOf, Block.source] using hsource
      exact aligned_singleton lineStart code
    · exact absurd rfl (hcode text' runs')
    · rw [List.flatten_cons] at hblocks ⊢
      obtain ⟨rest, rfl, hends, hrest, hcut⟩ := code_of_blocksFrom h hblocks hitems hended
      have hcut' : ¬ CutsPair code written :=
        hedit.not_cutsPair hallowed hsolid fun text' runs' hruns => absurd hruns (hcode text' runs')
      have hcover := Language.flatMap_text_lexemes language lineStart (code ++ rest)
      rcases Language.border_or_crossing _ code rest hcover with ⟨before, after, hscan, hcover⟩ |
        ⟨before, lexeme, after, front, back, hscan, hfrontEq, hlexeme, hfront, hback⟩
      · obtain ⟨hscan₁, hblocks₁⟩ := Language.blocksFrom_append_of_border horderly hblocks hends
          hrest hcut hpairs hscan hcover hcut
        obtain ⟨-, hblocks₂⟩ := Language.blocksFrom_append_of_border horderly hblocks hends
          hrest hcut hpairs hscan hcover hcut'
        have hbehind := Block.eq_of_prepend_eq hne
          (fun _ hmem => code_ne_nil_of_blocksFrom rfl hmem) (hblocks₁.symm.trans hblocks)
        have hbehind' := Block.eq_of_prepend_eq hne
          (fun _ hmem => code_ne_nil_of_blocksFrom rfl hmem) (hblocks₂.symm.trans hwritten)
        refine (Language.aligned_cons (.code code) hscan₁ hcover).2 ?_
        exact ih _ rest hbehind hended.of_append hpairs.of_append hbehind'
      · -- A token over the end of the code would make the marker behind it code.
        exfalso
        obtain ⟨c, tail, rfl, _, hblank, _⟩ := hsolid.exists_cons
        obtain ⟨tail', rfl⟩ := hedit.exists_marker (by simp) hcode
        have hdoc : Region.inlineRun indent' marker' items ++ runs'.flatten ≠ [] := by
          simp [Region.inlineRun, hitems]
        obtain ⟨text', blocks', hfirst, hlonger⟩ := Language.exists_code_of_crossing horderly
          hblocks hdoc hends hrest hcut hpairs hscan hfrontEq hlexeme hfront hback hblank hcut'
        obtain rfl := Block.code.inj (List.cons.inj (hwritten.symm.trans hfirst)).1
        have := hlonger.length_le
        rw [List.length_append, List.length_singleton] at this
        omega
  | @doc indent' marker' indent content written items ending runs blocks hitems hending hindent
      hlast hedit ih =>
    intro lineStart text hblocks hended hpairs hwritten
    rw [List.flatten_cons] at hblocks ⊢
    have hends := endsLine_of_inlineRun h hblocks hended
    obtain ⟨rest, rfl, hrest, hiff⟩ := exists_rest_of_inlineRun items lineStart text hblocks hends
    have hcut : ¬ CutsPair ending.text written := by
      refine hedit.not_cutsPair hallowed hsolid ?_
      rintro code runs' rfl
      rw [List.flatten_cons, List.singleton_append] at hblocks
      exact ⟨code_ne_nil_of_blocksFrom hblocks (by simp),
        not_cutsPair_ending hblocks hitems hends hending⟩
    have hflag := lineStartAfter_inlineRun indent' marker' hitems hends hending lineStart
    rw [hflag] at hrest hiff
    rw [Language.blocksFrom_writeLines h hm (hallowed indent hindent) hcut content lineStart
      fun line hl => Or.inr (hlast line hl)] at hwritten
    exact hiff.2 (ih _ rest hrest hended.of_append hpairs.of_append
      (List.append_cancel_left hwritten))

end Document

/-! ### Regions -/

namespace EditedRegion

/-- The region comes back with its documentation edited: a region of code unchanged, a region of
documentation with another indent and another content, no line of which ends with a backslash. -/
inductive Revises (region : Region) : EditedRegion → Prop
  | code : region.role.kind = .code → Revises region (ofRegion region)
  | doc {indent content : Text} : region.role.kind = .doc → indent.isBlank = true →
      (∀ line ∈ content.lines, line.text.getLast? ≠ some '\\') →
      Revises region { ofRegion region with indent := some indent, content }

/-- The blocks that are to be read back for a region: a block of code, or one comment for each line,
with the terminator of the line or, for the last one, that of the region. -/
def blocks (marker : Text) (region : EditedRegion) : List Block :=
  if region.kind = RegionKind.code.name then [.code (region.content ++ region.terminator.getD [])]
  else
    region.content.lines.map fun line => .inlineDoc (region.indent.getD []) marker true
      (line.text ++ (line.terminator.map LineEnding.text).getD (region.terminator.getD []))

end EditedRegion

namespace Document

variable {language : Language} {marker : Text} {allowed : Text → Prop}

theorem blocks_of_code {text : Text} (hends : text.EndsLine) (line : Nat) :
    (EditedRegion.ofRegion (.showing .code line text)).blocks marker = [.code text] := by
  obtain ⟨content, ending, rfl, hcut⟩ := exists_ending hends
  simp [EditedRegion.blocks, EditedRegion.ofRegion, Region.showing, Region.Role.kind,
    stripTerminator_append hcut]

theorem writeRegion_of_code {writer : RegionWriter} {text : Text} (hends : text.EndsLine)
    (line : Nat) :
    writer.writeRegion (EditedRegion.ofRegion (.showing .code line text)) = .ok text := by
  have hrun : EditedRegion.ofRun [.code text] =
      EditedRegion.ofRegion (.showing .code line text) := by
    simp [EditedRegion.ofRun, EditedRegion.ofRegion, Region.showing, Region.Role.ofBlock,
      Block.text]
  rw [← hrun, writeRegion_ofRun_code writer [], Region.writtenRun_code,
    writeText_nil_of_endsLine hends]

theorem ofRuns_inlineRun (line : Nat) (indent marker' : Text) {items : List (Bool × Text)}
    (hitems : items ≠ []) (runs : List (List Block)) :
    Region.ofRuns line (Region.inlineRun indent marker' items :: runs) =
      .showing (.comment indent false) line (items.map Prod.snd).flatten ::
        Region.ofRuns (line + Region.height (Region.inlineRun indent marker' items)) runs := by
  cases items with
  | nil => exact absurd rfl hitems
  | cons item items =>
    rw [← Region.flatMap_text_inlineRun indent marker']
    rfl

theorem blocks_of_doc {region : EditedRegion} {indent : Text} {ending : LineEnding}
    (hkind : region.kind = RegionKind.doc.name) (hindent : region.indent = some indent)
    (hending : region.terminator = some ending.text) :
    region.blocks marker = region.content.lines.map fun line => .inlineDoc indent marker true
      (line.text ++ (line.terminator.getD ending).text) := by
  rw [EditedRegion.blocks, hkind, if_neg (by decide), hindent, hending]
  refine List.map_congr_left fun line _ => ?_
  cases line.terminator <;> rfl

theorem writeRegion_of_doc {writer : RegionWriter} (hstyle : writer.style = .inline marker)
    {region : EditedRegion} {indent : Text} {ending : LineEnding}
    (hkind : region.kind = RegionKind.doc.name) (hindent : region.indent = some indent)
    (hblank : indent.isBlank = true) (hending : region.terminator = some ending.text) :
    writer.writeRegion region =
      .ok (writeLines (indent ++ marker ++ [' ']) region.content ending.text) := by
  have hterminator := terminator_map_text writer (some ending)
  rw [Option.map_some, ← hending] at hterminator
  simp only [writeRegion, hkind, RegionKind.ofName?_name, hterminator, hstyle, hindent,
    Option.getD_some, hblank, if_true]
  rfl

/-- **Regions that come back edited are an edit of the runs.** -/
theorem exists_edit {writer : RegionWriter} (hstyle : writer.style = .inline marker) :
    ∀ (runs : List (List Block)) (line index : Nat) (edited : List EditedRegion),
      (∀ run ∈ runs, (∃ text : Text, text.EndsLine ∧ run = [.code text]) ∨
        ∃ indent marker' items, items ≠ [] ∧ (∀ item ∈ items, item.2.EndsLine) ∧
          run = Region.inlineRun indent marker' items) →
      List.Forall₂ EditedRegion.Revises (Region.ofRuns line runs) edited →
      (∀ region ∈ edited, ∀ indent, region.indent = some indent → allowed indent) →
      ∃ written, Edit marker allowed runs written (edited.flatMap (EditedRegion.blocks marker)) ∧
        writer.writeFrom index edited = .ok written := by
  intro runs
  induction runs with
  | nil =>
    intro line index edited _ hrevises _
    cases hrevises
    exact ⟨[], .nil, rfl⟩
  | cons run runs ih =>
    intro line index edited hruns hrevises hindents
    have hruns' := fun other ho => hruns other (List.mem_cons_of_mem _ ho)
    rcases hruns run (List.mem_cons_self ..) with ⟨text, hends, rfl⟩ |
      ⟨indent, marker', items, hitems, hends, rfl⟩
    · rw [Region.ofRuns] at hrevises
      obtain ⟨region, rest, hregion, hrest, rfl⟩ := List.forall₂_cons_left_iff.1 hrevises
      obtain ⟨written, hedit, hwritten⟩ := ih _ (index + 1) rest hruns' hrest
        fun other ho => hindents other (List.mem_cons_of_mem _ ho)
      have hflat : ([.code text] : List Block).flatMap Block.text = text := by simp [Block.text]
      rw [hflat] at hregion
      cases hregion with
      | doc hkind =>
        exact absurd hkind (by simp [Region.showing, Region.Role.ofBlock, Region.Role.kind])
      | code =>
        have hcode : Region.Role.ofBlock (.code text) = .code := rfl
        rw [hcode, List.flatMap_cons, blocks_of_code hends]
        refine ⟨text ++ written, .code hedit, ?_⟩
        rw [writeFrom, writeRegion_of_code hends]
        simp [hwritten, Except.map]
    · rw [ofRuns_inlineRun line indent marker' hitems] at hrevises
      obtain ⟨region, rest, hregion, hrest, rfl⟩ := List.forall₂_cons_left_iff.1 hrevises
      obtain ⟨written, hedit, hwritten⟩ := ih _ (index + 1) rest hruns' hrest
        fun other ho => hindents other (List.mem_cons_of_mem _ ho)
      obtain ⟨content', ending, hflat, hcut⟩ :=
        exists_ending (Region.endsLine_flatten hitems hends)
      have hending := congrArg Prod.snd (stripTerminator_append hcut)
      rw [← hflat] at hending
      cases hregion with
      | code hkind => exact absurd hkind (by simp [Region.showing, Region.Role.kind])
      | @doc indent' content hkind hblank hlast =>
        have hterminator : (Region.showing (.comment indent false) line
            (items.map Prod.snd).flatten).terminator.map LineEnding.text = some ending.text := by
          rw [Region.showing, hending]
          rfl
        rw [List.flatMap_cons, blocks_of_doc rfl rfl hterminator]
        refine ⟨_, .doc hitems hending (hindents _ (List.mem_cons_self ..) indent' rfl) hlast hedit,
          ?_⟩
        rw [writeFrom, writeRegion_of_doc hstyle rfl rfl hblank hterminator]
        simp [hwritten, Except.map]

theorem indents_of_revises {regions : List Region} {edited : List EditedRegion}
    (h : List.Forall₂ EditedRegion.Revises regions edited) :
    ∀ region ∈ edited, ∀ indent, region.indent = some indent → indent.isBlank = true := by
  induction h with
  | nil => simp
  | @cons region first regions edited hfirst _ ih =>
    intro other ho indent hindent
    rcases List.mem_cons.1 ho with rfl | ho
    · cases hfirst with
      | code hkind =>
        have hnone : region.role.indent? = none := by
          cases hrole : region.role <;> simp [hrole, Region.Role.kind] at hkind
          rfl
        simp [EditedRegion.ofRegion, hnone] at hindent
      | doc _ hblank _ =>
        obtain rfl := Option.some.inj hindent
        exact hblank
    · exact ih other ho indent hindent

/-- The edit that leaves out every indent and every line of documentation. -/
def bare (region : Region) : EditedRegion :=
  if region.role.kind = .code then .ofRegion region
  else { EditedRegion.ofRegion region with indent := some [], content := [] }

theorem revises_bare (regions : List Region) :
    List.Forall₂ EditedRegion.Revises regions (regions.map bare) := by
  rw [List.forall₂_map_right_iff, List.forall₂_same]
  intro region _
  rw [bare]
  split
  · next hkind => exact .code hkind
  · next hkind =>
    have hdoc : region.role.kind = .doc := by
      cases hk : region.role.kind with
      | code => exact absurd hk hkind
      | doc => rfl
    exact .doc hdoc rfl (by simp [lines])

theorem indent_bare {region : Region} {indent : Text} (h : (bare region).indent = some indent) :
    indent = [] := by
  rw [bare] at h
  split at h
  · next hkind =>
    have hnone : region.role.indent? = none := by
      cases hrole : region.role <;> simp [hrole, Region.Role.kind] at hkind
      rfl
    simp [EditedRegion.ofRegion, hnone] at h
  · exact (Option.some.inj h).symm

/-- **Edits of documentation never leak into code, exactly if the blocks of the source are aligned
with its scan.**  The source ends its line, has line endings of one style and no block comments. -/
theorem save_revised_iff_aligned (h : language ∈ Language.table)
    (hm : language.saveMarker? = some marker) {source : Text} (hended : source.Ended)
    (hstyle : ∃ ending, source.Styled ending)
    (hblock : ∀ opener text, .blockDoc opener text ∉ classify language source)
    {mode : EditorMode} (hmode : mode ≠ .raw) :
    (∀ edited, List.Forall₂ EditedRegion.Revises (ofSource language source mode).regions edited →
      ∃ saved, (ofSource language source mode).save edited = .ok saved ∧
        classify language saved = edited.flatMap (EditedRegion.blocks marker)) ↔
      language.Aligned true source (classify language source) := by
  obtain ⟨ending, hstyled⟩ := hstyle
  have hpairs := hstyled.pairsToEnd hended
  have hmarker : marker ∈ language.inlineComments :=
    List.mem_of_head? (Option.filter_eq_some_iff.1 hm).1
  have hdoc : language.docOnly = false := by
    have hall : ∀ language ∈ Language.table, language.saveMarker?.isSome = true →
        language.docOnly = false := by decide
    exact hall language h (by rw [hm]; rfl)
  have hregions : (ofSource language source mode).regions =
      Region.ofRuns 1 (runs language source) := by
    simp only [ofSource, hdoc, hmode, Bool.false_or, decide_false, Bool.false_eq_true, if_false]
    rfl
  have hinline : (ofSource language source mode).writer.style = .inline marker := by
    have hne : marker ≠ [] := by
      have := Option.filter_eq_some_iff.1 hm
      simpa using this.2
    simp [writer, ofSource, hdoc, hm, DocStyle.ofMarker, hne]
  have hruns : ∀ run ∈ runs language source,
      (∃ text : Text, text.EndsLine ∧ run = [.code text]) ∨
        ∃ indent marker' items, items ≠ [] ∧ (∀ item ∈ items, item.2.EndsLine) ∧
          run = Region.inlineRun indent marker' items := by
    intro run hrun
    rcases cases_of_mem_runs h hrun with ⟨text, _, rfl⟩ | ⟨opener, text, _, _, rfl⟩ |
      ⟨indent, marker', items, _, _, _, hitems, rfl⟩
    · exact Or.inl ⟨text, endsLine_code_of_mem_runs hblock hended hrun, rfl⟩
    · exact absurd (mem_classify_of_mem_runs hrun (List.mem_singleton_self _)) (hblock opener text)
    · refine Or.inr ⟨indent, marker', items, hitems, fun item hi => ?_, rfl⟩
      exact endsLine_of_mem_classify h hended
        (mem_classify_of_mem_runs hrun (List.mem_map_of_mem hi))
  have hflatten : language.blocksFrom true true source = (runs language source).flatten :=
    (flatten_runs language source).symm
  rw [hregions, ← flatten_runs]
  constructor
  · intro hsaves
    have hrevises := revises_bare (Region.ofRuns 1 (runs language source))
    have hindents : ∀ region ∈ (Region.ofRuns 1 (runs language source)).map bare, ∀ indent,
        region.indent = some indent → indent = [] := by
      intro region hr indent hindent
      obtain ⟨region, _, rfl⟩ := List.mem_map.1 hr
      exact indent_bare hindent
    obtain ⟨written, hedit, hwritten⟩ :=
      exists_edit hinline (runs language source) 1 0 _ hruns hrevises hindents
    obtain ⟨saved, hsaved, hclassify⟩ := hsaves _ hrevises
    obtain rfl : saved = written := Except.ok.inj (hsaved.symm.trans hwritten)
    exact hedit.aligned h hmarker true source hflatten hended hpairs hclassify
  · intro haligned edited hrevises
    obtain ⟨written, hedit, hwritten⟩ := exists_edit hinline (runs language source) 1 0 edited hruns
      hrevises (indents_of_revises hrevises)
    refine ⟨written, hwritten, ?_⟩
    exact hedit.blocksFrom_eq h hmarker (fun _ hblank => hblank) true source hflatten hended hpairs
      haligned

/-- A line of code and a comment: all edits of the comment are read back. -/
theorem save_revised_iff_aligned_python :
    Language.python.Aligned true "x\n# a\n" (classify .python "x\n# a\n") ∧
      ∀ edited,
        List.Forall₂ EditedRegion.Revises (ofSource .python "x\n# a\n" .edit).regions edited →
        ∃ saved, (ofSource .python "x\n# a\n" .edit).save edited = .ok saved ∧
          classify .python saved = edited.flatMap (EditedRegion.blocks ['#']) := by
  have haligned : Language.python.Aligned true "x\n# a\n" (classify .python "x\n# a\n") := by
    decide
  have hblock : ∀ opener text, .blockDoc opener text ∉ classify .python "x\n# a\n" := by
    have hblocks : classify .python "x\n# a\n" =
        [.code "x\n".toList, .inlineDoc [] ['#'] true "a\n".toList] := by decide
    rw [hblocks]
    simp
  refine ⟨haligned, (save_revised_iff_aligned (by decide) rfl ?_ ⟨.lf, ?_⟩ hblock (by decide)).2
    haligned⟩
  · show Ended "x\n# a\n"
    decide
  · show Styled .lf "x\n# a\n"
    decide

/-- A here-document whose delimiter is a blank closes in the indent of the comment below it.
Without that indent it does not close, and the comment is read back as code. -/
theorem save_revised_shell :
    ¬ Language.shell.Aligned true "cat <<' '\nx\n # d\n"
        (classify .shell "cat <<' '\nx\n # d\n") ∧
      ∃ edited saved, List.Forall₂ EditedRegion.Revises
          (ofSource .shell "cat <<' '\nx\n # d\n" .edit).regions edited ∧
        (ofSource .shell "cat <<' '\nx\n # d\n" .edit).save edited = .ok saved ∧
        classify .shell saved = [.code "cat <<' '\nx\n# d\n".toList] ∧
        edited.flatMap (EditedRegion.blocks ['#']) =
          [.code "cat <<' '\nx\n".toList, .inlineDoc [] ['#'] true "d\n".toList] := by
  have hregions : (ofSource .shell "cat <<' '\nx\n # d\n" .edit).regions =
      [.showing .code 1 "cat <<' '\nx\n", .showing (.comment [' '] false) 3 "d\n"] := by decide
  have hlast : ∀ line ∈ lines "d", line.text.getLast? ≠ some '\\' := by decide
  refine ⟨by decide, [.ofRegion (.showing .code 1 "cat <<' '\nx\n"),
    { EditedRegion.ofRegion (.showing (.comment [' '] false) 3 "d\n") with
      indent := some [], content := "d" }], "cat <<' '\nx\n# d\n".toList, ?_, ?_, ?_, ?_⟩
  · rw [hregions]
    exact .cons (.code rfl) (.cons (.doc rfl rfl hlast) .nil)
  · decide
  · decide
  · decide

end Document

end Literate
