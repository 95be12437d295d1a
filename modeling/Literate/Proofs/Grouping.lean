import Literate.Proofs.LineNumbers
import Mathlib.Algebra.GroupWithZero.Nat
import Mathlib.Data.List.SplitBy

/-!
# How blocks are grouped

The regions of a list of blocks, whether it is a classified source or not, are the runs of the list:
single blocks of code, single block comments, and inline comments with one indent and one marker.
Runs are as long as they can be, and that determines them (`groups_iff`):

  `Groups runs blocks ↔ runs = blocks.splitBy joins`.

A region shows the text of its run and keeps the terminator at its end apart, the longest one that
stands there (`Presents.longest`).  It starts behind all the terminators of the blocks before its
run.
-/

namespace Literate

namespace Text

/-! ### The terminator at the end of a text -/

theorem stripTerminator_eq_none_iff {text : Text} :
    (stripTerminator text).2 = none ↔ ¬ ∃ ending : LineEnding, ending.text <:+ text := by
  rw [← Option.not_isSome_iff_eq_none, isSome_stripTerminator]
  refine not_congr ⟨fun h => ?_, ?_⟩
  · obtain ⟨content, ending, rfl, _⟩ := exists_ending h
    exact ⟨ending, List.suffix_append ..⟩
  · rintro ⟨ending, content, rfl⟩
    exact endsLine_append_ending content ending

/-- **Of the terminators at the end of a text the longest is taken off.** -/
theorem length_le_of_stripTerminator {text : Text} {ending other : LineEnding}
    (h : (stripTerminator text).2 = some ending) (hother : other.text <:+ text) :
    other.text.length ≤ ending.text.length := by
  cases other with
  | crlf =>
    obtain ⟨front, rfl⟩ := hother
    have hcut : ¬ CutsPair front LineEnding.crlf.text := by simp [CutsPair, LineEnding.text]
    rw [stripTerminator_append hcut] at h
    rw [Option.some.inj h]
  | lf | cr => exact List.length_pos_iff.2 (ending_ne_nil ending)

end Text

namespace Region

open Text

/-! ### Runs -/

/-- The blocks make one run, and this is what its region has to say of it: its kind, its indent and
whether it is a block comment. -/
inductive RunOf : RegionKind → Option Text → Bool → List Block → Prop
  | code (text : Text) : RunOf .code none false [.code text]
  | blockDoc (marker text : Text) : RunOf .doc (some []) true [.blockDoc marker text]
  | inlineDocs (indent marker : Text) {items : List (Bool × Text)} : items ≠ [] →
      RunOf .doc (some indent) false (inlineRun indent marker items)

def IsRun (run : List Block) : Prop :=
  ∃ kind indent? isBlock, RunOf kind indent? isBlock run

/-- The blocks fall into the runs, none of which makes a longer run with the next one. -/
structure Groups (runs : List (List Block)) (blocks : List Block) : Prop where
  flatten : runs.flatten = blocks
  isRun : ∀ run ∈ runs, IsRun run
  maximal : runs.IsChain fun run next => ¬ IsRun (run ++ next)

theorem isChain_inlineRun (indent marker : Text) (items : List (Bool × Text)) :
    (inlineRun indent marker items).IsChain fun a b => joins a b = true := by
  induction items with
  | nil => exact .nil
  | cons item items ih =>
    refine List.isChain_cons.2 ⟨fun next hnext => ?_, ih⟩
    obtain ⟨other, _, rfl⟩ := List.mem_map.1 (List.mem_of_head? hnext)
    simp [joins]

theorem isRun_iff {run : List Block} :
    IsRun run ↔ run ≠ [] ∧ run.IsChain fun a b => joins a b = true := by
  constructor
  · rintro ⟨_, _, _, ⟨text⟩ | ⟨marker, text⟩ | ⟨indent, marker, hitems⟩⟩
    · exact ⟨by simp, .singleton _⟩
    · exact ⟨by simp, .singleton _⟩
    · exact ⟨by simpa [inlineRun] using hitems, isChain_inlineRun ..⟩
  · rintro ⟨hne, hchain⟩
    rcases run_cases hne hchain with ⟨text, rfl⟩ | ⟨marker, text, rfl⟩ |
      ⟨indent, marker, items, hitems, rfl⟩
    · exact ⟨_, _, _, .code text⟩
    · exact ⟨_, _, _, .blockDoc marker text⟩
    · exact ⟨_, _, _, .inlineDocs indent marker hitems⟩

/-- Two runs make a longer one exactly if the blocks at their border are shown together. -/
theorem isRun_append_iff {run next : List Block} (hrun : IsRun run) (hnext : IsRun next) :
    ¬ IsRun (run ++ next) ↔ ∃ ha hb, joins (run.getLast ha) (next.head hb) = false := by
  obtain ⟨ha, hrun⟩ := isRun_iff.1 hrun
  obtain ⟨hb, hnext⟩ := isRun_iff.1 hnext
  rw [isRun_iff]
  constructor
  · intro h
    refine ⟨ha, hb, Bool.eq_false_iff.2 fun hjoins => h ⟨by simp [ha], hrun.append hnext ?_⟩⟩
    intro a hlast b hhead
    rw [List.getLast?_eq_some_getLast ha, Option.mem_some_iff] at hlast
    rw [List.head?_eq_some_head hb, Option.mem_some_iff] at hhead
    rwa [← hlast, ← hhead]
  · rintro ⟨_, _, hjoins⟩ ⟨_, hchain⟩
    rw [hchain.rel_getLast_head_of_append ha hb] at hjoins
    simp at hjoins

/-- **Maximal runs are determined by the blocks.** -/
theorem groups_iff {runs : List (List Block)} {blocks : List Block} :
    Groups runs blocks ↔ runs = blocks.splitBy joins := by
  rw [eq_comm, List.splitBy_eq_iff]
  constructor
  · intro h
    refine ⟨h.flatten.symm, fun hnil => (isRun_iff.1 (h.isRun _ hnil)).1 rfl,
      fun run hrun => (isRun_iff.1 (h.isRun run hrun)).2, ?_⟩
    exact h.maximal.imp_of_mem_imp fun run next hrun hnext =>
      (isRun_append_iff (h.isRun run hrun) (h.isRun next hnext)).1
  · rintro ⟨hflatten, hnil, hchain, hmaximal⟩
    have hruns : ∀ run ∈ runs, IsRun run := fun run hrun =>
      isRun_iff.2 ⟨fun h => hnil (h ▸ hrun), hchain run hrun⟩
    exact ⟨hflatten.symm, hruns, hmaximal.imp_of_mem_imp fun run next hrun hnext =>
      (isRun_append_iff (hruns run hrun) (hruns next hnext)).2⟩

/-! ### Regions -/

theorem height_eq_sum (blocks : List Block) :
    height blocks = (blocks.map fun block => block.source.countTerminators).sum := by
  induction blocks with
  | nil => rfl
  | cons block blocks ih => rw [height, ih, List.map_cons, List.sum_cons]

/-- The region shows the run, and says of it what there is to say.  The terminator at the end of its
text is kept apart: the longest one that stands there, and none only if none does. -/
structure Presents (region : Region) (run : List Block) : Prop extends Shows region run where
  runOf : RunOf region.role.kind region.role.indent? region.role.isBlockComment run
  longest : ∀ ending ∈ region.terminator, ∀ other : LineEnding,
    other.text <:+ run.flatMap Block.text → other.text.length ≤ ending.text.length
  absent : region.terminator = none ↔
    ¬ ∃ ending : LineEnding, ending.text <:+ run.flatMap Block.text

theorem runOf_ofBlock {block : Block} {blocks : List Block} (h : IsRun (block :: blocks)) :
    RunOf (Role.ofBlock block).kind (Role.ofBlock block).indent? (Role.ofBlock block).isBlockComment
      (block :: blocks) := by
  obtain ⟨hne, hchain⟩ := isRun_iff.1 h
  rcases run_cases hne hchain with ⟨text, hrun⟩ | ⟨marker, text, hrun⟩ |
    ⟨indent, marker, items, hitems, hrun⟩
  · obtain ⟨rfl, rfl⟩ := List.cons.inj hrun
    exact .code text
  · obtain ⟨rfl, rfl⟩ := List.cons.inj hrun
    exact .blockDoc marker text
  · rw [hrun]
    cases items with
    | nil => exact absurd rfl hitems
    | cons item items =>
      obtain ⟨rfl, -⟩ := List.cons.inj hrun
      exact .inlineDocs indent marker hitems

theorem presents_showing {block : Block} {blocks : List Block} (h : IsRun (block :: blocks))
    (line : Nat) :
    Presents (showing (.ofBlock block) line ((block :: blocks).flatMap Block.text))
      (block :: blocks) where
  role := rfl
  text := text_showing ..
  runOf := runOf_ofBlock h
  longest _ hending _ hother := length_le_of_stripTerminator hending hother
  absent := stripTerminator_eq_none_iff

theorem forall₂_presents_ofRuns {runs : List (List Block)} (h : ∀ run ∈ runs, IsRun run)
    (line : Nat) : List.Forall₂ Presents (ofRuns line runs) runs := by
  induction runs generalizing line with
  | nil => exact .nil
  | cons run runs ih =>
    have hrun := h run (List.mem_cons_self ..)
    cases run with
    | nil => exact absurd rfl (isRun_iff.1 hrun).1
    | cons block blocks =>
      exact .cons (presents_showing hrun line)
        (ih (fun other ho => h other (List.mem_cons_of_mem _ ho)) _)

/-- **A region starts behind the blocks of the runs before its own.** -/
theorem map_firstLine_ofRuns {runs : List (List Block)} (hne : [] ∉ runs) (line : Nat) :
    (ofRuns line runs).map firstLine = (List.range runs.length).map fun n =>
      line + ((runs.take n).flatten.map fun block => block.source.countTerminators).sum := by
  induction runs generalizing line with
  | nil => rfl
  | cons run runs ih =>
    rw [List.mem_cons, not_or] at hne
    cases run with
    | nil => exact absurd rfl hne.1
    | cons block blocks =>
      rw [ofRuns, List.map_cons, ih hne.2, List.length_cons, List.range_succ_eq_map, List.map_cons,
        List.map_map]
      refine congrArg (line :: ·) (List.map_congr_left fun n _ => ?_)
      rw [height_eq_sum, Function.comp_apply, List.take_succ_cons, List.flatten_cons,
        List.map_append, List.sum_append, Nat.add_assoc]

/-- **Every list of blocks is shown without loss, one region for each of its runs.**  The runs are
the maximal ones; each region shows the text of its run, and starts as many lines below the first as
the blocks before its run have terminators. -/
theorem exists_presents_ofBlocks (blocks : List Block) :
    ∃ runs, (∀ other, Groups other blocks ↔ other = runs) ∧
      List.Forall₂ Presents (ofBlocks blocks) runs ∧
      (ofBlocks blocks).map firstLine = (List.range runs.length).map fun n =>
        1 + ((runs.take n).flatten.map fun block => block.source.countTerminators).sum := by
  have hgroups : Groups (blocks.splitBy joins) blocks := groups_iff.2 rfl
  exact ⟨blocks.splitBy joins, fun _ => groups_iff, forall₂_presents_ofRuns hgroups.isRun 1,
    map_firstLine_ofRuns (List.nil_notMem_splitBy joins blocks) 1⟩

end Region

end Literate
