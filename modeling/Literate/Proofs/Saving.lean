import Literate.Proofs.Commands
import Literate.Proofs.Faults

/-!
# Saving a file, or nothing

Saving asks many questions before it does anything: where the written path leads, what the file
holds, in which language, where the edited regions come from, whether they are JSON, and of every
region whether it can be written.  What is left of all that is one question.  Either something
hinders the saving (`Run.Hindered`), at whichever of the questions, or the regions of a document
can be put together to a text (`Run.Rebuilds`), and one of the two is always so
(`Run.hindered_or_rebuilds`).

In the first case there is nothing to write or to print (`Run.exists_failure_of_hindered`), in the
second there is one text (`Run.Rebuilds.rebuilt_eq`).  Since all is asked before anything is done
(`Run.runFrom_save`), the tree changes in the second case only, at the path of the file
(`Run.saved_of_rebuilds`).
-/

namespace Literate

namespace Run

/-! ## What saving needs, and what hinders it -/

/-- The document in the file that a written path leads to. -/
def Loads (config : Config) (tree : FileTree) (target : Text) (path : Path)
    (document : Document) : Prop :=
  ∃ source, tree.Holds target path source ∧
    Document.load config.registry source path.extension config.mode = .ok document

/-- The regions in the text from which edited regions are read. -/
def Receives (tree : FileTree) (input : ByteArray) (regions : Option Text)
    (edited : List EditedRegion) : Prop :=
  ∃ given : Text, Feeds tree input given.toBytes regions ∧
    (Json.ofText? given).bind EditedRegion.ofExchange? = some edited

/-- The edited regions make this text, for the file at this path. -/
def Rebuilds (config : Config) (tree : FileTree) (input : ByteArray) (target : Text)
    (regions : Option Text) (path : Path) (text : Text) : Prop :=
  ∃ document edited, Loads config tree target path document ∧
    Receives tree input regions edited ∧
    (∀ region ∈ edited, ¬ document.writer.Malformed region) ∧
    text = edited.flatMap document.writer.written

/-- There is a reason not to save the file. -/
inductive Hindered (config : Config) (tree : FileTree) (input : ByteArray) (target : Text)
    (regions : Option Text) : Prop where
  /-- The written path leads to no text, or to none that may be read. -/
  | target (h : ∀ path source, ¬ tree.Holds target path source)
  /-- The file is in no known language. -/
  | language {path : Path} {source : Text} {error : Error} (hfile : tree.Holds target path source)
    (h : Document.load config.registry source path.extension config.mode = .error error)
  /-- There is no text to read regions from. -/
  | regions (h : ∀ given : Text, ¬ Feeds tree input given.toBytes regions)
  /-- There are no regions in the text. -/
  | json {given : Text} (hgiven : Feeds tree input given.toBytes regions)
    (h : (Json.ofText? given).bind EditedRegion.ofExchange? = none)
  /-- One of the regions cannot be written, whichever it is. -/
  | region {path : Path} {document : Document} {edited : List EditedRegion} {index : Nat}
    {region : EditedRegion} (hdocument : Loads config tree target path document)
    (hedited : Receives tree input regions edited) (hregion : edited[index]? = some region)
    (h : document.writer.Malformed region)

section Saving

variable {config : Config} {tree : FileTree} {input : ByteArray} {target : Text}
  {regions : Option Text} {inPlace : Bool}

theorem Loads.exists_file {path : Path} {document : Document}
    (h : Loads config tree target path document) :
    ∃ source, SourceFile.read tree target = .ok { path, source } ∧
      SourceFile.load config { path, source } = .ok document := by
  obtain ⟨source, hholds, hload⟩ := h
  exact ⟨source, SourceFile.read_eq_ok_iff.2 hholds, mapError_eq_ok_iff.2 hload⟩

theorem Receives.editedRegions_eq {edited : List EditedRegion}
    (h : Receives tree input regions edited) : editedRegions tree input regions = .ok edited := by
  obtain ⟨given, hgiven, hdecode⟩ := h
  rw [Run.editedRegions_eq hgiven, hdecode]

/-- **Either something hinders the saving, or there is a text.** -/
theorem hindered_or_rebuilds (config : Config) (tree : FileTree) (input : ByteArray)
    (target : Text) (regions : Option Text) :
    Hindered config tree input target regions ∨
      ∃ path text, Rebuilds config tree input target regions path text := by
  by_cases hfile : ∃ path source, tree.Holds target path source
  swap
  · simp only [not_exists] at hfile
    exact Or.inl (.target hfile)
  obtain ⟨path, source, hfile⟩ := hfile
  cases hload : Document.load config.registry source path.extension config.mode with
  | error error => exact Or.inl (.language hfile hload)
  | ok document =>
    by_cases hgiven : ∃ given : Text, Feeds tree input given.toBytes regions
    swap
    · simp only [not_exists] at hgiven
      exact Or.inl (.regions hgiven)
    obtain ⟨given, hgiven⟩ := hgiven
    cases hdecode : (Json.ofText? given).bind EditedRegion.ofExchange? with
    | none => exact Or.inl (.json hgiven hdecode)
    | some edited =>
      have hdocument : Loads config tree target path document := ⟨source, hfile, hload⟩
      have hedited : Receives tree input regions edited := ⟨given, hgiven, hdecode⟩
      by_cases hregions : ∀ region ∈ edited, ¬ document.writer.Malformed region
      · exact Or.inr ⟨path, _, document, edited, hdocument, hedited, hregions, rfl⟩
      · simp only [not_forall, not_not] at hregions
        obtain ⟨region, hmem, hmalformed⟩ := hregions
        obtain ⟨index, hregion⟩ := List.mem_iff_getElem?.1 hmem
        exact Or.inl (.region hdocument hedited hregion hmalformed)

theorem exists_failure_of_hindered (h : Hindered config tree input target regions) :
    ∃ failure, rebuilt config tree input target regions = .error failure := by
  cases hrebuilt : rebuilt config tree input target regions with
  | error failure => exact ⟨failure, rfl⟩
  | ok found =>
    exfalso
    obtain ⟨file, document, edited, hfile, hload, hedited, htext⟩ := exists_of_rebuilt hrebuilt
    cases h with
    | target h => exact h _ _ (SourceFile.read_eq_ok_iff.1 hfile)
    | @language path source _ hholds h =>
      have hfile' : SourceFile.read tree target = .ok { path, source } :=
        SourceFile.read_eq_ok_iff.2 hholds
      obtain rfl := Except.ok.inj (hfile.symm.trans hfile')
      rw [SourceFile.load, mapError_eq_ok_iff, h] at hload
      cases hload
    | regions h =>
      obtain ⟨given, hgiven⟩ := exists_feeds_of_editedRegions hedited
      exact h given hgiven
    | json hgiven h =>
      rw [Run.editedRegions_eq hgiven, h] at hedited
      cases hedited
    | region hdocument hreceived hregion h =>
      obtain ⟨source, hfile', hload'⟩ := hdocument.exists_file
      obtain rfl := Except.ok.inj (hfile.symm.trans hfile')
      obtain rfl := Except.ok.inj (hload.symm.trans hload')
      obtain rfl := Except.ok.inj (hedited.symm.trans hreceived.editedRegions_eq)
      have hnone := (RegionWriter.write_eq_ok_iff.1 htext).1 _ (List.mem_of_getElem? hregion)
      exact RegionWriter.fault?_eq_none_iff.1 hnone h

theorem Rebuilds.rebuilt_eq {path : Path} {text : Text}
    (h : Rebuilds config tree input target regions path text) :
    rebuilt config tree input target regions = .ok (path, text) := by
  obtain ⟨document, edited, hdocument, hedited, hregions, rfl⟩ := h
  obtain ⟨source, hfile, hload⟩ := hdocument.exists_file
  have hsave : document.save edited = .ok (edited.flatMap document.writer.written) := by
    apply RegionWriter.write_of_fault?_eq_none
    intro region hmem
    exact RegionWriter.fault?_eq_none_iff.2 (hregions region hmem)
  rw [Run.rebuilt_eq hfile hload hedited.editedRegions_eq, SourceFile.save, hsave]
  rfl

/-! ## The tree afterwards -/

/-- The command failed and did nothing. -/
structure Refused (tree : FileTree) (outcome : Outcome) : Prop where
  status : ∃ failure, outcome.status = .failed failure
  output : outcome.output = []
  after : tree.after outcome = tree

/-- The command put a text in the place of a file or printed it, and did nothing else. -/
structure Saved (tree : FileTree) (inPlace : Bool) (path : Path) (text : Text)
    (outcome : Outcome) : Prop where
  status : outcome.status = .success
  output : outcome.output = if inPlace then [] else text
  after : if inPlace then tree.Overwritten path text.toBytes (tree.after outcome)
    else tree.after outcome = tree

theorem refused_of_hindered (h : Hindered config tree input target regions) (inPlace : Bool) :
    Refused tree (outcome config tree input (.save target regions inPlace)) := by
  obtain ⟨failure, hfailure⟩ := exists_failure_of_hindered h
  rw [outcome_save, hfailure]
  exact ⟨⟨failure, rfl⟩, rfl, rfl⟩

theorem saved_of_rebuilds {path : Path} {text : Text}
    (h : Rebuilds config tree input target regions path text) (inPlace : Bool) :
    Saved tree inPlace path text (outcome config tree input (.save target regions inPlace)) := by
  rw [outcome_save, h.rebuilt_eq]
  obtain ⟨document, edited, ⟨source, hholds, -⟩, -⟩ := h
  cases inPlace with
  | false => exact ⟨rfl, rfl, rfl⟩
  | true => exact ⟨rfl, rfl, FileTree.overwritten_write hholds.file text.toBytes⟩

end Saving

/-- **Saving does all of its work, or nothing.**  The command fails exactly if something hinders
it, and then nothing is printed and the tree is what it was.  Otherwise the edited regions make a
text.  Saved in place, it becomes the content of the file that the written path leads to, no other
entry changes, and nothing is printed; else exactly this text is printed, and the tree is what it
was. -/
theorem save_all_or_nothing (config : Config) (tree : FileTree) (input : ByteArray)
    (target : Text) (regions : Option Text) (inPlace : Bool) :
    (Hindered config tree input target regions ∧
      Refused tree (outcome config tree input (.save target regions inPlace))) ∨
    (¬ Hindered config tree input target regions ∧
      ∃ path text, Rebuilds config tree input target regions path text ∧
        Saved tree inPlace path text
          (outcome config tree input (.save target regions inPlace))) := by
  by_cases h : Hindered config tree input target regions
  · exact Or.inl ⟨h, refused_of_hindered h inPlace⟩
  · obtain ⟨path, text, hrebuilds⟩ := (hindered_or_rebuilds ..).resolve_left h
    exact Or.inr ⟨h, path, text, hrebuilds, saved_of_rebuilds hrebuilds inPlace⟩

end Run

end Literate
