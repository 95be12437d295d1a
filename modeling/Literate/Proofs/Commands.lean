import Literate.Command.Run
import Literate.Proofs.FileTrees

/-!
# What commands do

A command is run step by step on the outcome so far.  Saving asks for the file, the document, the
edited regions and the text, and then writes or prints the text: it is one question
(`Run.rebuilt`) and one effect behind it,

  `(save …).runFrom done = (if inPlace then write path text else print text).runFrom done`,

or nothing at all if the question has no answer (`Run.runFrom_save`).

Which files can be read is said of the tree alone: a written path leads to a file that may be read,
with a text in it (`SourceFile.read_eq_ok_iff`).
-/

namespace Literate

theorem exists_ok_of_bind {ε α β : Type} {first : Except ε α} {second : α → Except ε β}
    {result : β} (h : first >>= second = .ok result) :
    ∃ value, first = .ok value ∧ second value = .ok result := by
  cases first with
  | error error => cases h
  | ok value => exact ⟨value, rfl, h⟩

theorem mapError_eq_ok_iff {ε ε' α : Type} {f : ε → ε'} {result : Except ε α} {value : α} :
    result.mapError f = .ok value ↔ result = .ok value := by
  cases result <;> simp [Except.mapError]

/-! ## Texts in files -/

namespace Text

theorem ofBytes?_toBytes (text : Text) : ofBytes? text.toBytes = some text := by
  have hread : String.fromUTF8? (String.ofList text).toUTF8 = some (String.ofList text) :=
    dif_pos (String.ofList text).isValidUTF8
  rw [ofBytes?, toBytes, hread, Option.map_some, String.toList_ofList]

theorem ofBytes?_eq_some_iff {bytes : ByteArray} {text : Text} :
    ofBytes? bytes = some text ↔ bytes = text.toBytes := by
  constructor
  · intro h
    obtain ⟨string, hstring, rfl⟩ := Option.map_eq_some_iff.1 h
    rw [String.fromUTF8?] at hstring
    split at hstring
    · obtain rfl := Option.some.inj hstring
      rw [toBytes, String.ofList_toList]
      rfl
    · cases hstring
  · intro h
    rw [h, ofBytes?_toBytes]

end Text

namespace FileTree

variable {tree : FileTree} {written : Text} {path : Path} {content : ByteArray}

theorem locate_eq (hresolve : tree.resolve written = .ok path)
    (hread : tree.readAt? path = some content) : tree.locate written = .ok path := by
  obtain ⟨hway, hentry⟩ := readAt?_eq_some_iff.1 hread
  simp only [locate, hresolve, hway, hentry, if_true]

theorem resolve_eq_of_locate (h : tree.locate written = .ok path) :
    tree.resolve written = .ok path := by
  rw [locate] at h
  cases hresolve : tree.resolve written with
  | error error =>
    rw [hresolve] at h
    cases h
  | ok place =>
    rw [hresolve] at h
    dsimp only at h
    split at h
    · split at h <;> cases h <;> rfl
    · rw [Except.ok.inj h]

theorem readable_eq_ok_iff :
    tree.readable written = .ok (path, content) ↔
      tree.resolve written = .ok path ∧ tree.readAt? path = some content := by
  constructor
  · intro h
    obtain ⟨place, hlocate, h⟩ := exists_ok_of_bind h
    split at h
    · rename_i hread
      obtain ⟨rfl, rfl⟩ := Prod.mk.inj (Except.ok.inj h)
      exact ⟨resolve_eq_of_locate hlocate, hread⟩
    · cases h
  · rintro ⟨hresolve, hread⟩
    simp only [readable, locate_eq hresolve hread, bind, Except.bind, hread]

/-- A written path leads to a file with a text, which may be read. -/
structure Holds (tree : FileTree) (written : Text) (path : Path) (text : Text) : Prop where
  leads : tree.resolve written = .ok path
  searchable : tree.searchable path.dropLast = true
  file : tree.entry? path = some (.file text.toBytes)

theorem Holds.readAt?_eq {text : Text} (h : tree.Holds written path text) :
    tree.readAt? path = some text.toBytes :=
  readAt?_eq_some_iff.2 ⟨h.searchable, h.file⟩

end FileTree

theorem SourceFile.read_eq_ok_iff {tree : FileTree} {written : Text} {file : SourceFile} :
    read tree written = .ok file ↔ tree.Holds written file.path file.source := by
  constructor
  · intro h
    obtain ⟨⟨path, content⟩, hreadable, h⟩ := exists_ok_of_bind h
    obtain ⟨hleads, hread⟩ := FileTree.readable_eq_ok_iff.1 hreadable
    obtain ⟨hsearchable, hentry⟩ := FileTree.readAt?_eq_some_iff.1 hread
    dsimp only at h
    split at h
    · rename_i source hsource
      obtain rfl := Except.ok.inj h
      exact ⟨hleads, hsearchable, Text.ofBytes?_eq_some_iff.1 hsource ▸ hentry⟩
    · cases h
  · intro h
    simp only [read, FileTree.readable_eq_ok_iff.2 ⟨h.leads, h.readAt?_eq⟩, bind, Except.bind,
      Text.ofBytes?_toBytes]

namespace Run

open Literate.Action

section Feeding

variable {tree : FileTree} {input : ByteArray} {regions : Option Text}

/-- The edited regions are read from these bytes: they are in the file that is named, or else they
are the standard input. -/
def Feeds (tree : FileTree) (input : ByteArray) (bytes : ByteArray) : Option Text → Prop
  | none => input = bytes
  | some written => ∃ path, tree.readable written = .ok (path, bytes)

/-- A text with edited regions is decoded, unless it is not JSON with regions in it. -/
theorem editedRegions_eq {given : Text} (h : Feeds tree input given.toBytes regions) :
    editedRegions tree input regions =
      match (Json.ofText? given).bind EditedRegion.ofExchange? with
      | some edited => .ok edited
      | none => .error .invalidRegions := by
  cases regions with
  | none =>
    obtain rfl : input = given.toBytes := h
    simp only [editedRegions, bind, Except.bind, Text.ofBytes?_toBytes]
    cases (Json.ofText? given).bind EditedRegion.ofExchange? <;> rfl
  | some written =>
    obtain ⟨path, hpath⟩ := h
    obtain ⟨hresolve, hread⟩ := FileTree.readable_eq_ok_iff.1 hpath
    simp only [editedRegions, FileTree.locate_eq hresolve hread, hread, bind, Except.bind,
      Text.ofBytes?_toBytes]
    cases (Json.ofText? given).bind EditedRegion.ofExchange? <;> rfl

theorem exists_feeds_of_editedRegions {edited : List EditedRegion}
    (h : editedRegions tree input regions = .ok edited) :
    ∃ given : Text, Feeds tree input given.toBytes regions := by
  cases regions with
  | none =>
    cases hgiven : Text.ofBytes? input with
    | none =>
      simp only [editedRegions, bind, Except.bind, hgiven] at h
      cases h
    | some given => exact ⟨given, Text.ofBytes?_eq_some_iff.1 hgiven⟩
  | some written =>
    obtain ⟨path, hlocate, h⟩ := exists_ok_of_bind h
    cases hread : tree.readAt? path with
    | none =>
      simp only [hread, bind, Except.bind] at h
      cases h
    | some bytes =>
      have hreadable : tree.readable written = .ok (path, bytes) :=
        FileTree.readable_eq_ok_iff.2 ⟨FileTree.resolve_eq_of_locate hlocate, hread⟩
      cases hgiven : Text.ofBytes? bytes with
      | none =>
        simp only [hread, bind, Except.bind, hgiven] at h
        cases h
      | some given => exact ⟨given, path, Text.ofBytes?_eq_some_iff.1 hgiven ▸ hreadable⟩

end Feeding

/-! ## Loading -/

theorem command_load {tree : FileTree} {written : Text} {file : SourceFile}
    (hfile : SourceFile.read tree written = .ok file) (config : Config) (input : ByteArray) :
    command config tree input (.load written) =
      (file.load config).map fun document => { output := load document } := by
  have hload : loadFile config (tree.after {}) written = file.load config := by
    rw [loadFile, show SourceFile.read (tree.after {}) written = .ok file from hfile]
    rfl
  simp only [command, action, display, runFrom_bind, runFrom_look, runFrom_lift, hload]
  cases file.load config <;> rfl

/-! ## Saving -/

/-- What saving finds out before it does anything: the path of the file, and its new text. -/
def rebuilt (config : Config) (tree : FileTree) (input : ByteArray) (written : Text)
    (regions : Option Text) : Except Failure (Path × Text) := do
  let file ← SourceFile.read tree written
  let document ← file.load config
  let edited ← editedRegions tree input regions
  let text ← file.save document edited
  .ok (file.path, text)

section Saving

variable {config : Config} {tree : FileTree} {input : ByteArray} {written : Text}
  {regions : Option Text}

/-- **Saving asks all its questions first.** -/
theorem runFrom_save (config : Config) (tree : FileTree) (input : ByteArray) (written : Text)
    (regions : Option Text) (inPlace : Bool) (done : Outcome) :
    (save config tree input written regions inPlace).runFrom done =
      match rebuilt config (tree.after done) input written regions with
      | .ok (path, text) => (if inPlace then write path text else print text).runFrom done
      | .error failure => (.error failure, done) := by
  simp only [save, runFrom_bind, runFrom_look, runFrom_lift, rebuilt]
  cases hfile : SourceFile.read (tree.after done) written with
  | error failure => rfl
  | ok file =>
    cases hload : file.load config with
    | error failure => simp only [bind, Except.bind, hload]
    | ok document =>
      cases hedited : editedRegions (tree.after done) input regions with
      | error failure => simp only [bind, Except.bind, hload, hedited]
      | ok edited =>
        cases hsave : file.save document edited <;>
          simp only [bind, Except.bind, hload, hedited, hsave]

theorem rebuilt_eq {file : SourceFile} {document : Document} {edited : List EditedRegion}
    (hfile : SourceFile.read tree written = .ok file) (hload : file.load config = .ok document)
    (hedited : editedRegions tree input regions = .ok edited) :
    rebuilt config tree input written regions =
      (file.save document edited).map fun text => (file.path, text) := by
  cases hsave : file.save document edited <;>
    simp only [rebuilt, hfile, hload, hedited, hsave, bind, Except.bind, Except.map]

theorem exists_of_rebuilt {path : Path} {text : Text}
    (h : rebuilt config tree input written regions = .ok (path, text)) :
    ∃ file document edited, SourceFile.read tree written = .ok file ∧
      file.load config = .ok document ∧ editedRegions tree input regions = .ok edited ∧
      document.save edited = .ok text := by
  obtain ⟨file, hfile, h⟩ := exists_ok_of_bind h
  obtain ⟨document, hload, h⟩ := exists_ok_of_bind h
  obtain ⟨edited, hedited, h⟩ := exists_ok_of_bind h
  obtain ⟨saved, hsave, h⟩ := exists_ok_of_bind h
  obtain ⟨-, rfl⟩ := Prod.mk.inj (Except.ok.inj h)
  exact ⟨file, document, edited, hfile, hload, hedited, mapError_eq_ok_iff.1 hsave⟩

theorem outcome_save (config : Config) (tree : FileTree) (input : ByteArray) (written : Text)
    (regions : Option Text) (inPlace : Bool) :
    outcome config tree input (.save written regions inPlace) =
      match rebuilt config tree input written regions with
      | .ok (path, text) =>
        if inPlace then { written := some (path, text) } else { output := text }
      | .error failure => { status := .failed failure } := by
  rw [outcome, action, runFrom_save, FileTree.after]
  cases rebuilt config tree input written regions with
  | error failure => rfl
  | ok found => cases inPlace <;> rfl

theorem command_save {file : SourceFile} {document : Document} {edited : List EditedRegion}
    (hfile : SourceFile.read tree written = .ok file) (hload : file.load config = .ok document)
    (hedited : editedRegions tree input regions = .ok edited) (inPlace : Bool) :
    command config tree input (.save written regions inPlace) =
      match document.save edited with
      | .ok text =>
        .ok (if inPlace then { written := some (file.path, text) } else { output := text })
      | .error error => .error (.document file.path error) := by
  rw [command, action, runFrom_save, FileTree.after, rebuilt_eq hfile hload hedited,
    SourceFile.save]
  cases document.save edited with
  | error error => rfl
  | ok text => cases inPlace <;> rfl

end Saving

end Run

end Literate
