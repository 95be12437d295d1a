import Literate.Proofs.Commands
import Literate.Proofs.JsonText
import Literate.Proofs.LineNumbers

/-!
# What was handed out can be handed back

A loaded document is printed as a JSON object, in which a region has fields that do not come back
(`first_line`, `block_comment`) and leaves out those that have no value.  Read as edited regions,
the object is the document with nothing edited,

  `ofExchange? document.toJson = some document.editedRegions`   (`ofExchange?_toJson`),

because the fields that matter are looked up one by one: each of them stands there once, or not at
all (`Json.field?_of_filter`).

The text that is printed reads back as the object (`ofText?_load`), so that saving what was loaded
does what saving the unedited document does (`load_save`).
-/

namespace Literate

namespace Json

/-! ## Looking up fields -/

theorem filter_optionalField (name key : Text) (value : Option Json) :
    (optionalField name value).filter (·.1 == key) =
      if name == key then optionalField name value else [] := by
  cases value with
  | none => simp [optionalField]
  | some value => simp [optionalField, List.filter_cons]

theorem field?_of_filter {fields : List (Text × Json)} {key : Text} {value : Option Json}
    (h : fields.filter (·.1 == key) = optionalField key value) :
    field? fields key = some value := by
  rw [field?, h]
  cases value <;> rfl

theorem asOptionalString?_map_string (value : Option Text) :
    asOptionalString? (value.map .string) = some value := by
  cases value <;> rfl

end Json

/-! ## Regions -/

namespace Region

open Json

/-- The fields of a region.  Every one of them is an optional field. -/
def fields (region : Region) : List (Text × Json) :=
  optionalField "kind" (some (.string region.role.kind.name)) ++
  optionalField "first_line" (some (.ofNat region.firstLine)) ++
  optionalField "indent" (region.role.indent?.map .string) ++
  optionalField "block_comment" (if region.role.isBlockComment then some (.bool true) else none) ++
  optionalField "content" (some (.string region.content)) ++
  optionalField "terminator" ((region.terminator.map LineEnding.text).map .string)

theorem toJson_eq (region : Region) : region.toJson = .object region.fields := by
  have hblock : (if region.role.isBlockComment then field "block_comment" (.bool true) else []) =
      optionalField "block_comment"
        (if region.role.isBlockComment then some (.bool true) else none) := by
    cases region.role.isBlockComment <;> rfl
  rw [toJson, hblock, fields, Option.map_map]
  rfl

theorem readable_fields {region : Region} (h : region.firstLine < UInt64.size) (room : Nat) :
    ∀ field ∈ region.fields, Readable room field.2 := by
  have hoptional : ∀ (key : Text) (value : Option Json), (∀ json ∈ value, Readable room json) →
      ∀ field ∈ optionalField key value, Readable room field.2 := by
    intro key value hvalue field hfield
    obtain ⟨json, hjson, rfl⟩ := List.mem_map.1 hfield
    exact hvalue json (Option.mem_toList.1 hjson)
  have hstring : ∀ (value : Option Text), ∀ json ∈ value.map Json.string, Readable room json := by
    intro value json hjson
    obtain ⟨text, -, rfl⟩ := Option.map_eq_some_iff.1 hjson
    exact .string text
  simp only [fields, List.forall_mem_append]
  refine ⟨⟨⟨⟨⟨hoptional _ _ ?_, hoptional _ _ ?_⟩, hoptional _ _ (hstring _)⟩, hoptional _ _ ?_⟩,
    hoptional _ _ ?_⟩, hoptional _ _ (hstring _)⟩
  · exact hstring (some _)
  · rintro json ⟨⟩
    exact .ofNat h
  · intro json hjson
    split at hjson
    · obtain rfl := Option.mem_some.1 hjson
      exact .bool true
    · cases hjson
  · exact hstring (some _)

end Region

namespace EditedRegion

open Json

/-- **A region comes back** as it does when nothing was edited. -/
theorem ofJson?_toJson (region : Region) : ofJson? region.toJson = some (ofRegion region) := by
  have hkind : field? region.fields "kind" = some (some (.string region.role.kind.name)) :=
    field?_of_filter (by simp [Region.fields, filter_optionalField])
  have hindent : field? region.fields "indent" = some (region.role.indent?.map .string) :=
    field?_of_filter (by simp [Region.fields, filter_optionalField])
  have hcontent : field? region.fields "content" = some (some (.string region.content)) :=
    field?_of_filter (by simp [Region.fields, filter_optionalField])
  have hterminator : field? region.fields "terminator" =
      some ((region.terminator.map LineEnding.text).map .string) :=
    field?_of_filter (by simp [Region.fields, filter_optionalField])
  rw [Region.toJson_eq, ofJson?, ofFields?, hkind, hindent, hcontent, hterminator]
  simp only [Option.bind_eq_bind, Option.bind_some, asString?, asOptionalString?_map_string]
  rfl

end EditedRegion

/-! ## Documents -/

namespace Document

theorem ofExchange?_toJson (document : Document) :
    EditedRegion.ofExchange? document.toJson = some document.editedRegions := by
  have hregions : Json.field? [("language", .string document.language.name),
      ("mode", .string document.mode.name), ("line_ending", .string document.lineEnding.name),
      ("regions", .array (document.regions.map Region.toJson))] "regions" =
        some (some (.array (document.regions.map Region.toJson))) := by
    simp [Json.field?]
  have hitems : (document.regions.map Region.toJson).mapM EditedRegion.ofJson? =
      some document.editedRegions := by
    have hregion : EditedRegion.ofJson? ∘ Region.toJson = pure ∘ EditedRegion.ofRegion :=
      funext EditedRegion.ofJson?_toJson
    rw [List.mapM_map, hregion]
    exact List.mapM_pure
  rw [toJson, EditedRegion.ofExchange?, hregions]
  exact hitems

theorem readable_toJson {document : Document}
    (h : ∀ region ∈ document.regions, region.firstLine < UInt64.size) (room : Nat) :
    Json.Readable (room + 3) document.toJson := by
  refine .object ?_
  simp only [List.forall_mem_cons]
  refine ⟨.string _, .string _, .string _, .array ?_, nofun⟩
  intro json hjson
  obtain ⟨region, hregion, rfl⟩ := List.mem_map.1 hjson
  rw [Region.toJson_eq]
  exact .object (Region.readable_fields (h region hregion) room)

theorem ofText?_load {document : Document}
    (h : ∀ region ∈ document.regions, region.firstLine < UInt64.size) :
    Json.ofText? (Run.load document) = some document.toJson :=
  Json.ofText?_pretty (readable_toJson h 124)

end Document

/-! ## Line numbers -/

namespace Region

theorem countTerminators_le_length (text : Text) : text.countTerminators ≤ text.length :=
  calc text.countTerminators
    _ ≤ text.countP isLineBreak := by
      have := Text.countTerminators_add_pairs text
      omega
    _ ≤ text.length := List.countP_le_length

theorem height_le_length (blocks : List Block) :
    height blocks ≤ (Block.sourceOf blocks).length := by
  induction blocks with
  | nil => exact Nat.le_refl 0
  | cons block blocks ih =>
    rw [height, Block.sourceOf_cons, List.length_append]
    exact Nat.add_le_add (countTerminators_le_length block.source) ih

theorem firstLine_le_of_mem_ofBlocks {blocks : List Block} {region : Region}
    (h : region ∈ ofBlocks blocks) :
    region.firstLine ≤ 1 + (Block.sourceOf blocks).length := by
  obtain ⟨before, after, hsplit⟩ := List.append_of_mem h
  obtain ⟨front, run, back, hruns, -, -, hline, -⟩ :=
    exists_run_of_ofRuns (List.nil_notMem_splitBy joins blocks) hsplit
  have hblocks : blocks = front.flatten ++ (run :: back).flatten := by
    rw [← List.flatten_append, ← hruns, List.flatten_splitBy]
  have hheight := height_le_length front.flatten
  rw [hline, hblocks, Block.sourceOf_append, List.length_append]
  omega

end Region

theorem Document.firstLine_le {language : Language} {source : Text} {mode : EditorMode}
    {region : Region} (h : region ∈ (ofSource language source mode).regions) :
    region.firstLine ≤ 1 + source.length := by
  have hwhole : ∀ role, region ∈ Region.whole role source →
      region.firstLine ≤ 1 + source.length := by
    intro role hmem
    by_cases hempty : source.isEmpty = true
    · rw [Region.whole, if_pos hempty] at hmem
      cases hmem
    · rw [Region.whole, if_neg hempty] at hmem
      obtain rfl := List.mem_singleton.1 hmem
      exact Nat.le_add_right 1 source.length
  by_cases hdoc : language.docOnly = true
  · simp only [ofSource, if_pos hdoc] at h
    exact hwhole .document h
  by_cases hraw : mode = .raw
  · simp only [ofSource, if_neg hdoc, if_pos hraw] at h
    exact hwhole .code h
  · have hclassified : ¬ (language.docOnly || decide (mode = .raw)) = true := by simp [hdoc, hraw]
    simp only [ofSource, if_neg hdoc, if_neg hraw, if_neg hclassified] at h
    have hle := Region.firstLine_le_of_mem_ofBlocks h
    rwa [Language.classify_eq_blocksFrom, Language.sourceOf_blocksFrom] at hle

theorem Document.firstLine_le_of_load {registry : Registry} {source extension : Text}
    {mode : EditorMode} {document : Document}
    (h : load registry source extension mode = .ok document) {region : Region}
    (hregion : region ∈ document.regions) : region.firstLine ≤ 1 + source.length := by
  rw [load] at h
  cases hresolve : registry.resolveSource source extension with
  | error error =>
    rw [hresolve] at h
    cases h
  | ok language =>
    rw [hresolve] at h
    obtain rfl := Except.ok.inj h
    exact firstLine_le hregion

/-- **What loading prints is faithful input to saving.**  Read as edited regions, the object that is
printed is the document with nothing edited, whatever the document is.  So saving a file that did
not change from what loading it printed, through standard input or through another file, gives the
text of the unedited regions, or fails as they do.  The numbers of the lines have to fit into 64
bits. -/
theorem load_save :
    (∀ document : Document,
      EditedRegion.ofExchange? document.toJson = some document.editedRegions) ∧
    ∀ (config : Config) (before after : FileTree) (input input' : ByteArray) (written : Text)
      (file : SourceFile) (printed : Outcome) (regions : Option Text) (inPlace : Bool),
      SourceFile.read before written = .ok file → SourceFile.read after written = .ok file →
      1 + file.source.length < UInt64.size →
      Run.command config before input (.load written) = .ok printed →
      Run.Feeds after input' printed.output.toBytes regions →
      ∃ document,
        Document.load config.registry file.source file.path.extension config.mode =
          .ok document ∧
        Json.ofText? printed.output = some document.toJson ∧
        Run.command config after input' (.save written regions inPlace) =
          match document.save document.editedRegions with
          | .ok text =>
            .ok (if inPlace then { written := some (file.path, text) } else { output := text })
          | .error error => .error (.document file.path error) := by
  refine ⟨Document.ofExchange?_toJson, ?_⟩
  intro config before after input input' written file printed regions inPlace hbefore hafter hsize
    hprinted hfeeds
  rw [Run.command_load hbefore, SourceFile.load] at hprinted
  cases hload : Document.load config.registry file.source file.path.extension config.mode with
  | error error =>
    rw [hload] at hprinted
    cases hprinted
  | ok document =>
    rw [hload] at hprinted
    obtain rfl : { output := Run.load document } = printed := Except.ok.inj hprinted
    have hlines : ∀ region ∈ document.regions, region.firstLine < UInt64.size := by
      intro region hregion
      exact Nat.lt_of_le_of_lt (Document.firstLine_le_of_load hload hregion) hsize
    have htext := Document.ofText?_load hlines
    have hedited : Run.editedRegions after input' regions = .ok document.editedRegions := by
      rw [Run.editedRegions_eq hfeeds, htext, Option.bind_some, Document.ofExchange?_toJson]
    have hfile : file.load config = .ok document := by rw [SourceFile.load, hload]; rfl
    exact ⟨document, rfl, htext, Run.command_save hafter hfile hedited inPlace⟩

/-- A file in the root directory, loaded and saved in its place. -/
theorem load_save_python :
    Run.command {} { entries := [(["a.py"], .file (Text.toBytes "x\r\n#\n  # a"))] } .empty
        (.load "/a.py") =
      .ok { output := Run.load (Document.ofSource .python "x\r\n#\n  # a" .edit) } ∧
    Run.command {} { entries := [(["a.py"], .file (Text.toBytes "x\r\n#\n  # a"))] }
        (Run.load (Document.ofSource .python "x\r\n#\n  # a" .edit)).toBytes
        (.save "/a.py" none true) =
      .ok { written := some (["a.py"], "x\r\n# \n  # a\r\n") } := by
  have hresolve : ∀ content, FileTree.resolve { entries := [(["a.py"], .file content)] } "/a.py" =
      .ok ["a.py"] := by
    intro content
    have hentry : FileTree.entry? { entries := [([['a', '.', 'p', 'y']], .file content)] }
        [['a', '.', 'p', 'y']] = some (.file content) := rfl
    have hsearchable : FileTree.searchable { entries := [([['a', '.', 'p', 'y']], .file content)] }
        [] = true := rfl
    have hfits : Path.fits [['a', '.', 'p', 'y']] = true := by decide
    have hname : Text.byteSize ['a', '.', 'p', 'y'] ≤ Path.longestName := by decide
    simp [FileTree.resolve, FileTree.follow, Path.split, Path.stays, hsearchable, hfits, hname,
      hentry]
  have hread : SourceFile.read
      { entries := [(["a.py"], .file (Text.toBytes "x\r\n#\n  # a"))] } "/a.py" =
        .ok { path := ["a.py"], source := "x\r\n#\n  # a" } :=
    SourceFile.read_eq_ok_iff.2 ⟨hresolve _, rfl, rfl⟩
  have hload : Document.load (Config.registry {}) "x\r\n#\n  # a" (Path.extension ["a.py"])
      (Config.mode {}) = .ok (Document.ofSource .python "x\r\n#\n  # a" .edit) := by
    decide +kernel
  have hprinted := Run.command_load hread {} .empty
  rw [SourceFile.load, hload] at hprinted
  obtain ⟨document, hdocument, -, hsave⟩ :=
    load_save.2 {} _ _ .empty _ "/a.py" _ _ none true hread hread (by decide) hprinted rfl
  obtain rfl := Except.ok.inj (hload.symm.trans hdocument)
  have hsaved : (Document.ofSource .python "x\r\n#\n  # a" .edit).save
      (Document.ofSource .python "x\r\n#\n  # a" .edit).editedRegions =
        .ok "x\r\n# \n  # a\r\n" := by
    decide +kernel
  rw [hsaved] at hsave
  exact ⟨hprinted, hsave⟩

end Literate
