import Literate.Proofs.Openings
import Literate.Proofs.RoundTrip

/-!
# Loading a saved document again

A document is saved and loaded again with the same extension.  Its language is the same as before if
the directive is, and the directive depends on the first line alone (`directiveName?_firstLine`).
So what counts is the first line of the saved text, and that depends on the first run:

* code is written as it is;
* an inline comment keeps its first line, but for the space that is put after a bare marker, and a
  bare marker is no directive;
* a block comment gets the marker of an inline comment before its first line, and if there is code
  before it on its line, it moves to the next line.

So the language can change only if a block comment starts on the first line
(`resolveSource_saved`).
-/

namespace Literate

namespace Text

/-! ### The first line -/

/-- The text up to its first line break. -/
def firstLine (text : Text) : Text :=
  text.takeWhile fun c => !isLineBreak c

theorem firstLine_append_of_unbroken {a : Text} (h : a.Unbroken) (b : Text) :
    (a ++ b).firstLine = a ++ b.firstLine :=
  List.takeWhile_append_of_pos fun c hc => by simp [h c hc]

theorem firstLine_of_unbroken {text : Text} (h : text.Unbroken) : text.firstLine = text := by
  have happend := firstLine_append_of_unbroken h []
  rwa [List.append_nil, show firstLine [] = [] from rfl, List.append_nil] at happend

theorem firstLine_cons_break {c : Char} (hc : isLineBreak c = true) (rest : Text) :
    firstLine (c :: rest) = [] :=
  List.takeWhile_cons_of_neg (by simp [hc])

theorem exists_break {text : Text} (h : ¬ text.Unbroken) :
    ∃ line c rest, line.Unbroken ∧ isLineBreak c = true ∧ text = line ++ c :: rest := by
  rcases exists_line text with hu | ⟨line, ending, rest, hline, _, rfl⟩
  · exact absurd hu h
  · cases ending with
    | lf => exact ⟨line, '\n', rest, hline, rfl, by simp [LineEnding.text]⟩
    | crlf => exact ⟨line, '\r', '\n' :: rest, hline, rfl, by simp [LineEnding.text]⟩
    | cr => exact ⟨line, '\r', rest, hline, rfl, by simp [LineEnding.text]⟩

theorem firstLine_append_break {line : Text} (hline : line.Unbroken) {c : Char}
    (hc : isLineBreak c = true) (rest : Text) : firstLine (line ++ c :: rest) = line := by
  rw [firstLine_append_of_unbroken hline, firstLine_cons_break hc, List.append_nil]

theorem firstLine_append_of_not_unbroken {a : Text} (h : ¬ a.Unbroken) (b : Text) :
    (a ++ b).firstLine = a.firstLine := by
  obtain ⟨line, c, rest, hline, hc, rfl⟩ := exists_break h
  rw [List.append_assoc, List.cons_append, firstLine_append_break hline hc,
    firstLine_append_break hline hc]

theorem firstLine_append_ending (text : Text) (ending : LineEnding) :
    (text ++ ending.text).firstLine = text.firstLine := by
  by_cases h : text.Unbroken
  · rw [firstLine_append_of_unbroken h, firstLine_of_unbroken h]
    cases ending <;> exact List.append_nil _
  · exact firstLine_append_of_not_unbroken h _

theorem firstLine_stripTerminator (text : Text) :
    text.stripTerminator.1.firstLine = text.firstLine := by
  by_cases h : text.EndsLine
  · obtain ⟨content, ending, rfl, hcut⟩ := exists_ending h
    rw [stripTerminator_append hcut, firstLine_append_ending]
  · rw [stripTerminator_of_not_endsLine h]

theorem EndsLine.not_unbroken {text : Text} (h : text.EndsLine) : ¬ text.Unbroken :=
  fun hu => hu.not_endsLine h

end Text

/-! ### The directive stands on the first line -/

namespace Registry

open Text

theorem isNameCharacter_of_isLineBreak {c : Char} (h : isLineBreak c = true) :
    isNameCharacter c = false := by
  rcases isLineBreak_iff.1 h with rfl | rfl <;> decide +kernel

theorem nameAfter?_append_break {word : Text} (hword : word.Unbroken) {c : Char}
    (hc : isLineBreak c = true) (line rest : Text) :
    nameAfter? word (line ++ c :: rest) = nameAfter? word line := by
  have hcolon : (word ++ [':']).Unbroken :=
    unbroken_append.2 ⟨hword, unbroken_cons.2 ⟨rfl, unbroken_nil⟩⟩
  rw [nameAfter?, nameAfter?, isPrefixOf_append_break hc rest _ line hcolon]
  split
  · next hfront =>
    obtain ⟨more, rfl⟩ := List.isPrefixOf_iff_prefix.1 hfront
    have hdrop : ∀ tail : Text, (word ++ [':'] ++ tail).drop (word.length + 1) = tail :=
      fun tail => List.drop_left' (by simp)
    -- the spaces, the tabs and the name all end at the line break
    have hspace : (c == ' ' || c == '\t') = false := by
      rcases isLineBreak_iff.1 hc with rfl | rfl <;> rfl
    have hname : ∀ tail : Text, (tail ++ c :: rest).takeWhile isNameCharacter =
        tail.takeWhile isNameCharacter :=
      fun tail => takeWhile_append_break (isNameCharacter_of_isLineBreak hc) tail rest
    have hspaces : (more ++ c :: rest).dropWhile (fun c => c == ' ' || c == '\t') =
        more.dropWhile (fun c => c == ' ' || c == '\t') ++ c :: rest := by
      rw [List.dropWhile_append]
      split
      · next hnil =>
        rw [List.isEmpty_iff.1 hnil, List.dropWhile_cons_of_neg (by simp [hspace]), List.nil_append]
      · rfl
    rw [List.append_assoc, hdrop, hdrop, hspaces]
    dsimp only
    rw [hname]
  · rfl

theorem directiveName?_append_break {word : Text} (hword : word.Unbroken) {c : Char}
    (hc : isLineBreak c = true) {line : Text} (hline : line.Unbroken) (rest : Text) :
    directiveName? word (line ++ c :: rest) = directiveName? word line := by
  induction line with
  | nil =>
    have hname := nameAfter?_append_break hword hc [] rest
    rw [List.nil_append] at hname
    have hnil : directiveName? word [] = nameAfter? word [] := rfl
    rw [List.nil_append, hnil, ← hname, directiveName?, hc, if_pos rfl, Option.or_none]
  | cons d line ih =>
    obtain ⟨hd, hline⟩ := unbroken_cons.1 hline
    have hname := nameAfter?_append_break hword hc (d :: line) rest
    rw [List.cons_append] at hname
    rw [List.cons_append, directiveName?, directiveName?, hd, hname, ih hline]

/-- **The directive depends on the first line alone.** -/
theorem directiveName?_firstLine {word : Text} (hword : word.Unbroken) (text : Text) :
    directiveName? word text.firstLine = directiveName? word text := by
  by_cases h : text.Unbroken
  · rw [firstLine_of_unbroken h]
  · obtain ⟨line, c, rest, hline, hc, rfl⟩ := exists_break h
    rw [firstLine_append_break hline hc, directiveName?_append_break hword hc hline]

theorem directiveName?_of_notMem {word text : Text} (h : ':' ∉ text) :
    directiveName? word text = none := by
  have hname : ∀ text : Text, ':' ∉ text → nameAfter? word text = none := by
    intro text h
    refine if_neg fun hfront => h ?_
    obtain ⟨more, rfl⟩ := List.isPrefixOf_iff_prefix.1 hfront
    simp
  induction text with
  | nil => exact hname [] h
  | cons c text ih =>
    rw [directiveName?, hname _ h, Option.none_or]
    split
    · rfl
    · exact ih fun hmem => h (List.mem_cons_of_mem _ hmem)

theorem mem_table_of_resolve {registry : Registry} {directive : Option Text} {extension : Text}
    {language : Language} (h : registry.resolve directive extension = .ok language) :
    language ∈ Language.table := by
  have hnamed : ∀ name : Text, Language.named? name = some language → language ∈ Language.table :=
    fun name hname => List.mem_of_find?_eq_some hname
  simp only [resolve] at h
  split at h
  · next found hfound =>
    obtain rfl := Except.ok.inj h
    rcases Option.or_eq_some_iff.1 hfound with hfound | ⟨_, hfound⟩
    · obtain ⟨name, _, hname⟩ := Option.bind_eq_some_iff.1 hfound
      exact hnamed name hname
    · rcases Option.or_eq_some_iff.1 hfound with hfound | ⟨_, hfound⟩
      · exact List.mem_of_find?_eq_some hfound
      · obtain ⟨name, _, hname⟩ := Option.bind_eq_some_iff.1 hfound
        exact hnamed name hname
  · simp at h

end Registry

namespace RegionWriter

open Text

theorem firstLine_writeText {margin : Text} (h : margin.Unbroken) (ending : LineEnding)
    (text : Text) : (writeText margin ending text).firstLine = margin ++ text.firstLine := by
  rw [writeText, ← firstLine_stripTerminator text]
  generalize text.stripTerminator.1 = content
  rcases exists_line content with hu | ⟨line, ending', rest, hline, hcut, rfl⟩
  · rw [writeLines_of_unbroken hu, firstLine_append_ending, firstLine_append_of_unbroken h]
  · have hmargin : (margin ++ line).Unbroken := unbroken_append.2 ⟨h, hline⟩
    have hbreak : ∀ line : Text, ¬ (line ++ ending'.text).Unbroken :=
      fun line => (endsLine_append_ending line ending').not_unbroken
    rw [writeLines_append hline hcut, firstLine_append_of_not_unbroken (hbreak _),
      firstLine_append_of_not_unbroken (hbreak _), firstLine_append_ending,
      firstLine_append_ending, firstLine_of_unbroken hmargin, firstLine_of_unbroken hline]

theorem firstLine_flatMap_writtenRun {marker : Text} {block : Block}
    (hmargin : (marginOf marker block).Unbroken) (ending : LineEnding) (blocks : List Block)
    (runs : List (List Block)) :
    firstLine (((block :: blocks) :: runs).flatMap (writtenRun marker ending)) =
      marginOf marker block ++ firstLine ((block :: blocks).flatMap Block.text) := by
  have hends : (writtenRun marker ending (block :: blocks)).EndsLine := endsLine_writeText ..
  rw [List.flatMap_cons, firstLine_append_of_not_unbroken hends.not_unbroken, writtenRun,
    firstLine_writeText hmargin]

end RegionWriter

/-! ### The first line of a saved document -/

namespace Document

open Text RegionWriter

variable {language : Language} {source : Text}

/-- The first block comment starts on the first line, behind `code`, and has the given text. -/
def CommentOnFirstLine (blocks : List Block) (code text : Text) : Prop :=
  code.Unbroken ∧ ∃ opener after, blocks = Block.codeOf code ++ .blockDoc opener text :: after

theorem saveMarker_of_mem_table : ∀ language ∈ Language.table,
    (language.saveMarker?.getD []).Unbroken ∧ ':' ∉ language.saveMarker?.getD [] := by
  decide

theorem unbroken_marginOf (h : language ∈ Language.table) {block : Block}
    (hof : block.OfLanguage language) :
    (marginOf (language.saveMarker?.getD []) block).Unbroken := by
  have hmarker := (saveMarker_of_mem_table language h).1
  have hspace : Unbroken [' '] := unbroken_cons.2 ⟨rfl, unbroken_nil⟩
  cases block with
  | code text => exact unbroken_nil
  | inlineDoc indent marker spaced text =>
    exact unbroken_append.2 ⟨unbroken_append.2 ⟨unbroken_of_isBlank hof.1, hmarker⟩, hspace⟩
  | blockDoc opener text => exact unbroken_append.2 ⟨hmarker, hspace⟩

/-- **The first line of a saved document** is that of its first block, behind its margin. -/
theorem firstLine_saved (h : language ∈ Language.table) {block : Block} {after : List Block}
    (hblocks : classify language source = block :: after) (ending : LineEnding) :
    firstLine ((runs language source).flatMap (writtenRun (language.saveMarker?.getD []) ending)) =
      marginOf (language.saveMarker?.getD []) block ++ block.text.firstLine := by
  have hflat := flatten_runs language source
  rw [hblocks] at hflat
  have hof : block.OfLanguage language := ofLanguage_of_mem_classify (by rw [hblocks]; simp)
  cases hruns : runs language source with
  | nil =>
    rw [hruns] at hflat
    simp at hflat
  | cons run rest =>
    have hrun : run ∈ runs language source := by simp [hruns]
    rw [hruns, List.flatten_cons] at hflat
    cases run with
    | nil => exact absurd hrun (List.nil_notMem_splitBy _ _)
    | cons first blocks =>
      obtain ⟨rfl, hafter⟩ := List.cons.inj hflat
      rw [firstLine_flatMap_writtenRun (unbroken_marginOf h hof), List.flatMap_cons]
      congr 1
      cases blocks with
      | nil => rw [List.flatMap_nil, List.append_nil]
      | cons next blocks =>
        -- the region has another block, so the first is an inline comment and ends its line
        have hjoins := (List.isChain_cons_cons.1 (List.isChain_of_mem_splitBy hrun)).1
        have hchain := isChain_classify language source
        rw [hblocks, ← hafter] at hchain
        have hprecedes := (List.isChain_cons_cons.1 hchain).1
        cases first with
        | code => simp [Region.joins] at hjoins
        | blockDoc => simp [Region.joins] at hjoins
        | inlineDoc => exact firstLine_append_of_not_unbroken hprecedes.1.not_unbroken _

/-- The first line of a source is that of its first block, unless a block comment starts on it. -/
theorem firstLine_source {block : Block} {after : List Block}
    (hblocks : classify language source = block :: after)
    (hnone : ∀ code text, ¬ CommentOnFirstLine (classify language source) code text) :
    source.firstLine = block.source.firstLine := by
  have hsource : Block.sourceOf (classify language source) = source :=
    Language.sourceOf_blocksFrom language true true source
  have hof : block.OfLanguage language := ofLanguage_of_mem_classify (by rw [hblocks]; simp)
  rw [hblocks, Block.sourceOf_cons] at hsource
  rw [← hsource]
  by_cases hbreak : block.source.Unbroken
  · have hafter : after = [] := by
      cases after with
      | nil => rfl
      | cons next after =>
        have hchain := isChain_classify language source
        rw [hblocks] at hchain hnone
        have hprecedes := (List.isChain_cons_cons.1 hchain).1
        cases block with
        | blockDoc opener text =>
          exact absurd ⟨unbroken_nil, opener, next :: after, rfl⟩ (hnone [] text)
        | inlineDoc indent marker spaced text =>
          exact absurd (unbroken_append.1 hbreak).2 hprecedes.1.not_unbroken
        | code text =>
          cases next with
          | code => exact absurd hprecedes id
          | inlineDoc => exact absurd hbreak (EndsLine.not_unbroken hprecedes)
          | blockDoc opener comment =>
            refine absurd ⟨hbreak, opener, after, ?_⟩ (hnone text comment)
            rw [Block.codeOf_of_ne_nil hof]
            rfl
    rw [hafter, show Block.sourceOf [] = [] from rfl, List.append_nil]
  · exact firstLine_append_of_not_unbroken hbreak _

/-- **Saving keeps the directive**, unless a block comment starts on the first line. -/
theorem directiveName?_saved (h : language ∈ Language.table) {word : Text} (hword : word.Unbroken)
    (hnone : ∀ code text, ¬ CommentOnFirstLine (classify language source) code text)
    (ending : LineEnding) :
    Registry.directiveName? word ((runs language source).flatMap
        (writtenRun (language.saveMarker?.getD []) ending)) =
      Registry.directiveName? word source := by
  cases hblocks : classify language source with
  | nil =>
    have hsource : Block.sourceOf (classify language source) = source :=
      Language.sourceOf_blocksFrom language true true source
    rw [hblocks] at hsource
    rw [runs, hblocks, ← hsource]
    rfl
  | cons block after =>
    rw [← Registry.directiveName?_firstLine hword, ← Registry.directiveName?_firstLine hword source,
      firstLine_saved h hblocks, firstLine_source hblocks hnone]
    have hof : block.OfLanguage language := ofLanguage_of_mem_classify (by rw [hblocks]; simp)
    cases block with
    | code text => rfl
    | blockDoc opener text =>
      exact absurd ⟨unbroken_nil, opener, after, hblocks⟩ (hnone [] text)
    | inlineDoc indent marker spaced text =>
      have hmarker := Language.eq_saveMarker_of_mem_table h hof.2.1
      have hsolid := (Language.orderly_of_mem_table h).inlineComments _ hof.2.1
      have hcolon := (saveMarker_of_mem_table language h).2
      have hlead : (Block.inlineDoc indent marker spaced text).source.firstLine =
          Region.lead indent marker spaced ++ text.firstLine :=
        firstLine_append_of_unbroken (Region.unbroken_lead hof.1 hsolid spaced) text
      rw [hlead]
      rw [hmarker, Option.getD_some] at hcolon ⊢
      cases spaced with
      | true => rfl
      | false =>
        -- a bare marker stands alone on its line
        have htext : text.firstLine = [] := by
          rcases hof.2.2 rfl with rfl | hterminator
          · rfl
          · obtain ⟨ending, rfl⟩ := Block.isTerminator_iff.1 hterminator
            cases ending <;> rfl
        have hblank : ':' ∉ indent := by
          intro hmem
          have := List.all_eq_true.1 hof.1 ':' hmem
          exact absurd this (by decide)
        have hnil : (Block.inlineDoc indent marker false text).text.firstLine = [] := htext
        rw [hnil, htext, List.append_nil, List.append_nil,
          Registry.directiveName?_of_notMem (by simp [marginOf, hblank, hcolon]),
          Registry.directiveName?_of_notMem (by simp [Region.lead, hblank, hcolon])]

/-- **Which language a saved document is loaded in.**  It is the same language as before unless a
block comment starts on the first line.  If one does, the directive is searched for in the code
before it; if there is none, in its first line behind the marker of an inline comment. -/
theorem resolveSource_saved {registry : Registry} (hword : registry.word.Unbroken)
    {source extension saved : Text} {document : Document}
    (hload : load registry source extension .edit = .ok document)
    (hsave : document.save document.editedRegions = .ok saved) :
    ((∀ code text, ¬ CommentOnFirstLine document.blocks code text) →
      registry.resolveSource saved extension = .ok document.language) ∧
      ∀ code text, CommentOnFirstLine document.blocks code text →
        registry.resolveSource saved extension =
          registry.resolve (Registry.directiveName? registry.word
            (if code = [] then document.language.saveMarker?.getD [] ++ ' ' :: text.firstLine
              else code)) extension := by
  obtain ⟨language, hresolve, rfl⟩ : ∃ language,
      registry.resolveSource source extension = .ok language ∧
        ofSource language source .edit = document := by
    rw [load] at hload
    cases hresolve : registry.resolveSource source extension with
    | error fault => simp [hresolve, Except.map] at hload
    | ok language =>
      rw [hresolve] at hload
      exact ⟨language, rfl, Except.ok.inj hload⟩
  have hmem : language ∈ Language.table := Registry.mem_table_of_resolve hresolve
  have hkeep : Registry.directiveName? registry.word saved =
      Registry.directiveName? registry.word source →
        registry.resolveSource saved extension = .ok language := by
    intro hsame
    rw [Registry.resolveSource, Registry.directive?, hsame]
    exact hresolve
  by_cases hdoc : language.docOnly = true
  · rw [save_of_whole (Or.inl hdoc)] at hsave
    have hblocks : (ofSource language source .edit).blocks = [] := by simp [ofSource, hdoc]
    refine ⟨fun _ => hkeep ?_, fun code text hcomment => ?_⟩
    · obtain rfl := Except.ok.inj hsave
      split
      · next hempty => rw [List.isEmpty_iff.1 hempty]
      · rw [← Registry.directiveName?_firstLine hword, firstLine_writeText unbroken_nil,
          List.nil_append, Registry.directiveName?_firstLine hword]
    · obtain ⟨_, opener, after, hcomment⟩ := hcomment
      rw [hblocks] at hcomment
      simp at hcomment
  · have hdoc' : language.docOnly = false := by simpa using hdoc
    have hblocks : (ofSource language source .edit).blocks = classify language source := by
      simp [ofSource, hdoc']
    obtain ⟨_, rfl⟩ := (save_eq_ok_iff hmem hdoc' (by decide)).1 hsave
    rw [hblocks]
    refine ⟨fun hnone => hkeep (directiveName?_saved hmem hword hnone _), ?_⟩
    rintro code text ⟨hcode, opener, after, hcomment⟩
    rw [Registry.resolveSource, Registry.directive?, ← Registry.directiveName?_firstLine hword]
    by_cases hnil : code = []
    · subst hnil
      rw [firstLine_saved hmem hcomment, if_pos rfl, marginOf, List.append_assoc]
      rfl
    · rw [Block.codeOf_of_ne_nil hnil] at hcomment
      have hline : (Block.code code).text.firstLine = code := firstLine_of_unbroken hcode
      rw [firstLine_saved hmem hcomment, if_neg hnil, hline]
      rfl

/-- Instances: a comment that names the shell in a document with another extension, and a block
comment that gets a marker. -/
theorem resolveSource_saved_shell :
    Registry.resolveSource {} "# litdoc-lexer: shell\nx\n" "py" = .ok .shell ∧
      Registry.resolveSource {} "// /* a */\nx\n" "js" =
        Registry.resolve {} (Registry.directiveName? defaultDirective "// /* a */") "js" := by
  have hword : ({} : Registry).word.Unbroken := by decide
  have hshell : load {} "# litdoc-lexer: shell\nx" "py" .edit =
      .ok (ofSource .shell "# litdoc-lexer: shell\nx" .edit) := by decide +kernel
  have hblocks : (ofSource .shell "# litdoc-lexer: shell\nx" .edit).blocks =
      [.inlineDoc [] "#" true "litdoc-lexer: shell\n", .code "x"] := by decide
  have hjavascript : load {} "/* a */x" "js" .edit =
      .ok (ofSource .javascript "/* a */x" .edit) := by decide +kernel
  refine ⟨(resolveSource_saved hword hshell (by decide)).1 ?_,
    (resolveSource_saved hword hjavascript (by decide)).2 [] "/* a */"
      ⟨by decide, "/*", [.code "x"], by decide⟩⟩
  rintro code text ⟨_, opener, after, hcomment⟩
  rw [hblocks] at hcomment
  by_cases hnil : code = []
  · simp [hnil] at hcomment
  · simp [Block.codeOf_of_ne_nil hnil] at hcomment

/-- A block comment behind code moves to the second line, and its directive with it. -/
theorem resolveSource_saved_ne_javascript :
    ({} : Registry).word.Unbroken ∧
      ∃ document saved, load {} "x; /* litdoc-lexer: rust */\n" "js" .edit = .ok document ∧
        document.language = .rust ∧ document.save document.editedRegions = .ok saved ∧
        Registry.resolveSource {} saved "js" = .ok .javascript :=
  ⟨by decide, ofSource .rust "x; /* litdoc-lexer: rust */\n" .edit,
    "x; \n// /* litdoc-lexer: rust */\n\n", by decide +kernel, rfl, by decide, by decide +kernel⟩

end Document

end Literate
