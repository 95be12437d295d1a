import Literate.Proofs.Neighbours
import Literate.Proofs.Writing

/-!
# Regions that cannot be written

Writing goes through the regions once, checks each of them and writes it, and gives up at the first
that does not pass.  Seen from the outside the two jobs are apart.  A region has a first fault or
none, which depends on the region and the style of the documentation only (`fault?`), and without
a fault it has a text (`written`):

  `writer.writeRegion region = (writer.fault? region).elim (.ok (writer.written region)) .error`.

So writing is compositional (`write_append`), its error is that of the first region with a fault
(`write_eq_error_iff`), and what it writes is the text of all regions (`write_eq_ok_iff`).
-/

namespace Literate

/-- The error of regions that stand behind `count` others. -/
def Error.behind (count : Nat) : Error → Error
  | .malformed index fault => .malformed (count + index) fault
  | .unresolved directive extension => .unresolved directive extension

theorem Error.behind_behind (count count' : Nat) (error : Error) :
    (error.behind count).behind count' = error.behind (count' + count) := by
  cases error with
  | malformed index fault => simp [behind, Nat.add_assoc]
  | unresolved directive extension => rfl

theorem Error.behind_zero (error : Error) : error.behind 0 = error := by
  cases error with
  | malformed index fault => simp [behind]
  | unresolved directive extension => rfl

namespace Text

/-- The text with `inserted` behind each of its terminators. -/
def afterBreaks (inserted : Text) : Text → Text
  | [] => []
  | '\r' :: '\n' :: rest => '\r' :: '\n' :: (inserted ++ afterBreaks inserted rest)
  | c :: rest =>
    if isLineBreak c then c :: (inserted ++ afterBreaks inserted rest)
    else c :: afterBreaks inserted rest

theorem afterBreaks_unbroken_append (inserted : Text) {line : Text} (h : line.Unbroken)
    (rest : Text) : afterBreaks inserted (line ++ rest) = line ++ afterBreaks inserted rest := by
  induction line with
  | nil => rfl
  | cons c line ih =>
    obtain ⟨hc, hline⟩ := unbroken_cons.1 h
    rw [List.cons_append, afterBreaks, if_neg (by simp [hc]), ih hline]
    · rfl
    · rintro tail rfl
      simp [isLineBreak] at hc

theorem afterBreaks_ending_append (inserted : Text) {ending : LineEnding} {rest : Text}
    (hcut : ¬ CutsPair ending.text rest) :
    afterBreaks inserted (ending.text ++ rest) =
      ending.text ++ (inserted ++ afterBreaks inserted rest) := by
  cases ending with
  | lf => rfl
  | crlf => rfl
  | cr =>
    show afterBreaks inserted ('\r' :: rest) = '\r' :: (inserted ++ afterBreaks inserted rest)
    rw [afterBreaks, if_pos (by decide)]
    rintro tail - rfl
    exact hcut ⟨rfl, rfl⟩

theorem isTerminator_iff_mem {text : Text} :
    text.isTerminator = true ↔ text ∈ (["\n", "\r\n", "\r"] : List Text) := by
  rw [Block.isTerminator_iff]
  constructor
  · rintro ⟨ending, rfl⟩
    cases ending <;> decide
  · intro h
    simp only [List.mem_cons, List.not_mem_nil, or_false] at h
    rcases h with rfl | rfl | rfl
    · exact ⟨.lf, rfl⟩
    · exact ⟨.crlf, rfl⟩
    · exact ⟨.cr, rfl⟩

end Text

theorem RegionKind.ofName?_eq_some_iff {name : Text} {kind : RegionKind} :
    ofName? name = some kind ↔ name = kind.name := by
  constructor
  · intro h
    have := List.find?_some h
    simpa using (beq_iff_eq.1 this).symm
  · rintro rfl
    exact ofName?_name kind

theorem RegionKind.ofName?_eq_none_iff {name : Text} :
    ofName? name = none ↔ name ∉ (["code", "doc"] : List Text) := by
  rw [← not_iff_not, not_not, ← ne_eq, Option.ne_none_iff_exists']
  simp only [ofName?_eq_some_iff]
  constructor
  · rintro ⟨kind, rfl⟩
    cases kind <;> decide
  · intro h
    simp only [List.mem_cons, List.not_mem_nil, or_false] at h
    exact h.elim (fun h => ⟨.code, h⟩) fun h => ⟨.doc, h⟩

namespace RegionWriter

open Text

/-- **A margin stands at the start and behind every terminator.** -/
theorem writeLines_eq (margin content last : Text) :
    writeLines margin content last = margin ++ afterBreaks margin content ++ last := by
  induction content using line_induction with
  | last line h =>
    have := afterBreaks_unbroken_append margin h []
    rw [List.append_nil] at this
    rw [writeLines_of_unbroken h, this]
    simp [afterBreaks]
  | line line ending rest h hcut ih =>
    rw [writeLines_append h hcut, ih, List.append_assoc line, afterBreaks_unbroken_append margin h,
      afterBreaks_ending_append margin hcut]
    simp only [List.append_assoc]

/-! ### The checks -/

def kindFault? (region : EditedRegion) : Option Fault :=
  if region.kind ∈ (["code", "doc"] : List Text) then none else some (.unknownKind region.kind)

/-- The terminator, if there is one, is a single line ending. -/
def terminatorFault? (region : EditedRegion) : Option Fault :=
  match region.terminator with
  | none => none
  | some text =>
    if text ∈ (["\n", "\r\n", "\r"] : List Text) then none else some (.badTerminator text)

/-- Documentation needs a marker, and before a marker an indent of blanks. -/
def docFault? (writer : RegionWriter) (region : EditedRegion) : Option Fault :=
  if region.kind = ("doc" : Text) then
    match writer.style with
    | .verbatim => none
    | .unavailable => some .noMarker
    | .inline _ =>
      if (region.indent.getD []).isBlank then none else some (.badIndent (region.indent.getD []))
  else
    none

def fault? (writer : RegionWriter) (region : EditedRegion) : Option Fault :=
  (kindFault? region).or ((terminatorFault? region).or (writer.docFault? region))

def Malformed (writer : RegionWriter) (region : EditedRegion) : Prop :=
  region.kind ∉ (["code", "doc"] : List Text) ∨
    (∃ text ∈ region.terminator, text ∉ (["\n", "\r\n", "\r"] : List Text)) ∨
    region.kind = ("doc" : Text) ∧
      (writer.style = .unavailable ∨
        (∃ marker, writer.style = .inline marker) ∧ (region.indent.getD []).isBlank = false)

def written (writer : RegionWriter) (region : EditedRegion) : Text :=
  let last := region.terminator.getD writer.lineEnding.text
  match writer.style with
  | .inline marker =>
    if region.kind = ("doc" : Text) then
      let margin := region.indent.getD [] ++ marker ++ [' ']
      margin ++ afterBreaks margin region.content ++ last
    else
      region.content ++ last
  | .verbatim => region.content ++ last
  | .unavailable => region.content ++ last

variable {writer : RegionWriter}

theorem check_eq_none_iff {passed : Prop} [Decidable passed] {fault : Fault} :
    (if passed then none else some fault) = none ↔ passed := by
  by_cases h : passed <;> simp [h]

theorem terminatorFault?_eq_none_iff {region : EditedRegion} :
    terminatorFault? region = none ↔
      ¬ ∃ text ∈ region.terminator, text ∉ (["\n", "\r\n", "\r"] : List Text) := by
  rw [terminatorFault?]
  cases region.terminator with
  | none => simp
  | some text =>
    dsimp only
    rw [check_eq_none_iff]
    simp only [Option.mem_some_iff, exists_eq_left', not_not]

theorem docFault?_eq_none_iff {region : EditedRegion} :
    writer.docFault? region = none ↔ ¬ (region.kind = ("doc" : Text) ∧
      (writer.style = .unavailable ∨
        (∃ marker, writer.style = .inline marker) ∧
          (region.indent.getD []).isBlank = false)) := by
  rw [docFault?]
  by_cases h : region.kind = ("doc" : Text)
  · rw [if_pos h]
    cases writer.style with
    | inline marker =>
      dsimp only
      rw [check_eq_none_iff]
      simp [h]
    | verbatim => simp
    | unavailable => simp [h]
  · rw [if_neg h]
    exact iff_of_true rfl fun hdoc => h hdoc.1

theorem fault?_eq_none_iff {region : EditedRegion} :
    writer.fault? region = none ↔ ¬ writer.Malformed region := by
  rw [fault?, Option.or_eq_none_iff, Option.or_eq_none_iff, kindFault?, check_eq_none_iff,
    terminatorFault?_eq_none_iff, docFault?_eq_none_iff, Malformed, not_or, not_or, not_not]

theorem terminator_eq (writer : RegionWriter) (region : EditedRegion) :
    writer.terminator region.terminator = (terminatorFault? region).elim
      (.ok (region.terminator.getD writer.lineEnding.text)) .error := by
  rw [terminatorFault?]
  cases region.terminator with
  | none => rfl
  | some text =>
    dsimp only
    by_cases h : text.isTerminator = true
    · rw [terminator, if_pos h, if_pos (isTerminator_iff_mem.1 h)]
      rfl
    · rw [terminator, if_neg h, if_neg (mt isTerminator_iff_mem.2 h)]
      rfl

/-- **A region is checked, and then written.** -/
theorem writeRegion_eq (writer : RegionWriter) (region : EditedRegion) :
    writer.writeRegion region =
      (writer.fault? region).elim (.ok (writer.written region)) .error := by
  rw [writeRegion, fault?, kindFault?]
  cases hkind : RegionKind.ofName? region.kind with
  | none =>
    rw [if_neg (RegionKind.ofName?_eq_none_iff.1 hkind)]
    rfl
  | some kind =>
    have hname := RegionKind.ofName?_eq_some_iff.1 hkind
    rw [if_pos (not_not.1 (mt RegionKind.ofName?_eq_none_iff.2 (by simp [hkind]))), Option.none_or,
      terminator_eq]
    cases terminatorFault? region with
    | some fault => rfl
    | none =>
      rw [Option.none_or, docFault?, written]
      simp only [Option.elim_none, bind, Except.bind]
      cases kind with
      | code =>
        have hdoc : region.kind ≠ ("doc" : Text) := by
          rw [hname]
          decide
        rw [if_neg hdoc, writeLines_nil]
        cases writer.style with
        | inline marker => dsimp only; rw [if_neg hdoc]; rfl
        | verbatim | unavailable => rfl
      | doc =>
        have hdoc : region.kind = ("doc" : Text) := hname
        rw [if_pos hdoc]
        cases writer.style with
        | inline marker =>
          dsimp only
          rw [if_pos hdoc, writeLines_eq]
          split <;> rfl
        | verbatim => dsimp only; rw [writeLines_nil]; rfl
        | unavailable => rfl

/-! ### Lists of regions -/

theorem writeFrom_eq (writer : RegionWriter) (index : Nat) (regions : List EditedRegion) :
    writer.writeFrom index regions = (writer.write regions).mapError (Error.behind index) := by
  suffices h : ∀ start, writer.writeFrom (index + start) regions =
      (writer.writeFrom start regions).mapError (Error.behind index) from h 0
  induction regions with
  | nil => exact fun _ => rfl
  | cons region regions ih =>
    intro start
    rw [writeFrom, writeFrom]
    cases writer.writeRegion region with
    | error fault => rfl
    | ok text =>
      dsimp only
      rw [Nat.add_assoc, ih]
      cases writer.writeFrom (start + 1) regions <;> rfl

/-- **The first region, and the rest.** -/
theorem write_cons (writer : RegionWriter) (region : EditedRegion) (regions : List EditedRegion) :
    writer.write (region :: regions) =
      match writer.fault? region with
      | some fault => .error (.malformed 0 fault)
      | none =>
        ((writer.write regions).mapError (Error.behind 1)).map (writer.written region ++ ·) := by
  rw [write, writeFrom, writeRegion_eq]
  cases writer.fault? region with
  | some fault => rfl
  | none => rw [← writeFrom_eq]; rfl

theorem write_append (writer : RegionWriter) (xs ys : List EditedRegion) :
    writer.write (xs ++ ys) =
      match writer.write xs, writer.write ys with
      | .error error, _ => .error error
      | .ok _, .error error => .error (error.behind xs.length)
      | .ok text, .ok rest => .ok (text ++ rest) := by
  induction xs with
  | nil =>
    rw [List.nil_append, show writer.write [] = .ok [] from rfl]
    cases writer.write ys with
    | error error => exact congrArg Except.error error.behind_zero.symm
    | ok rest => rfl
  | cons region xs ih =>
    rw [List.cons_append, write_cons, write_cons, ih]
    cases writer.fault? region with
    | some fault => rfl
    | none =>
      cases writer.write xs with
      | error error => rfl
      | ok text =>
        cases writer.write ys with
        | error error =>
          simp [Except.mapError, Except.map, Error.behind_behind, Nat.add_comm]
        | ok rest => simp [Except.mapError, Except.map]

theorem write_of_fault?_eq_none {regions : List EditedRegion}
    (h : ∀ region ∈ regions, writer.fault? region = none) :
    writer.write regions = .ok (regions.flatMap writer.written) := by
  have hregion : ∀ region ∈ regions, writer.writeRegion (id region) =
      .ok (writer.written region) := by
    intro region hr
    rw [id, writeRegion_eq, h region hr]
    rfl
  have hwrite := writeFrom_eq_ok hregion 0
  rwa [List.map_id] at hwrite

/-- **The first region with a fault.** -/
theorem write_of_fault?_eq_some {before after : List EditedRegion} {region : EditedRegion}
    {fault : Fault} (hbefore : ∀ earlier ∈ before, writer.fault? earlier = none)
    (h : writer.fault? region = some fault) :
    writer.write (before ++ region :: after) = .error (.malformed before.length fault) := by
  rw [write_append, write_of_fault?_eq_none hbefore, write_cons, h]
  rfl

theorem exists_first_fault (writer : RegionWriter) (regions : List EditedRegion) :
    (∀ region ∈ regions, writer.fault? region = none) ∨ ∃ before region after fault,
      regions = before ++ region :: after ∧
        (∀ earlier ∈ before, writer.fault? earlier = none) ∧
        writer.fault? region = some fault := by
  cases h : regions.findSome? writer.fault? with
  | none => exact Or.inl (List.findSome?_eq_none_iff.1 h)
  | some fault =>
    obtain ⟨before, region, after, hsplit, hfault, hbefore⟩ := List.findSome?_eq_some_iff.1 h
    exact Or.inr ⟨before, region, after, fault, hsplit, hbefore, hfault⟩

theorem write_eq_error_iff {regions : List EditedRegion} {error : Error} :
    writer.write regions = .error error ↔
      ∃ before region after fault, regions = before ++ region :: after ∧
        (∀ earlier ∈ before, writer.fault? earlier = none) ∧
        writer.fault? region = some fault ∧ error = .malformed before.length fault := by
  constructor
  · intro h
    rcases exists_first_fault writer regions with hnone |
      ⟨before, region, after, fault, rfl, hbefore, hfault⟩
    · rw [write_of_fault?_eq_none hnone] at h
      simp at h
    · rw [write_of_fault?_eq_some hbefore hfault] at h
      exact ⟨before, region, after, fault, rfl, hbefore, hfault, (Except.error.inj h).symm⟩
  · rintro ⟨before, region, after, fault, rfl, hbefore, hfault, rfl⟩
    exact write_of_fault?_eq_some hbefore hfault

theorem write_eq_ok_iff {regions : List EditedRegion} {text : Text} :
    writer.write regions = .ok text ↔
      (∀ region ∈ regions, writer.fault? region = none) ∧
        text = regions.flatMap writer.written := by
  constructor
  · intro h
    rcases exists_first_fault writer regions with hnone |
      ⟨before, region, after, fault, rfl, hbefore, hfault⟩
    · rw [write_of_fault?_eq_none hnone] at h
      exact ⟨hnone, (Except.ok.inj h).symm⟩
    · rw [write_of_fault?_eq_some hbefore hfault] at h
      simp at h
  · rintro ⟨hnone, rfl⟩
    exact write_of_fault?_eq_none hnone

/-- **Writing is compositional and stops at the first fault.**  The error of two lists is that of
the first, or that of the second behind the first.  A list fails exactly if a region of it is
malformed, with the first fault of the first of them; otherwise its text is that of its regions. -/
theorem write_first_fault (writer : RegionWriter) :
    (∀ xs ys, writer.write (xs ++ ys) =
      match writer.write xs, writer.write ys with
      | .error error, _ => .error error
      | .ok _, .error error => .error (error.behind xs.length)
      | .ok text, .ok rest => .ok (text ++ rest)) ∧
    (∀ regions, (∃ error, writer.write regions = .error error) ↔
      ∃ region ∈ regions, writer.Malformed region) ∧
    (∀ regions error, writer.write regions = .error error ↔
      ∃ before region after fault, regions = before ++ region :: after ∧
        (∀ earlier ∈ before, ¬ writer.Malformed earlier) ∧
        writer.fault? region = some fault ∧ error = .malformed before.length fault) ∧
    (∀ regions text, writer.write regions = .ok text ↔
      (∀ region ∈ regions, ¬ writer.Malformed region) ∧ text = regions.flatMap writer.written) ∧
    ∀ marker, DocStyle.ofMarker marker = .unavailable ↔ marker = [] := by
  have hunmarked : ∀ marker, DocStyle.ofMarker marker = .unavailable ↔ marker = [] := by
    intro marker
    cases marker <;> simp [DocStyle.ofMarker]
  have hmalformed : ∀ region, writer.Malformed region ↔ writer.fault? region ≠ none := by
    intro region
    rw [ne_eq, fault?_eq_none_iff, not_not]
  simp only [← fault?_eq_none_iff]
  refine ⟨write_append writer, ?_, fun _ _ => write_eq_error_iff, fun _ _ => write_eq_ok_iff,
    hunmarked⟩
  intro regions
  simp only [hmalformed]
  constructor
  · rintro ⟨error, h⟩
    obtain ⟨before, region, after, fault, rfl, _, hfault, _⟩ := write_eq_error_iff.1 h
    exact ⟨region, by simp, by simp [hfault]⟩
  · rintro ⟨region, hmem, hfault⟩
    rcases exists_first_fault writer regions with hnone |
      ⟨before, first, after, fault, rfl, hbefore, hfirst⟩
    · exact absurd (hnone region hmem) hfault
    · exact ⟨_, write_of_fault?_eq_some hbefore hfirst⟩

end RegionWriter

end Literate
