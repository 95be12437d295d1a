import Literate.Proofs.Reloading
import Mathlib.Order.Nat

/-!
# Where a directive stands

A directive is the word of the registry, a colon, spaces and tabs, and a name.  `Starts` says that
one starts at the front of a text, and `Names` what its name is.  The search tries the places of the
first line from left to right and stops at the first one where a directive starts:

  `directiveName? word line = some name ↔
    ∃ start, Names word (line.drop start) name ∧ ∀ i < start, ¬ Starts word (line.drop i)`.

A word and a colon without a name behind them are passed over, and a word may overlap with another
one.  What stands behind the first line does not matter at all (`directive?_leftmost`).
-/

namespace Literate

namespace Text

theorem unbroken_firstLine (text : Text) : text.firstLine.Unbroken := by
  intro c hc
  have hbreak := List.mem_takeWhile_imp hc
  rw [Bool.not_eq_true'] at hbreak
  exact hbreak

theorem takeWhile_dropWhile_append {accepts : Char → Bool} {run rest : Text}
    (hrun : ∀ c ∈ run, accepts c = true) (hrest : ∀ c ∈ rest.head?, accepts c = false) :
    (run ++ rest).takeWhile accepts = run ∧ (run ++ rest).dropWhile accepts = rest := by
  rw [List.takeWhile_append_of_pos hrun, List.dropWhile_append_of_pos hrun]
  cases rest with
  | nil => exact ⟨List.append_nil run, rfl⟩
  | cons c rest =>
    have hc : ¬ accepts c = true := by
      rw [hrest c rfl]
      decide
    rw [List.takeWhile_cons_of_neg hc, List.dropWhile_cons_of_neg hc, List.append_nil]
    exact ⟨rfl, rfl⟩

theorem head?_dropWhile (accepts : Char → Bool) (text : Text) :
    ∀ c ∈ (text.dropWhile accepts).head?, accepts c = false := by
  intro c hc
  have hstop := List.head?_dropWhile_not accepts text
  rw [Option.mem_def.1 hc] at hstop
  exact hstop

end Text

namespace Registry

open Text

variable {word text name : Text}

/-! ### A directive at the front of a text -/

/-- Spaces and tabs, which may stand between the colon and the name. -/
def IsGap (text : Text) : Prop :=
  ∀ c ∈ text, c = ' ' ∨ c = '\t'

/-- A directive starts at the front of the text: the word, a colon, spaces and tabs, and at least
one character of a name. -/
def Starts (word text : Text) : Prop :=
  ∃ gap c rest, text = word ++ ':' :: (gap ++ c :: rest) ∧ IsGap gap ∧ isNameCharacter c = true

/-- A directive with this name stands at the front of the text.  The name goes on as long as there
are characters of a name. -/
def Names (word text name : Text) : Prop :=
  ∃ gap rest, text = word ++ ':' :: (gap ++ (name ++ rest)) ∧ IsGap gap ∧ name ≠ [] ∧
    (∀ c ∈ name, isNameCharacter c = true) ∧ ∀ c ∈ rest.head?, isNameCharacter c = false

/-- **A directive starts exactly where there is one with a name.** -/
theorem exists_names_iff : (∃ name, Names word text name) ↔ Starts word text := by
  constructor
  · rintro ⟨name, gap, rest, rfl, hgap, hne, hname, _⟩
    obtain ⟨c, more, rfl⟩ := List.exists_cons_of_ne_nil hne
    exact ⟨gap, c, more ++ rest, rfl, hgap, hname c (List.mem_cons_self ..)⟩
  · rintro ⟨gap, c, rest, rfl, hgap, hc⟩
    refine ⟨c :: rest.takeWhile isNameCharacter, gap, rest.dropWhile isNameCharacter, ?_, hgap,
      by simp, ?_, head?_dropWhile isNameCharacter rest⟩
    · rw [List.cons_append, List.takeWhile_append_dropWhile]
    · intro d hd
      rcases List.mem_cons.1 hd with rfl | hd
      · exact hc
      · exact List.mem_takeWhile_imp hd

theorem nameAfter?_append (word more : Text) :
    nameAfter? word (word ++ ':' :: more) =
      let name := (more.dropWhile fun c => c == ' ' || c == '\t').takeWhile isNameCharacter
      if name.isEmpty then none else some name := by
  have hfront : (word ++ [':']).isPrefixOf (word ++ [':'] ++ more) = true :=
    List.isPrefixOf_iff_prefix.2 (List.prefix_append ..)
  have hdrop : (word ++ [':'] ++ more).drop (word.length + 1) = more :=
    List.drop_left' (by simp)
  rw [List.append_cons, nameAfter?, if_pos hfront, hdrop]

theorem exists_append_of_nameAfter? (h : nameAfter? word text = some name) :
    ∃ more, text = word ++ ':' :: more := by
  unfold nameAfter? at h
  split at h
  · next hfront =>
    obtain ⟨more, rfl⟩ := List.isPrefixOf_iff_prefix.1 hfront
    exact ⟨more, by simp⟩
  · simp at h

/-- **The name at the front of a text.** -/
theorem nameAfter?_eq_some_iff : nameAfter? word text = some name ↔ Names word text name := by
  constructor
  · intro h
    obtain ⟨more, rfl⟩ := exists_append_of_nameAfter? h
    rw [nameAfter?_append, Option.ite_none_left_eq_some] at h
    obtain ⟨hne, hname⟩ := h
    refine ⟨more.takeWhile fun c => c == ' ' || c == '\t',
      (more.dropWhile fun c => c == ' ' || c == '\t').dropWhile isNameCharacter, ?_, ?_, ?_, ?_,
      head?_dropWhile isNameCharacter _⟩
    · rw [← Option.some.inj hname, List.takeWhile_append_dropWhile,
        List.takeWhile_append_dropWhile]
    · intro c hc
      simpa using List.mem_takeWhile_imp hc
    · rw [← Option.some.inj hname]
      simpa using hne
    · intro c hc
      rw [← Option.some.inj hname] at hc
      exact List.mem_takeWhile_imp hc
  · rintro ⟨gap, rest, rfl, hgap, hne, hname, hstop⟩
    -- The name ends the gap, as neither a space nor a tab is a character of a name.
    have hgap' : ∀ c ∈ gap, (c == ' ' || c == '\t') = true := by
      intro c hc
      simpa using hgap c hc
    have hhead : ∀ c ∈ (name ++ rest).head?, (c == ' ' || c == '\t') = false := by
      intro c hc
      obtain ⟨d, more, rfl⟩ := List.exists_cons_of_ne_nil hne
      obtain rfl := Option.some.inj hc
      have hd := hname d (List.mem_cons_self ..)
      rw [Bool.eq_false_iff]
      intro hspace
      rcases Bool.or_eq_true_iff.1 hspace with hspace | htab
      · rw [beq_iff_eq.1 hspace] at hd
        exact absurd hd (by decide +kernel)
      · rw [beq_iff_eq.1 htab] at hd
        exact absurd hd (by decide +kernel)
    rw [nameAfter?_append]
    dsimp only
    rw [(takeWhile_dropWhile_append hgap' hhead).2, (takeWhile_dropWhile_append hname hstop).1,
      if_neg (by simpa using hne)]

theorem nameAfter?_eq_none_iff : nameAfter? word text = none ↔ ¬ Starts word text := by
  rw [← exists_names_iff, Option.eq_none_iff_forall_ne_some]
  simp only [← nameAfter?_eq_some_iff, not_exists, ne_eq]

/-! ### The leftmost directive of a line -/

/-- **The search stops at the first place where a directive starts.** -/
theorem directiveName?_eq_some_iff {line : Text} (h : line.Unbroken) :
    directiveName? word line = some name ↔
      ∃ start, Names word (line.drop start) name ∧ ∀ i < start, ¬ Starts word (line.drop i) := by
  induction line with
  | nil =>
    show nameAfter? word [] = some name ↔ _
    rw [nameAfter?_eq_some_iff]
    constructor
    · intro hname
      exact ⟨0, hname, fun i hi => absurd hi (Nat.not_lt_zero i)⟩
    · rintro ⟨start, hname, _⟩
      rwa [List.drop_nil] at hname
  | cons c rest ih =>
    obtain ⟨hc, hrest⟩ := unbroken_cons.1 h
    have hstep : directiveName? word (c :: rest) =
        (nameAfter? word (c :: rest)).or (directiveName? word rest) := by
      rw [directiveName?, hc]
      rfl
    rw [hstep]
    by_cases hstarts : Starts word (c :: rest)
    · obtain ⟨found, hfound⟩ := exists_names_iff.2 hstarts
      rw [nameAfter?_eq_some_iff.2 hfound, Option.some_or, ← nameAfter?_eq_some_iff.2 hfound,
        nameAfter?_eq_some_iff]
      constructor
      · intro hname
        exact ⟨0, hname, fun i hi => absurd hi (Nat.not_lt_zero i)⟩
      · rintro ⟨start, hname, hfirst⟩
        cases start with
        | zero => exact hname
        | succ start => exact absurd hstarts (hfirst 0 (Nat.succ_pos start))
    · rw [nameAfter?_eq_none_iff.2 hstarts, Option.none_or, ih hrest]
      constructor
      · rintro ⟨start, hname, hfirst⟩
        refine ⟨start + 1, hname, ?_⟩
        intro i hi
        cases i with
        | zero => exact hstarts
        | succ i => exact hfirst i (Nat.lt_of_succ_lt_succ hi)
      · rintro ⟨start, hname, hfirst⟩
        cases start with
        | zero => exact absurd (exists_names_iff.1 ⟨name, hname⟩) hstarts
        | succ start =>
          exact ⟨start, hname, fun i hi => hfirst (i + 1) (Nat.succ_lt_succ hi)⟩

theorem directive?_eq_some_iff {registry : Registry} (h : registry.word.Unbroken) {source : Text} :
    registry.directive? source = some name ↔
      ∃ start, IsLeast {i | Starts registry.word (source.firstLine.drop i)} start ∧
        Names registry.word (source.firstLine.drop start) name := by
  rw [directive?, ← directiveName?_firstLine h,
    directiveName?_eq_some_iff (unbroken_firstLine source)]
  constructor
  · rintro ⟨start, hname, hfirst⟩
    refine ⟨start, ⟨exists_names_iff.1 ⟨name, hname⟩, ?_⟩, hname⟩
    intro i hi
    by_contra hlt
    exact hfirst i (Nat.lt_of_not_le hlt) hi
  · rintro ⟨start, hleast, hname⟩
    refine ⟨start, hname, ?_⟩
    intro i hi hstarts
    exact absurd (hleast.2 hstarts) (Nat.not_le_of_lt hi)

/-- **A directive is the leftmost one of the first line.**  It depends on that line alone, there is
one exactly if one starts somewhere on the line, and it has the name of the one that starts
first. -/
theorem directive?_leftmost (registry : Registry) (h : registry.word.Unbroken) (source : Text) :
    (∀ other : Text, other.firstLine = source.firstLine →
      registry.directive? other = registry.directive? source) ∧
    ((registry.directive? source).isSome = true ↔
      ∃ start, Starts registry.word (source.firstLine.drop start)) ∧
    ∀ name, registry.directive? source = some name ↔
      ∃ start, IsLeast {i | Starts registry.word (source.firstLine.drop i)} start ∧
        Names registry.word (source.firstLine.drop start) name := by
  refine ⟨?_, ?_, fun name => directive?_eq_some_iff h⟩
  · intro other hother
    rw [directive?, directive?, ← directiveName?_firstLine h other,
      ← directiveName?_firstLine h source, hother]
  · rw [Option.isSome_iff_exists]
    constructor
    · rintro ⟨name, hsome⟩
      obtain ⟨start, hleast, _⟩ := (directive?_eq_some_iff h).1 hsome
      exact ⟨start, hleast.1⟩
    · intro hstarts
      classical
      obtain ⟨name, hname⟩ := exists_names_iff.2 (Nat.find_spec hstarts)
      exact ⟨name, (directive?_eq_some_iff h).2 ⟨_, Nat.isLeast_find hstarts, hname⟩⟩

/-- A word of operators that overlaps with itself.  The first word and colon have no name behind them,
and the directive is followed by another one on its line and by one on the next. -/
theorem directive?_leftmost_overlap :
    directive? { word := "a+a" } "a+a:, a+a+a: \tx-1. a+a: y\ra+a: z" = some "x-1".toList ∧
    ∃ start, IsLeast {i | Starts "a+a" ((firstLine "a+a:, a+a+a: \tx-1. a+a: y\ra+a: z").drop i)}
        start ∧
      Names "a+a" ((firstLine "a+a:, a+a+a: \tx-1. a+a: y\ra+a: z").drop start) "x-1" := by
  have hfound : directive? { word := "a+a" } "a+a:, a+a+a: \tx-1. a+a: y\ra+a: z" =
      some "x-1".toList := by decide +kernel
  exact ⟨hfound, ((directive?_leftmost { word := "a+a" } (by decide) _).2.2 _).1 hfound⟩

end Registry

end Literate
