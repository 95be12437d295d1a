import Literate.Proofs.Associations

/-!
# What a registry resolves to

A registry that was given associations looks for a language in three places, one after the other:
the name in the directive, the extensions that the languages of the table claim, and the last
association of the extension.  `Resolves` says what it finds, without the dictionary in which a
registry files its associations:

  `(associateAll { word } history).resolve directive extension = .ok language ↔
    Resolves history directive (normalize extension) language`.

The last association of an extension hides the earlier ones even if it names no language, and none
hides what the table claims (`resolve_associateAll`).
-/

namespace Literate

namespace Language

variable {language : Language} {name extension : Text}

theorem named?_eq_some_iff :
    named? name = some language ↔ language ∈ table ∧ language.name = name := by
  constructor
  · intro h
    have hname := List.find?_some h
    exact ⟨List.mem_of_find?_eq_some h, beq_iff_eq.1 hname⟩
  · rintro ⟨hmem, rfl⟩
    exact (by decide : ∀ language ∈ table, named? language.name = some language) language hmem

def IsFirstToClaim (language : Language) (extension : Text) : Prop :=
  ∃ before after, table = before ++ language :: after ∧ language.claims extension = true ∧
    ∀ other ∈ before, other.claims extension = false

theorem claiming?_eq_some_iff :
    claiming? extension = some language ↔ language.IsFirstToClaim extension := by
  rw [claiming?, List.find?_eq_some_iff_append]
  simp only [Bool.not_eq_true']
  constructor
  · rintro ⟨hclaims, before, after, htable, hbefore⟩
    exact ⟨before, after, htable, hclaims, hbefore⟩
  · rintro ⟨before, after, htable, hclaims, hbefore⟩
    exact ⟨hclaims, before, after, htable, hbefore⟩

end Language

namespace Registry

variable {history : List (Text × Text)} {directive : Option Text} {extension name : Text}
  {language : Language}

/-! ### The three places -/

def IsRegistered (directive : Option Text) : Prop :=
  ∃ language ∈ Language.table, directive = some language.name

def IsClaimed (extension : Text) : Prop :=
  ∃ language ∈ Language.table, language.claims extension = true

/-- Of the associations for the extension, up to a dot in front and the case of ASCII letters, the
last one is with this name. -/
def IsLastFor (history : List (Text × Text)) (extension name : Text) : Prop :=
  ∃ before spelling after, history = before ++ (spelling, name) :: after ∧
    Language.sameExtension (normalize spelling) extension = true ∧
    ∀ later ∈ after, Language.sameExtension (normalize later.1) extension = false

/-- What is found for a directive and an extension after a history of associations. -/
inductive Resolves (history : List (Text × Text)) (directive : Option Text) (extension : Text) :
    Language → Prop
  | named {language : Language} : language ∈ Language.table → directive = some language.name →
      Resolves history directive extension language
  | claimed {language : Language} : ¬ IsRegistered directive → language.IsFirstToClaim extension →
      Resolves history directive extension language
  | associated {language : Language} : ¬ IsRegistered directive → ¬ IsClaimed extension →
      language ∈ Language.table → IsLastFor history extension language.name →
      Resolves history directive extension language

theorem bind_named?_eq_some_iff :
    directive.bind Language.named? = some language ↔
      language ∈ Language.table ∧ directive = some language.name := by
  rw [Option.bind_eq_some_iff]
  constructor
  · rintro ⟨name, rfl, hname⟩
    obtain ⟨hmem, rfl⟩ := Language.named?_eq_some_iff.1 hname
    exact ⟨hmem, rfl⟩
  · rintro ⟨hmem, rfl⟩
    exact ⟨language.name, rfl, Language.named?_eq_some_iff.2 ⟨hmem, rfl⟩⟩

theorem bind_named?_eq_none_iff :
    directive.bind Language.named? = none ↔ ¬ IsRegistered directive := by
  rw [Option.eq_none_iff_forall_ne_some, IsRegistered, not_exists]
  exact forall_congr' fun language => not_congr bind_named?_eq_some_iff

theorem claiming?_eq_none_iff : Language.claiming? extension = none ↔ ¬ IsClaimed extension := by
  simp [Language.claiming?, IsClaimed]

/-- **The dictionary has the last association**, as two extensions are filed under one key exactly if
they are the same. -/
theorem isLastFor_iff :
    IsLastFor history extension name ↔
      ∃ spelling, lastUnder? history (extension.map Char.toLower) = some (spelling, name) := by
  have hkey : ∀ spelling, Language.sameExtension (normalize spelling) extension =
      (key spelling == extension.map Char.toLower) := fun _ => rfl
  simp only [IsLastFor, lastUnder?, List.find?_eq_some_iff_append, Bool.not_eq_true', hkey]
  constructor
  · rintro ⟨before, spelling, after, rfl, hsame, hafter⟩
    refine ⟨spelling, hsame, after.reverse, before.reverse, by simp, ?_⟩
    intro later hlater
    exact hafter later (List.mem_reverse.1 hlater)
  · rintro ⟨spelling, hsame, after, before, hsplit, hafter⟩
    refine ⟨before.reverse, spelling, after.reverse, ?_, hsame, ?_⟩
    · have := congrArg List.reverse hsplit
      simpa using this
    · intro later hlater
      exact hafter later (List.mem_reverse.1 hlater)

theorem IsLastFor.unique {other : Text} (h : IsLastFor history extension name)
    (h' : IsLastFor history extension other) : name = other := by
  obtain ⟨_, hlast⟩ := isLastFor_iff.1 h
  obtain ⟨_, hlast'⟩ := isLastFor_iff.1 h'
  rw [hlast] at hlast'
  exact (Prod.mk.inj (Option.some.inj hlast')).2

theorem aliased?_associateAll_eq_some_iff (word : Text) :
    (associateAll { word } history).aliased? extension = some language ↔
      language ∈ Language.table ∧ IsLastFor history extension language.name := by
  rw [aliased?_associateAll, Option.bind_eq_some_iff, isLastFor_iff]
  constructor
  · rintro ⟨⟨spelling, name⟩, hlast, hname⟩
    obtain ⟨hmem, rfl⟩ := Language.named?_eq_some_iff.1 hname
    exact ⟨hmem, spelling, hlast⟩
  · rintro ⟨hmem, spelling, hlast⟩
    exact ⟨_, hlast, Language.named?_eq_some_iff.2 ⟨hmem, rfl⟩⟩

/-! ### The answer -/

/-- **What is found in the three places**, one after the other. -/
theorem found_eq_some_iff (word : Text) :
    (directive.bind Language.named?).or ((Language.claiming? extension).or
        ((associateAll { word } history).aliased? extension)) = some language ↔
      Resolves history directive extension language := by
  rw [Option.or_eq_some_iff, Option.or_eq_some_iff, bind_named?_eq_some_iff,
    bind_named?_eq_none_iff, Language.claiming?_eq_some_iff, claiming?_eq_none_iff,
    aliased?_associateAll_eq_some_iff]
  constructor
  · rintro (⟨hmem, hname⟩ | ⟨hdirective, hfirst | ⟨hclaimed, hmem, hlast⟩⟩)
    · exact .named hmem hname
    · exact .claimed hdirective hfirst
    · exact .associated hdirective hclaimed hmem hlast
  · intro h
    cases h with
    | named hmem hname => exact Or.inl ⟨hmem, hname⟩
    | claimed hdirective hfirst => exact Or.inr ⟨hdirective, Or.inl hfirst⟩
    | associated hdirective hclaimed hmem hlast =>
      exact Or.inr ⟨hdirective, Or.inr ⟨hclaimed, hmem, hlast⟩⟩

theorem resolve_eq_ok_iff (word : Text) :
    (associateAll { word } history).resolve directive extension = .ok language ↔
      Resolves history directive (normalize extension) language := by
  rw [← found_eq_some_iff word, resolve]
  split
  · next found hfound => rw [hfound, Except.ok.injEq, Option.some.injEq]
  · next hfound => simp [hfound]

theorem resolve_eq_error_iff (word : Text) {error : Error} :
    (associateAll { word } history).resolve directive extension = .error error ↔
      error = .unresolved directive (normalize extension) ∧
        ∀ language, ¬ Resolves history directive (normalize extension) language := by
  simp only [← found_eq_some_iff word, resolve]
  split
  · next found hfound => simp [hfound]
  · next hfound => simp [hfound, eq_comm]

theorem resolve_eq_of_decided (registry other : Registry)
    (h : IsRegistered directive ∨ IsClaimed (normalize extension)) :
    registry.resolve directive extension = other.resolve directive extension := by
  cases hname : directive.bind Language.named? with
  | some language => simp only [resolve, hname, Option.some_or]
  | none =>
    have hclaimed := h.resolve_left (bind_named?_eq_none_iff.1 hname)
    cases hclaim : Language.claiming? (normalize extension) with
    | none => exact absurd hclaimed (claiming?_eq_none_iff.1 hclaim)
    | some language => simp only [resolve, hname, hclaim, Option.none_or, Option.some_or]

/-- **Resolution after any history of associations.**  A language is found exactly if `Resolves` says
so, and if it says nothing, the error has the directive as it is and the extension without its dot.
The latter is also the case if the last association of the extension names no language, whatever
came before it.  What the directive or the table decides is the same after any other history. -/
theorem resolve_associateAll (word : Text) (history : List (Text × Text)) (directive : Option Text)
    (extension : Text) :
    (∀ language, (associateAll { word } history).resolve directive extension = .ok language ↔
      Resolves history directive (normalize extension) language) ∧
    (∀ error, (associateAll { word } history).resolve directive extension = .error error ↔
      error = .unresolved directive (normalize extension) ∧
        ∀ language, ¬ Resolves history directive (normalize extension) language) ∧
    (¬ IsRegistered directive → ¬ IsClaimed (normalize extension) →
      ∀ name, IsLastFor history (normalize extension) name →
        (∀ language ∈ Language.table, language.name ≠ name) →
        (associateAll { word } history).resolve directive extension =
          .error (.unresolved directive (normalize extension))) ∧
    (IsRegistered directive ∨ IsClaimed (normalize extension) →
      ∀ other, (associateAll { word } history).resolve directive extension =
        (associateAll { word } other).resolve directive extension) := by
  refine ⟨fun language => resolve_eq_ok_iff word, fun error => resolve_eq_error_iff word, ?_, ?_⟩
  · intro hdirective hclaimed name hlast hname
    refine (resolve_eq_error_iff word).2 ⟨rfl, ?_⟩
    intro language hresolves
    cases hresolves with
    | named hmem hnamed => exact hdirective ⟨language, hmem, hnamed⟩
    | claimed _ hfirst =>
      obtain ⟨before, after, htable, hclaims, _⟩ := hfirst
      exact hclaimed ⟨language, htable ▸ List.mem_append_cons_self, hclaims⟩
    | associated _ _ hmem hlast' => exact hname language hmem (hlast'.unique hlast)
  · intro hdecided other
    exact resolve_eq_of_decided _ _ hdecided

/-- An extension whose last association names no language, and one that the table claims and that
was associated all the same. -/
theorem resolve_associateAll_foo :
    (associateAll { word := "lang" }
      [("foo", "rust"), (".FOO", "cobol"), ("PY", "go")]).resolve none ".Foo" =
        .error (.unresolved none "Foo") ∧
    (associateAll { word := "lang" }
      [("foo", "rust"), (".FOO", "cobol"), ("PY", "go")]).resolve (some "cobol") ".Py" =
        .ok .python := by
  constructor
  · refine (resolve_associateAll "lang" _ none ".Foo").2.2.1 ?_ ?_ "cobol" ?_ (by decide)
    · rw [← bind_named?_eq_none_iff]
      rfl
    · rw [← claiming?_eq_none_iff]
      decide
    · exact ⟨[("foo", "rust")], ".FOO", [("PY", "go")], rfl, by decide, by decide⟩
  · refine ((resolve_associateAll "lang" _ (some "cobol") ".Py").1 .python).2 (.claimed ?_ ?_)
    · rw [← bind_named?_eq_none_iff]
      decide
    · rw [← Language.claiming?_eq_some_iff]
      decide

end Registry

end Literate
