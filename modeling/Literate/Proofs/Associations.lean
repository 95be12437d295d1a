import Literate.Config
import Mathlib.Tactic.Common

/-!
# Configured associations

A registry files the extensions that are associated with a language without their dot and in lower
case (`Registry.key`), a configuration files them as they are written.  Of the associations that a
registry is given one after the other, the last one under a key counts:

  `(registry.associateAll pairs).aliases.get? key` is the language of the last pair with this key.

A configuration hands its associations over in no particular order.  So the registry of a
configuration finds what a registry finds that was given the same associations directly, whatever
the order, exactly if no two spellings of one extension are left with different languages.
-/

namespace Literate

namespace Dictionary

variable {α : Type}

/-- **The last assignment counts.** -/
theorem get?_foldl_assign (keyOf : Text → Text) (pairs : List (Text × α)) (key : Text) :
    ∀ dictionary : Dictionary α,
      (pairs.foldl (fun dictionary pair => dictionary.assign (keyOf pair.1) pair.2)
        dictionary).get? key =
        ((pairs.reverse.find? (keyOf ·.1 == key)).map Prod.snd).or (dictionary.get? key) := by
  induction pairs with
  | nil => intro dictionary; rfl
  | cons pair pairs ih =>
    intro dictionary
    rw [List.foldl_cons, ih, get?_assign, List.reverse_cons, List.find?_append]
    cases pairs.reverse.find? (keyOf ·.1 == key) with
    | some last => rfl
    | none =>
      by_cases hkey : keyOf pair.1 = key
      · simp [hkey]
      · have hne : key ≠ keyOf pair.1 := fun h => hkey h.symm
        simp [hkey, hne]

theorem mem_of_mem_foldl_assign (pairs : List (Text × α)) (entry : Text × α) :
    ∀ dictionary : Dictionary α,
      entry ∈ pairs.foldl (fun dictionary pair => dictionary.assign pair.1 pair.2) dictionary →
        entry ∈ pairs ∨ entry ∈ dictionary := by
  induction pairs with
  | nil => intro dictionary h; exact Or.inr h
  | cons pair pairs ih =>
    intro dictionary h
    rcases ih _ h with h | h
    · exact Or.inl (List.mem_cons_of_mem _ h)
    · rcases mem_assign h with rfl | h
      · exact Or.inl (List.mem_cons_self ..)
      · exact Or.inr h

end Dictionary

namespace Registry

/-- The text under which an extension is filed. -/
def key (extension : Text) : Text :=
  (normalize extension).map Char.toLower

def associateAll (registry : Registry) (pairs : List (Text × Text)) : Registry :=
  pairs.foldl (fun registry (extension, language) => registry.associate extension language) registry

/-- The last of the pairs whose extension is filed under the key. -/
def lastUnder? (pairs : List (Text × Text)) (filed : Text) : Option (Text × Text) :=
  pairs.reverse.find? (key ·.1 == filed)

theorem map_toLower_toLower (text : Text) :
    (text.map Char.toLower).map Char.toLower = text.map Char.toLower := by
  have hlower : ∀ c : Char, c.toLower.toLower = c.toLower := by
    intro c
    unfold Char.toLower
    grind
  rw [List.map_map]
  exact List.map_congr_left fun c _ => hlower c

theorem claiming?_map_toLower (extension : Text) :
    Language.claiming? (extension.map Char.toLower) = Language.claiming? extension := by
  have hclaims : ∀ language : Language,
      language.claims (extension.map Char.toLower) = language.claims extension := by
    intro language
    simp only [Language.claims, Language.sameExtension, map_toLower_toLower]
  simp only [Language.claiming?, hclaims]

theorem word_associateAll (registry : Registry) (pairs : List (Text × Text)) :
    (registry.associateAll pairs).word = registry.word := by
  induction pairs generalizing registry with
  | nil => rfl
  | cons pair pairs ih => exact ih (registry.associate pair.1 pair.2)

theorem aliases_associateAll (registry : Registry) (pairs : List (Text × Text)) :
    (registry.associateAll pairs).aliases =
      pairs.foldl (fun aliases pair => aliases.assign (key pair.1) pair.2) registry.aliases := by
  induction pairs generalizing registry with
  | nil => rfl
  | cons pair pairs ih => exact ih (registry.associate pair.1 pair.2)

/-- **The last association of an extension wins**, whatever its letter case or its dot. -/
theorem aliased?_associateAll (word : Text) (pairs : List (Text × Text)) (extension : Text) :
    (associateAll { word } pairs).aliased? extension =
      (lastUnder? pairs (extension.map Char.toLower)).bind (Language.named? ·.2) := by
  rw [aliased?, aliases_associateAll, Dictionary.get?_foldl_assign, lastUnder?]
  cases pairs.reverse.find? (key ·.1 == extension.map Char.toLower) <;> rfl

theorem lastUnder?_eq_some {pairs : List (Text × Text)} {filed : Text} {last : Text × Text}
    (h : lastUnder? pairs filed = some last) : last ∈ pairs ∧ key last.1 = filed := by
  refine ⟨List.mem_reverse.1 (List.mem_of_find?_eq_some h), ?_⟩
  simpa using List.find?_some h

theorem lastUnder?_eq_none {pairs : List (Text × Text)} {filed : Text} :
    lastUnder? pairs filed = none ↔ ∀ pair ∈ pairs, key pair.1 ≠ filed := by
  simp [lastUnder?]

theorem lastUnder?_concat (pairs : List (Text × Text)) (pair : Text × Text) :
    lastUnder? (pairs ++ [pair]) (key pair.1) = some pair := by
  simp [lastUnder?]

/-- Where no directive names a language and the table does not claim the extension, two registries
resolve alike exactly if they have the same alias. -/
theorem resolve_dot_eq_iff {registry other : Registry} {extension : Text}
    (h : Language.claiming? extension = none) :
    registry.resolve none ('.' :: extension) = other.resolve none ('.' :: extension) ↔
      registry.aliased? extension = other.aliased? extension := by
  have hdot : normalize ('.' :: extension) = extension := rfl
  simp only [resolve, hdot, h, Option.bind_none, Option.none_or]
  cases registry.aliased? extension <;> cases other.aliased? extension <;> simp

theorem resolve_congr {registry other : Registry}
    (h : ∀ extension, Language.claiming? extension = none →
      registry.aliased? extension = other.aliased? extension)
    (directive : Option Text) (extension : Text) :
    registry.resolve directive extension = other.resolve directive extension := by
  simp only [resolve]
  cases hclaim : Language.claiming? (normalize extension) with
  | some language => rfl
  | none => rw [h _ hclaim]

end Registry

namespace Config

open Registry

def associateAll (config : Config) (pairs : List (Text × Text)) : Config :=
  pairs.foldl (fun config (extension, language) => config.associate extension language) config

def inOrder (config : Config) (order : List (Text × Text)) : Config :=
  { config with associations := order }

theorem settings_associateAll (config : Config) (pairs : List (Text × Text)) :
    (config.associateAll pairs).settings = config.settings := by
  induction pairs generalizing config with
  | nil => rfl
  | cons pair pairs ih => exact ih (config.associate pair.1 pair.2)

theorem associations_associateAll (config : Config) (pairs : List (Text × Text)) :
    (config.associateAll pairs).associations =
      pairs.foldl (fun entries pair => entries.assign pair.1 pair.2) config.associations := by
  induction pairs generalizing config with
  | nil => rfl
  | cons pair pairs ih => exact ih (config.associate pair.1 pair.2)

theorem registry_eq_associateAll (config : Config) :
    config.registry = Registry.associateAll { word := config.directiveWord } config.associations :=
  rfl

theorem directiveWord_of_text? {config : Config} {word : Text}
    (h : config.text? "directive" = some word) (hne : word ≠ []) : config.directiveWord = word := by
  rw [directiveWord, h, Option.filter_some_pos (by simpa using hne), Option.getD_some]

theorem mem_associations_of_lastUnder? (config : Config) {pairs : List (Text × Text)}
    {filed : Text} {last : Text × Text} (h : lastUnder? pairs filed = some last) :
    last ∈ (config.associateAll pairs).associations := by
  have hkey := (lastUnder?_eq_some h).2
  have hlast : pairs.reverse.find? (·.1 == last.1) = some last := by
    rw [lastUnder?, List.find?_eq_some_iff_append] at h
    obtain ⟨_, before, after, hsplit, hbefore⟩ := h
    rw [List.find?_eq_some_iff_append]
    refine ⟨by simp, before, after, hsplit, fun pair hpair => ?_⟩
    -- The same spelling would have the same key, and `last` is the last pair with this key.
    have hne := hbefore pair hpair
    rw [← hkey] at hne
    simp only [Bool.not_eq_true', beq_eq_false_iff_ne] at hne ⊢
    exact fun heq => hne (congrArg key heq)
  refine Dictionary.mem_of_get? ?_
  have hget := Dictionary.get?_foldl_assign id pairs last.1 config.associations
  simp only [id_eq, hlast] at hget
  rw [associations_associateAll]
  exact hget

/-- **Configured and direct associations agree unless two spellings of an extension differ.**  In
whatever order a configuration hands over the associations that were made one after the other, its
registry has the configured directive; and it resolves like the registry to which they were made
directly exactly if two entries for one extension that the table does not claim, up to letter case
and dot, never differ in their languages. -/
theorem resolve_registry_eq_iff (config : Config) {word : Text} (hempty : config.associations = [])
    (hword : config.text? "directive" = some word) (hne : word ≠ []) (pairs : List (Text × Text)) :
    (∀ order, order.Perm (config.associateAll pairs).associations → ∀ source,
      ((config.associateAll pairs).inOrder order).registry.directive? source =
        (Registry.associateAll { word } pairs).directive? source) ∧
    ((∀ order, order.Perm (config.associateAll pairs).associations → ∀ directive extension,
      ((config.associateAll pairs).inOrder order).registry.resolve directive extension =
        (Registry.associateAll { word } pairs).resolve directive extension) ↔
      ∀ first ∈ (config.associateAll pairs).associations,
        ∀ second ∈ (config.associateAll pairs).associations, key first.1 = key second.1 →
          Language.claiming? (key first.1) = none →
          Language.named? first.2 = Language.named? second.2) := by
  have hregistry : ∀ order, ((config.associateAll pairs).inOrder order).registry =
      Registry.associateAll { word } order := by
    intro order
    have htext : ((config.associateAll pairs).inOrder order).text? "directive" = some word := by
      rw [← hword, text?, text?, get?, get?, inOrder, settings_associateAll]
    rw [registry_eq_associateAll, directiveWord_of_text? htext hne]
    rfl
  simp only [hregistry]
  refine ⟨fun order _ source => ?_, fun hagree first hfirst second hsecond hkey hclaim => ?_, ?_⟩
  · rw [directive?, directive?, word_associateAll, word_associateAll]
  · -- Either entry can be the last one that is handed over.
    have hlast : ∀ entry ∈ (config.associateAll pairs).associations, key entry.1 = key first.1 →
        Language.named? entry.2 =
          (Registry.associateAll { word } pairs).aliased? (key first.1) := by
      intro entry hentry hsame
      have hperm := (List.perm_append_singleton entry _).trans (List.perm_cons_erase hentry).symm
      have heq := hagree _ hperm none ('.' :: key first.1)
      rw [resolve_dot_eq_iff hclaim] at heq
      have hlower : (key first.1).map Char.toLower = key entry.1 := by
        rw [hsame, key, map_toLower_toLower]
      rw [← heq, aliased?_associateAll, hlower, lastUnder?_concat, Option.bind_some]
    rw [hlast first hfirst rfl, hlast second hsecond hkey.symm]
  · intro hsame order hperm
    refine resolve_congr fun extension hclaim => ?_
    rw [aliased?_associateAll, aliased?_associateAll]
    rw [← claiming?_map_toLower] at hclaim
    cases hdirect : lastUnder? pairs (extension.map Char.toLower) with
    | none =>
      have hnone : lastUnder? order (extension.map Char.toLower) = none := by
        rw [lastUnder?_eq_none] at hdirect ⊢
        intro pair hpair
        have hmem := hperm.mem_iff.1 hpair
        rw [associations_associateAll, hempty] at hmem
        exact hdirect pair
          ((Dictionary.mem_of_mem_foldl_assign pairs pair [] hmem).resolve_right nofun)
      rw [hnone]
    | some last =>
      have hmem := mem_associations_of_lastUnder? config hdirect
      have hkey := (lastUnder?_eq_some hdirect).2
      cases horder : lastUnder? order (extension.map Char.toLower) with
      | none => exact absurd hkey (lastUnder?_eq_none.1 horder last (hperm.mem_iff.2 hmem))
      | some found =>
        obtain ⟨hfound, hfoundKey⟩ := lastUnder?_eq_some horder
        refine hsame found (hperm.mem_iff.1 hfound) last hmem (hfoundKey.trans hkey.symm) ?_
        rw [hfoundKey]
        exact hclaim

/-- Two spellings that are left with the same language, and one that the table claims, handed over
in another order. -/
theorem resolve_registry_eq_iff_foo :
    (inOrder (associateAll (set {} "directive" (.text "lang"))
        [("foo", "rust"), (".FOO", "python"), ("PY", "go"), ("foo", "python")])
          [("PY", "go"), (".FOO", "python"), ("foo", "python")]).registry.resolve none ".fOo" =
      (Registry.associateAll { word := "lang" }
        [("foo", "rust"), (".FOO", "python"), ("PY", "go"), ("foo", "python")]).resolve none
          ".fOo" ∧
    (Registry.associateAll { word := "lang" }
      [("foo", "rust"), (".FOO", "python"), ("PY", "go"), ("foo", "python")]).resolve none ".fOo" =
        .ok .python := by
  refine ⟨?_, by decide +kernel⟩
  refine (resolve_registry_eq_iff (set {} "directive" (.text "lang")) rfl rfl (by decide) _).2.2
    (by decide +kernel) _ ?_ none ".fOo"
  decide

/-- Two spellings that are left with different languages.  The last association is the one for Go,
but the configuration hands over the one for Rust after it. -/
theorem resolve_registry_ne_foo :
    (associateAll (set {} "directive" (.text "lang"))
      [("foo", "python"), ("FOO", "rust"), ("foo", "go")]).registry.resolve none "foo" =
        .ok .rust ∧
    (Registry.associateAll { word := "lang" }
      [("foo", "python"), ("FOO", "rust"), ("foo", "go")]).resolve none "foo" = .ok .go := by
  decide +kernel

end Config

end Literate
