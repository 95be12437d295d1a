import Literate.Text.Basic

/-!
# Dictionaries

A dictionary gives values to texts.  Assigning to a text replaces its value, and the entries stand
in the order in which their texts first came.
-/

namespace Literate

/-- Values under texts, each text at most once. -/
abbrev Dictionary (α : Type) := List (Text × α)

namespace Dictionary

variable {α : Type}

/-- The dictionary with a new value for the key: in the place of the old one, or else at the end. -/
def assign : Dictionary α → Text → α → Dictionary α
  | [], key, value => [(key, value)]
  | entry :: entries, key, value =>
    if entry.1 = key then (key, value) :: entries else entry :: assign entries key value

def get? (dictionary : Dictionary α) (key : Text) : Option α :=
  dictionary.lookup key

theorem get?_cons (entry : Text × α) (entries : Dictionary α) (key : Text) :
    get? (entry :: entries) key = if key = entry.1 then some entry.2 else get? entries key := by
  rw [get?, List.lookup_cons]
  by_cases h : key = entry.1
  · rw [if_pos h, beq_iff_eq.2 h]
  · rw [if_neg h, beq_eq_false_iff_ne.2 h]
    rfl

/-- **A value stands under the key it was assigned to**, and under no other. -/
theorem get?_assign (dictionary : Dictionary α) (key : Text) (value : α) (other : Text) :
    (assign dictionary key value).get? other =
      if other = key then some value else dictionary.get? other := by
  induction dictionary with
  | nil => exact get?_cons ..
  | cons entry entries ih =>
    rw [assign]
    by_cases hentry : entry.1 = key
    · rw [if_pos hentry, get?_cons, get?_cons, hentry]
      split <;> rfl
    · rw [if_neg hentry, get?_cons, get?_cons, ih]
      by_cases hother : other = entry.1
      · have hne : other ≠ key := fun h => hentry (hother.symm.trans h)
        rw [if_pos hother, if_pos hother, if_neg hne]
      · rw [if_neg hother, if_neg hother]

/-- Every entry is the one that was assigned or an entry from before. -/
theorem mem_assign {dictionary : Dictionary α} {key : Text} {value : α} {entry : Text × α}
    (h : entry ∈ assign dictionary key value) : entry = (key, value) ∨ entry ∈ dictionary := by
  induction dictionary with
  | nil => exact Or.inl (List.mem_singleton.1 h)
  | cons first entries ih =>
    rw [assign] at h
    split at h
    · exact (List.mem_cons.1 h).imp_right (List.mem_cons_of_mem _)
    · rcases List.mem_cons.1 h with rfl | h
      · exact Or.inr (List.mem_cons_self ..)
      · exact (ih h).imp_right (List.mem_cons_of_mem _)

theorem mem_of_get? {dictionary : Dictionary α} {key : Text} {value : α}
    (h : dictionary.get? key = some value) : (key, value) ∈ dictionary := by
  induction dictionary with
  | nil => exact absurd h nofun
  | cons entry entries ih =>
    rw [get?_cons] at h
    split at h
    · next hkey =>
      obtain rfl := Option.some.inj h
      rw [hkey]
      exact List.mem_cons_self ..
    · exact List.mem_cons_of_mem _ (ih h)

end Dictionary

end Literate
