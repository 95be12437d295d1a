import Literate.FileTree
import Mathlib.Tactic.Common

/-!
# Writing a file

A file that is written over another changes the entry at one path (`entry?_write`).  What else
depends on the tree are the ways through it, and on the way it is never asked what a file holds:
trees that differ in the content of files only (`SameShape`) have the same ways,

  `tree.follow links directory names = other.follow links directory names`

(`SameShape.follow_eq`).

So every written path leads where it led before (`resolve_write`), and the written paths whose
content changes are those that lead to the file (`content?_write`).
-/

namespace Literate

/-- The entry without what it holds, if it is a file that may be read. -/
def Entry.shape : Entry → Entry
  | .file _ => .file .empty
  | entry => entry

namespace FileTree

variable {tree other : FileTree} {path : Path}

/-! ## Entries -/

theorem lookup_filter_of_ne {α β : Type} [BEq α] [LawfulBEq α] {key other : α} (h : other ≠ key)
    (pairs : List (α × β)) :
    (pairs.filter (·.1 != key)).lookup other = pairs.lookup other := by
  induction pairs with
  | nil => rfl
  | cons pair pairs ih =>
    by_cases hkey : pair.1 = key
    · have hother : (other == pair.1) = false := beq_eq_false_iff_ne.2 (hkey ▸ h)
      rw [List.filter_cons_of_neg (by simp [hkey]), ih, List.lookup_cons, hother]
    · rw [List.filter_cons_of_pos (by simp [hkey]), List.lookup_cons, List.lookup_cons, ih]

/-- **One entry changes.**  The root stays a directory. -/
theorem entry?_write (tree : FileTree) (hpath : path ≠ []) (content : ByteArray) (place : Path) :
    entry? (tree.write path content) place =
      if place = path then some (.file content) else tree.entry? place := by
  by_cases hplace : place = path
  · subst hplace
    rw [if_pos rfl, entry?, if_neg (by simpa using hpath), write, put, List.lookup_cons_self]
  · rw [if_neg hplace, entry?, entry?, write, put, List.lookup_cons,
      beq_eq_false_iff_ne.2 hplace]
    simp only [lookup_filter_of_ne hplace]

theorem ne_nil_of_entry?_eq_file {content : ByteArray}
    (h : tree.entry? path = some (.file content)) : path ≠ [] := by
  intro hpath
  rw [hpath] at h
  cases h

theorem readAt?_eq_some_iff {content : ByteArray} :
    tree.readAt? path = some content ↔
      tree.searchable path.dropLast = true ∧ tree.entry? path = some (.file content) := by
  rw [readAt?]
  split
  · rename_i hentry
    rw [hentry]
    simp
  · rename_i hnone
    simp only [reduceCtorEq, false_iff]
    exact fun h => hnone content h.2

/-! ## Ways -/

def enter (tree : FileTree) (links : Nat) (directory path : Path) (rest : List Text) :
    Option Entry → Except PathError Path
  | none => .error .notFound
  | some .directory | some .closed => tree.follow links path rest
  | some (.link target) =>
    match links with
    | 0 => .error .tooManyLinks
    | links + 1 =>
      let start := if target.head? == some '/' then [] else directory
      tree.follow links start (Path.split target ++ rest)
  | some _ => if rest.isEmpty then .ok path else .error (Path.errorBelow path rest)

theorem follow_cons (tree : FileTree) (links : Nat) (directory : Path) (name : Text)
    (rest : List Text) :
    tree.follow links directory (name :: rest) =
      if Path.stays name then tree.follow links directory rest
      else if name == ['.', '.'] then tree.follow links directory.dropLast rest
      else if !Path.fits (directory ++ [name]) then .error .nameTooLong
      else if !tree.searchable directory then .error .permissionDenied
      else if Path.longestName < name.byteSize then .error .nameTooLong
      else
        tree.enter links directory (directory ++ [name]) rest <|
          tree.entry? (directory ++ [name]) := by
  rw [follow]
  rfl

theorem enter_map_shape (tree : FileTree) (links : Nat) (directory path : Path)
    (rest : List Text) (entry : Option Entry) :
    tree.enter links directory path rest (entry.map Entry.shape) =
      tree.enter links directory path rest entry := by
  cases entry with
  | none => rfl
  | some entry => cases entry <;> rfl

/-- What stands at a path, without what files hold. -/
def shape? (tree : FileTree) (path : Path) : Option Entry :=
  tree.entry? path |>.map Entry.shape

/-- The trees differ in what their files hold at most. -/
structure SameShape (tree other : FileTree) : Prop where
  shape?_eq : ∀ path, tree.shape? path = other.shape? path
  workingDirectory_eq : tree.workingDirectory = other.workingDirectory

theorem shape_eq_closed_iff {entry : Entry} : entry.shape = .closed ↔ entry = .closed := by
  cases entry <;> simp [Entry.shape]

theorem shape?_ne_closed_iff :
    (tree.entry? path != some .closed) = true ↔ tree.shape? path ≠ some .closed := by
  rw [bne_iff_ne, shape?, ne_eq, ne_eq, Option.map_eq_some_iff]
  refine not_congr ⟨fun h => ⟨_, h, rfl⟩, ?_⟩
  rintro ⟨entry, hentry, hshape⟩
  rw [hentry, shape_eq_closed_iff.1 hshape]

theorem SameShape.searchable_eq (h : tree.SameShape other) (directory : Path) :
    tree.searchable directory = other.searchable directory := by
  rw [Bool.eq_iff_iff]
  simp only [searchable, List.all_eq_true, shape?_ne_closed_iff, h.shape?_eq]

/-- **Where names lead does not depend on what files hold.** -/
theorem SameShape.follow_eq (h : tree.SameShape other) (links : Nat) (directory : Path)
    (names : List Text) :
    tree.follow links directory names = other.follow links directory names := by
  -- A link puts more names on the way, but then fewer links may follow.
  induction links using Nat.strongRecOn generalizing directory names with
  | ind links ihLinks =>
    induction names generalizing directory with
    | nil => rw [follow, follow]
    | cons name rest ih =>
      have henter : ∀ path entry, tree.enter links directory path rest entry =
          other.enter links directory path rest entry := by
        intro path entry
        cases entry with
        | none => rfl
        | some entry =>
          cases entry with
          | directory => exact ih path
          | closed => exact ih path
          | link target =>
            cases links with
            | zero => rfl
            | succ links => exact ihLinks links (Nat.lt_succ_self links) _ _
          | file content => rfl
          | sealed content => rfl
          | device => rfl
          | pipe => rfl
      rw [follow_cons, follow_cons, ih, ih, h.searchable_eq, ← enter_map_shape, ← shape?,
        h.shape?_eq, shape?, enter_map_shape, henter]

theorem SameShape.resolve_eq (h : tree.SameShape other) (written : Text) :
    tree.resolve written = other.resolve written := by
  simp only [resolve, h.workingDirectory_eq, h.follow_eq]

/-! ## A file in the place of another -/

section Overwriting

variable {old content : ByteArray}

theorem sameShape_write (hfile : tree.entry? path = some (.file old)) :
    (tree.write path content).SameShape tree where
  shape?_eq place := by
    rw [shape?, shape?, entry?_write tree (ne_nil_of_entry?_eq_file hfile)]
    by_cases hplace : place = path
    · rw [if_pos hplace, hplace, hfile]
      rfl
    · rw [if_neg hplace]
  workingDirectory_eq := rfl

theorem resolve_write (hfile : tree.entry? path = some (.file old)) (written : Text) :
    (tree.write path content).resolve written = tree.resolve written :=
  (sameShape_write hfile).resolve_eq written

/-- **The content changes of the written paths that lead to the file.** -/
theorem content?_write (hfile : tree.entry? path = some (.file old)) (written : Text) :
    (tree.write path content).content? written =
      if tree.resolve written = .ok path then some content else tree.content? written := by
  rw [content?, content?, resolve_write hfile]
  cases tree.resolve written with
  | error error => simp
  | ok place =>
    simp only [entry?_write tree (ne_nil_of_entry?_eq_file hfile), Except.ok.injEq]
    by_cases hplace : place = path
    · rw [if_pos hplace, if_pos hplace]
    · rw [if_neg hplace, if_neg hplace]

/-- One file of the tree has a new content, and nothing else is different. -/
structure Overwritten (tree : FileTree) (path : Path) (content : ByteArray) (after : FileTree) :
    Prop where
  wasFile : ∃ old, tree.entry? path = some (.file old)
  file : after.entry? path = some (.file content)
  others : ∀ place, place ≠ path → after.entry? place = tree.entry? place
  workingDirectory : after.workingDirectory = tree.workingDirectory
  resolve : ∀ written, after.resolve written = tree.resolve written
  content : ∀ written, after.content? written =
    if tree.resolve written = .ok path then some content else tree.content? written

theorem overwritten_write (hfile : tree.entry? path = some (.file old)) (content : ByteArray) :
    tree.Overwritten path content (tree.write path content) where
  wasFile := ⟨old, hfile⟩
  file := by rw [entry?_write tree (ne_nil_of_entry?_eq_file hfile), if_pos rfl]
  others place hplace := by
    rw [entry?_write tree (ne_nil_of_entry?_eq_file hfile), if_neg hplace]
  workingDirectory := rfl
  resolve := resolve_write hfile
  content := content?_write hfile

end Overwriting

end FileTree

end Literate
