import Literate.Text.Line

/-!
# Differences between texts

Two texts are compared line by line.  What they share is a longest common subsequence of their
lines; the rest is deleted or inserted.  A report shows the changed lines in hunks, each with up to
three unchanged lines around it.
-/

namespace Literate

/-- The lines of a text with their terminators.  A text that ends with a terminator has no line
after it. -/
def Text.fullLines (text : Text) : List Text :=
  (text.lines.map fun line => line.text ++ (line.terminator.map LineEnding.text).getD []).filter
    (!·.isEmpty)

/-- What happens to one line. -/
inductive Edit where
  | keep (line : Text)
  | delete (line : Text)
  | insert (line : Text)
  deriving DecidableEq, Repr

namespace Edit

def isChange : Edit → Bool
  | keep _ => false
  | _ => true

def isDelete : Edit → Bool
  | delete _ => true
  | _ => false

/-- The edit takes up a line of the old text. -/
def inOld : Edit → Bool
  | insert _ => false
  | _ => true

/-- The edit takes up a line of the new text. -/
def inNew : Edit → Bool
  | delete _ => false
  | _ => true

end Edit

namespace Difference

/-! ## Longest common subsequences -/

/-- The table row of a line above the row `below`.  Entry `j` of a row is the length of a longest
common subsequence of the remaining old lines and the new lines from `j` on. -/
def rowAbove (line : Text) : List Text → List Nat → List Nat
  | other :: others, down :: diagonal :: below =>
    let row := rowAbove line others (diagonal :: below)
    (if line == other then diagonal + 1 else max down (row.headD 0)) :: row
  | _, _ => [0]

/-- The table, one row for each number of old lines that are passed over. -/
def table (new : List Text) : List Text → List (List Nat)
  | [] => [List.replicate (new.length + 1) 0]
  | line :: old =>
    let rows := table new old
    rowAbove line new (rows.headD []) :: rows

/-- Follow the table from its upper left corner, with `column` new lines passed over already. -/
def walk (column : Nat) : List (List Nat) → List Text → List Text → List Edit
  | _, [], new => new.map .insert
  | _, old, [] => old.map .delete
  | rows, line :: old, other :: new =>
    if line == other then
      .keep line :: walk (column + 1) (rows.drop 1) old new
    else if ((rows.drop 1).headD []).getD column 0 ≥ (rows.headD []).getD (column + 1) 0 then
      .delete line :: walk column (rows.drop 1) old (other :: new)
    else
      .insert other :: walk (column + 1) rows (line :: old) new
termination_by _ old new => old.length + new.length

/-- In a stretch of changes, deletions come before insertions. -/
def deletionsFirst (edits : List Edit) : List Edit :=
  (edits.splitBy fun a b => a.isChange && b.isChange).flatMap fun stretch =>
    stretch.filter Edit.isDelete ++ stretch.filter (!·.isDelete)

/-- The common lines at the front of two lists, and what is left of both. -/
def commonFront : List Text → List Text → List Text × List Text × List Text
  | line :: old, other :: new =>
    if line == other then
      let (front, rest) := commonFront old new
      (line :: front, rest)
    else
      ([], line :: old, other :: new)
  | old, new => ([], old, new)

/-- The edits that lead from the old lines to the new ones. -/
def edits (old new : List Text) : List Edit :=
  let (front, old, new) := commonFront old new
  let (back, old, new) := commonFront old.reverse new.reverse
  let old := old.reverse
  let new := new.reverse
  front.map .keep ++ deletionsFirst (walk 0 (table new old) old new) ++ back.reverse.map .keep

/-! ## Hunks -/

/-- Unchanged lines shown on each side of a change. -/
def context : Nat :=
  3

/-- For each edit, whether at most `context` edits before it there is a change.  `reach` is the
number of edits that a change before them still covers. -/
def covered (reach : Nat) : List Edit → List Bool
  | [] => []
  | edit :: edits =>
    if edit.isChange then true :: covered context edits
    else decide (0 < reach) :: covered (reach - 1) edits

/-- The edits, each with whether it is shown. -/
def marked (edits : List Edit) : List (Edit × Bool) :=
  edits.zip ((covered 0 edits).zipWith (· || ·) (covered 0 edits.reverse).reverse)

/-- Edits that are shown together, and the numbers of old and new lines before them. -/
structure Hunk where
  oldBefore : Nat
  newBefore : Nat
  edits : List Edit
  deriving DecidableEq, Repr

/-- The hunks among stretches of edits that are shown or not. -/
def hunksFrom (oldBefore newBefore : Nat) : List (List (Edit × Bool)) → List Hunk
  | [] => []
  | stretch :: stretches =>
    let edits := stretch.map (·.1)
    let oldAfter := oldBefore + edits.countP Edit.inOld
    let newAfter := newBefore + edits.countP Edit.inNew
    let rest := hunksFrom oldAfter newAfter stretches
    if stretch.any (·.2) then { oldBefore, newBefore, edits } :: rest else rest

def hunks (edits : List Edit) : List Hunk :=
  hunksFrom 0 0 ((marked edits).splitBy fun a b => a.2 == b.2)

/-! ## The report -/

/-- A range of lines, by the number of lines before it and its length.  A length of one is not
written, and an empty range is placed at the line before it. -/
def rangeText (before length : Nat) : Text :=
  if length = 1 then Text.ofNat (before + 1)
  else Text.ofNat (if length = 0 then before else before + 1) ++ "," ++ Text.ofNat length

/-- A line after its sign.  It ends as it does in its text; a line without a terminator gets one,
and a remark. -/
def lineText (sign : Char) (line : Text) : Text :=
  let hint : Text :=
    if line.getLast?.any isLineBreak then "" else "\n\\ No newline at end of file\n"
  sign :: line ++ hint

def editText : Edit → Text
  | .keep line => lineText ' ' line
  | .delete line => lineText '-' line
  | .insert line => lineText '+' line

def hunkText (hunk : Hunk) : Text :=
  "@@ -" ++ rangeText hunk.oldBefore (hunk.edits.countP Edit.inOld) ++
    " +" ++ rangeText hunk.newBefore (hunk.edits.countP Edit.inNew) ++ " @@\n" ++
    hunk.edits.flatMap editText

/-- The report on two texts under their names. -/
def report (oldName newName old new : Text) : Text :=
  match hunks (edits old.fullLines new.fullLines) with
  | [] => []
  | found =>
    "--- " ++ oldName ++ "\n+++ " ++ newName ++ "\n" ++ found.flatMap hunkText

end Difference

end Literate
