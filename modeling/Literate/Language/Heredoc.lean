import Literate.Text.Form

/-!
# Here-documents

A here-document names its own end: it opens with a fixed text around a delimiter of the author's
choice, and closes where that delimiter comes again in a fixed setting.  A rule says what may stand
before the opening, how it is built, and how the closing is built:

  opening: `lead` `start` delimiter `startEnd`,
  closing: `stop` (any run of `stopIndent` characters) delimiter `stopEnd`.

The lead and the delimiter are of any form.
-/

namespace Literate

namespace Heredoc

/-- What has to stand before an opening, and belongs to it. -/
abbrev Lead := Form

/-- The delimiters that an opening may choose. -/
abbrev Shape := Form

namespace Lead

def anything : Lead :=
  .empty

/-- The start of a line, or a character that ends a word of a command. -/
def commandBreak : Lead :=
  .either .lineStart (.one (.ofText " \t;&|("))

end Lead

namespace Shape

def nothing : Shape :=
  .empty

/-- A letter or low line, followed by letters, digits and low lines. -/
def word : Shape :=
  .both (.one ⟨[('A', 'Z'), ('a', 'z'), ('_', '_')], false⟩)
    (.run ⟨[('A', 'Z'), ('a', 'z'), ('0', '9'), ('_', '_')], false⟩ 0 none)

/-- One or more characters of one line, none of them the given quote. -/
def quoted (quote : Char) : Shape :=
  .run (.except [quote, '\r', '\n']) 1 none

/-- At most sixteen characters of one line, none of them a parenthesis, backslash or space. -/
def short : Shape :=
  .run (.except "()\\ \r\n") 0 (some 16)

end Shape

end Heredoc

/-- A rule for here-documents. -/
structure Heredoc where
  lead : Heredoc.Lead := .anything
  start : Text
  shape : Heredoc.Shape := .nothing
  startEnd : Text := []
  stop : Text := []
  stopIndent : Text := []
  stopEnd : Text := []
  deriving DecidableEq, Repr

namespace Heredoc

/-- The delimiter, if `start`, a delimiter and `startEnd` can be read from the front of a text. -/
def delimiter? (rule : Heredoc) (text : Text) : Option Text :=
  if rule.start.isPrefixOf text then
    let body := text.drop rule.start.length
    let lengths := rule.shape.lengths (rule.start.lineStartAfter false) body
    (lengths.find? fun n => rule.startEnd.isPrefixOf (body.drop n)).map body.take
  else
    none

/-- The opening at the front of a text: its characters and its delimiter.  A rule with an empty
`start` opens nothing. -/
def opening? (rule : Heredoc) (lineStart : Bool) (text : Text) : Option (Text × Text) :=
  if rule.start.isEmpty then none
  else
    (rule.lead.lengths lineStart text).findSome? fun width =>
      (rule.delimiter? (text.drop width)).map fun delimiter =>
        (text.take (width + rule.start.length + delimiter.length + rule.startEnd.length),
          delimiter)

/-- The length of the closing at the front of a text.  The run of indent characters is as long as
the delimiter after it allows. -/
def closing? (rule : Heredoc) (delimiter text : Text) : Option Nat :=
  if rule.stop.isPrefixOf text then
    let body := text.drop rule.stop.length
    let indent := (body.takeWhile rule.stopIndent.contains).length
    ((List.range (indent + 1)).reverse.find? fun n =>
      (delimiter ++ rule.stopEnd).isPrefixOf (body.drop n)).map fun n =>
        rule.stop.length + n + delimiter.length + rule.stopEnd.length
  else
    none

/-! ## An opening stands at the front of its text -/

theorem start_isPrefix_of_delimiter? {rule : Heredoc} {text delimiter : Text}
    (h : rule.delimiter? text = some delimiter) : rule.start <+: text := by
  unfold delimiter? at h
  split at h
  · next hs => exact List.isPrefixOf_iff_prefix.1 hs
  · simp at h

theorem opening?_isPrefix {rule : Heredoc} {lineStart : Bool} {text opener delimiter : Text}
    (h : rule.opening? lineStart text = some (opener, delimiter)) :
    opener ≠ [] ∧ opener <+: text := by
  unfold opening? at h
  split at h
  · simp at h
  · next hstart =>
    obtain ⟨width, _, h⟩ := List.exists_of_findSome?_eq_some h
    simp only [Option.map_eq_some_iff, Prod.mk.injEq] at h
    obtain ⟨d, hd, rfl, rfl⟩ := h
    refine ⟨?_, List.take_prefix ..⟩
    have hne : rule.start ≠ [] := by simpa using hstart
    have hlen := (start_isPrefix_of_delimiter? hd).length_le
    have hpos := List.length_pos_iff.2 hne
    have : text ≠ [] := by
      rintro rfl
      simp at hlen
      exact hne hlen
    intro h0
    rcases List.take_eq_nil_iff.1 h0 with h | h
    · omega
    · exact this h

end Heredoc

end Literate
