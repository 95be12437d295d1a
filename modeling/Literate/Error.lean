import Literate.Region.Mode
import Literate.Text.Quoted

/-!
# What can go wrong

Loading fails only if no language fits, and saving fails only if a region that came back from the
editing surface makes no sense.  Classifying never fails.
-/

namespace Literate

/-- Why a region cannot be written back. -/
inductive Fault where
  | unknownKind (kind : Text)
  | badTerminator (terminator : Text)
  | badIndent (indent : Text)
  /-- The language has no inline comments. -/
  | noMarker
  deriving DecidableEq, Repr

def Fault.message : Fault → Text
  | unknownKind kind => RegionKind.unknown kind
  | badTerminator terminator => "terminator " ++ terminator.quoted ++ " is not a line ending"
  | badIndent indent => "doc indent " ++ indent.quoted ++ " is not whitespace"
  | noMarker => "language has no inline comment to save doc blocks with"

/-- Why a document cannot be loaded or saved. -/
inductive Error where
  /-- Neither a directive nor the extension names a language. -/
  | unresolved (directive : Option Text) (extension : Text)
  /-- The region at this index, counted from zero, cannot be written back. -/
  | malformed (index : Nat) (fault : Fault)
  deriving DecidableEq, Repr

def Error.message : Error → Text
  | unresolved directive extension =>
    "unable to determine a language for directive " ++ Text.quoted? directive ++
      " and extension " ++ extension.quoted
  | malformed index fault =>
    "region " ++ Text.ofNat index ++ " is malformed: " ++ fault.message

end Literate
