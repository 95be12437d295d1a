import Literate.Text.Basic

/-!
# JSON values

The values that are exchanged with an editing surface.  A number is kept as it is written, and an
object keeps its fields in order, repeated ones included, so that a reader can object to them.
-/

namespace Literate

inductive Json where
  | null
  | bool (value : Bool)
  | number (digits : Text)
  | string (value : Text)
  | array (items : List Json)
  | object (fields : List (Text × Json))
  deriving Repr, Inhabited

namespace Json

def ofNat (n : Nat) : Json :=
  number (Text.ofNat n)

/-- The fields of an object that has only this one. -/
def field (key : Text) (value : Json) : List (Text × Json) :=
  [(key, value)]

/-- A field that is left out if there is no value. -/
def optionalField (key : Text) (value : Option Json) : List (Text × Json) :=
  value.toList.map (key, ·)

/-- The value of a field that comes at most once: none if it does not come, and a failure if it is
repeated. -/
def field? (fields : List (Text × Json)) (key : Text) : Option (Option Json) :=
  match fields.filter (·.1 == key) with
  | [] => some none
  | [(_, value)] => some (some value)
  | _ => none

def asString? : Json → Option Text
  | string value => some value
  | _ => none

/-- A string that may be null or missing. -/
def asOptionalString? : Option Json → Option (Option Text)
  | none => some none
  | some null => some none
  | some (string value) => some (some value)
  | some _ => none

end Json

end Literate
