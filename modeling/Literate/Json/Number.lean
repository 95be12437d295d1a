import Literate.Text.Basic

/-!
# JSON numbers

A number is an integer without leading zeros, with an optional fraction and an optional exponent.
Its value is never needed, but it has to be one that a binary floating-point number of double
precision can approximate: the leading digits that fit into 64 bits, times a power of ten, must not
round to infinity.
-/

namespace Literate

namespace Json

/-- The parts of a number, without its sign. -/
structure Number where
  integer : Text
  fraction : Text
  exponent : Int
  /-- The number of characters it was read from. -/
  length : Nat
  deriving Repr

namespace Number

def ofDigits (digits : Text) : Nat :=
  digits.foldl (fun value c => 10 * value + (c.toNat - '0'.toNat)) 0

/-- A fraction at the front of a text, and its length.  A point needs a digit after it. -/
def readFraction? : Text → Option (Text × Nat)
  | '.' :: rest =>
    let digits := rest.takeWhile Char.isDigit
    if digits.isEmpty then none else some (digits, digits.length + 1)
  | _ => some ([], 0)

/-- The digits of an exponent, after its sign. -/
def readExponentDigits? (isNegative : Bool) (before : Nat) (text : Text) : Option (Int × Nat) :=
  let digits := text.takeWhile Char.isDigit
  let value : Int := ofDigits digits
  if digits.isEmpty then none
  else some (if isNegative then -value else value, before + digits.length)

/-- An exponent at the front of a text, and its length. -/
def readExponent? : Text → Option (Int × Nat)
  | [] => some (0, 0)
  | c :: rest =>
    if c == 'e' || c == 'E' then
      match rest with
      | '+' :: rest => readExponentDigits? false 2 rest
      | '-' :: rest => readExponentDigits? true 2 rest
      | rest => readExponentDigits? false 1 rest
    else
      some (0, 0)

/-- The rest of a number after its sign, which took `before` characters. -/
def readAfterSign? (before : Nat) (text : Text) : Option Number := do
  let integer := text.takeWhile Char.isDigit
  if integer.isEmpty || integer.head? == some '0' && 1 < integer.length then none
  let rest := text.drop integer.length
  let (fraction, fractionLength) ← readFraction? rest
  let (exponent, exponentLength) ← readExponent? (rest.drop fractionLength)
  let length := before + integer.length + fractionLength + exponentLength
  some { integer, fraction, exponent, length }

/-- A number at the front of a text. -/
def read? : Text → Option Number
  | '-' :: rest => readAfterSign? 1 rest
  | text => readAfterSign? 0 text

/-- Add digits to a significand as long as it fits into 64 bits.  The result is the significand and
the number of digits that did not fit. -/
def extend (significand : Nat) : Text → Nat × Nat
  | [] => (significand, 0)
  | c :: rest =>
    let next := 10 * significand + (c.toNat - '0'.toNat)
    if next < UInt64.size then extend next rest else (significand, rest.length + 1)

/-- The nearest number with 53 binary digits; a tie goes to the even one. -/
def nearest (n : Nat) : Nat :=
  let unit := Nat.pow 2 (n.log2 + 1 - 53)
  let quotient := n / unit
  let twice := 2 * (n % unit)
  if unit < twice || unit == twice && quotient % 2 == 1 then (quotient + 1) * unit
  else quotient * unit

/-- The number does not round to infinity. -/
def isFinite (number : Number) : Bool :=
  let (significand, unread) := extend 0 number.integer
  let (significand, unreadFraction) := extend significand number.fraction
  let exponent := number.exponent + unread - (number.fraction.length - unreadFraction : Nat)
  significand == 0 || exponent < 0 ||
    exponent ≤ 308 &&
      nearest (nearest significand * nearest (Nat.pow 10 exponent.toNat)) < Nat.pow 2 1024

end Number

end Json

end Literate
