import Literate.Json.Basic
import Literate.Json.Number

/-!
# Reading JSON

A text is first cut into symbols: brackets, commas, colons, strings and the other scalars.  The
symbols are then fed to a machine that keeps the containers it is inside of on a stack, at most
`maximalDepth` of them.  Both parts walk over their input once, from left to right.
-/

namespace Literate

namespace Json

/-- A symbol of a JSON text. -/
inductive Symbol where
  | leftBracket
  | rightBracket
  | leftBrace
  | rightBrace
  | comma
  | colon
  | string (value : Text)
  | scalar (value : Json)
  deriving Repr

/-! ## Strings -/

/-- The character that a letter after a backslash stands for. -/
def escaped? (c : Char) : Option Char :=
  match c with
  | '\x22' => some '\x22'
  | '\\' => some '\\'
  | '/' => some '/'
  | 'b' => some '\x08'
  | 'f' => some '\x0c'
  | 'n' => some '\n'
  | 'r' => some '\r'
  | 't' => some '\t'
  | _ => none

def hexDigit? (c : Char) : Option Nat :=
  if c.isDigit then some (c.toNat - '0'.toNat)
  else if 'a' ≤ c && c ≤ 'f' then some (c.toNat - 'a'.toNat + 10)
  else if 'A' ≤ c && c ≤ 'F' then some (c.toNat - 'A'.toNat + 10)
  else none

/-- The number that four hexadecimal digits stand for. -/
def codeUnit? (a b c d : Char) : Option Nat := do
  some (((← hexDigit? a) * 16 + (← hexDigit? b)) * 256 + (← hexDigit? c) * 16 + (← hexDigit? d))

def isHighSurrogate (unit : Nat) : Bool :=
  0xD800 ≤ unit && unit ≤ 0xDBFF

def isLowSurrogate (unit : Nat) : Bool :=
  0xDC00 ≤ unit && unit ≤ 0xDFFF

/-- The character that a pair of surrogates stands for. -/
def surrogatePair (high low : Nat) : Char :=
  Char.ofNat (0x10000 + (high - 0xD800) * 0x400 + (low - 0xDC00))

/-- The rest of a string after its opening quote.  The characters read so far are in `found`, back
to front, and `passed` is the number of characters they were read from.  A surrogate needs its
partner, and controls have to be escaped. -/
def readString? (found : Text) (passed : Nat) : Text → Option (Text × Nat)
  | [] => none
  | '\x22' :: _ => some (found.reverse, passed + 1)
  | '\\' :: 'u' :: a :: b :: c :: d :: '\\' :: 'u' :: e :: f :: g :: h :: rest => do
    let unit ← codeUnit? a b c d
    if isHighSurrogate unit then
      let low ← codeUnit? e f g h
      if isLowSurrogate low then readString? (surrogatePair unit low :: found) (passed + 12) rest
      else none
    else if isLowSurrogate unit then none
    else
      readString? (Char.ofNat unit :: found) (passed + 6) ('\\' :: 'u' :: e :: f :: g :: h :: rest)
  | '\\' :: 'u' :: a :: b :: c :: d :: rest => do
    let unit ← codeUnit? a b c d
    if isHighSurrogate unit || isLowSurrogate unit then none
    else readString? (Char.ofNat unit :: found) (passed + 6) rest
  | '\\' :: c :: rest => do readString? ((← escaped? c) :: found) (passed + 2) rest
  | c :: rest =>
    if c < ' ' || c == '\\' then none else readString? (c :: found) (passed + 1) rest

/-! ## Symbols -/

/-- The scalars that are written as words. -/
def words : List (Text × Json) :=
  [("null", .null), ("true", .bool true), ("false", .bool false)]

/-- A word or a number at the front of a text, and its length. -/
def scalar? (text : Text) : Option (Symbol × Nat) :=
  match words.find? (·.1.isPrefixOf text) with
  | some (word, value) => some (.scalar value, word.length)
  | none => do
    let number ← Number.read? text
    if number.isFinite then some (.scalar (.number (text.take number.length)), number.length)
    else none

/-- The symbol at the front of a text, and its length. -/
def symbol? : Text → Option (Symbol × Nat)
  | [] => none
  | c :: rest =>
    match c with
    | '[' => some (.leftBracket, 1)
    | ']' => some (.rightBracket, 1)
    | '\x7b' => some (.leftBrace, 1)
    | '\x7d' => some (.rightBrace, 1)
    | ',' => some (.comma, 1)
    | ':' => some (.colon, 1)
    | '\x22' => (readString? [] 0 rest).map fun (value, length) => (.string value, length + 1)
    | _ => scalar? (c :: rest)

def isJsonBlank (c : Char) : Bool :=
  c == ' ' || c == '\t' || c == '\n' || c == '\r'

/-- Cut a text into symbols.  Its first `inside` characters belong to a symbol already found, and
the symbols found so far are in `found`, latest first. -/
def symbolsFrom? : Nat → List Symbol → Text → Option (List Symbol)
  | _, found, [] => some found.reverse
  | inside + 1, found, _ :: rest => symbolsFrom? inside found rest
  | 0, found, c :: rest =>
    if isJsonBlank c then symbolsFrom? 0 found rest
    else
      match symbol? (c :: rest) with
      | none => none
      | some (symbol, length) => symbolsFrom? (length - 1) (symbol :: found) rest

/-! ## Values -/

/-- A container that is still open.  What it holds so far is latest first. -/
inductive Frame where
  | array (items : List Json)
  | object (fields : List (Text × Json)) (key : Text)
  deriving Repr

/-- What the machine is waiting for. -/
inductive Reader where
  /-- A value. -/
  | value (stack : List Frame)
  /-- The first item of an array, or its end. -/
  | firstItem (stack : List Frame)
  /-- The first key of an object, or its end. -/
  | firstKey (stack : List Frame)
  /-- Another key of an object. -/
  | key (stack : List Frame) (fields : List (Text × Json))
  /-- The colon after a key. -/
  | colon (stack : List Frame) (fields : List (Text × Json)) (key : Text)
  /-- What comes after a complete value. -/
  | after (stack : List Frame) (value : Json)
  deriving Repr

/-- Containers may be nested this deep. -/
def maximalDepth : Nat :=
  127

namespace Reader

/-- The symbol that starts a value. -/
def start (stack : List Frame) : Symbol → Option Reader
  | .string text => some (after stack (.string text))
  | .scalar json => some (after stack json)
  | .leftBracket => if stack.length < maximalDepth then some (firstItem stack) else none
  | .leftBrace => if stack.length < maximalDepth then some (firstKey stack) else none
  | _ => none

/-- Take in one symbol. -/
def feed : Reader → Symbol → Option Reader
  | value stack, symbol => start stack symbol
  | firstItem stack, .rightBracket => some (after stack (.array []))
  | firstItem stack, symbol => start (.array [] :: stack) symbol
  | firstKey stack, .rightBrace => some (after stack (.object []))
  | firstKey stack, .string name => some (colon stack [] name)
  | key stack fields, .string name => some (colon stack fields name)
  | colon stack fields name, .colon => some (value (.object fields name :: stack))
  | after (.array items :: stack) item, .comma => some (value (.array (item :: items) :: stack))
  | after (.array items :: stack) item, .rightBracket =>
    some (after stack (.array (item :: items).reverse))
  | after (.object fields name :: stack) json, .comma =>
    some (key stack ((name, json) :: fields))
  | after (.object fields name :: stack) json, .rightBrace =>
    some (after stack (.object ((name, json) :: fields).reverse))
  | _, _ => none

/-- The value, if nothing is open any more. -/
def result? : Reader → Option Json
  | after [] json => some json
  | _ => none

end Reader

/-- The value that a text consists of. -/
def ofText? (text : Text) : Option Json := do
  let symbols ← symbolsFrom? 0 [] text
  (← symbols.foldlM Reader.feed (.value [])).result?

end Json

end Literate
