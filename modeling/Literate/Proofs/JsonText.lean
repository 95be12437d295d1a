import Literate.Json.Printer
import Literate.Json.Reader
import Mathlib.Data.List.Basic

/-!
# Reading undoes printing

A value that is printed over several lines is read back as it was,

  `ofText? (pretty [] json ++ "\n") = some json`   (`ofText?_pretty`),

as long as it is `Readable`: its numbers are natural numbers of 64 bits, and its containers are not
nested too deep.  The two parts of the reader are taken one after the other.  The first one finds
the `symbols` of the value between the blanks (`symbolsFrom?_pretty`), and the machine builds the
value from them on top of whatever is on its stack (`foldlM_feed_symbols`).

A number is the one symbol without an end of its own, so what follows it matters (`Number.Ends`).
-/

namespace Literate

namespace Text

theorem isDigit_of_mem_ofNat {n : Nat} {c : Char} (h : c ∈ ofNat n) : c.isDigit = true :=
  Nat.isDigit_of_mem_toDigits (by decide) (by decide) h

theorem exists_ofNat_eq_cons (n : Nat) :
    ∃ c rest, ofNat n = c :: rest ∧ c.isDigit = true := by
  obtain ⟨c, rest, h⟩ := List.exists_cons_of_ne_nil (Nat.toDigits_ne_nil (n := n) (b := 10))
  refine ⟨c, rest, h, isDigit_of_mem_ofNat (n := n) ?_⟩
  rw [ofNat, h]
  exact List.mem_cons_self

theorem eq_zero_of_head?_ofNat : ∀ {n : Nat}, (ofNat n).head? = some '0' → n = 0 := by
  intro n
  induction n using Nat.strongRecOn with
  | ind n ih =>
    intro h
    by_cases hn : n < 10
    · have hsmall : ∀ m < 10, [Nat.digitChar m].head? = some '0' → m = 0 := by decide
      rw [ofNat, Nat.toDigits_of_lt_base hn] at h
      exact hsmall n hn h
    · rw [ofNat, Nat.toDigits_of_base_le (by decide) (by omega),
        List.head?_append_of_ne_nil _ Nat.toDigits_ne_nil] at h
      have := ih (n / 10) (by omega) h
      omega

end Text

namespace Json

/-! ## Numbers -/

namespace Number

theorem le_ofDigitChars (digits : Text) (n : Nat) : n ≤ Nat.ofDigitChars 10 digits n := by
  rw [Nat.ofDigitChars_eq_ofDigitChars_zero]
  have := Nat.le_mul_of_pos_left n (Nat.pow_pos (n := digits.length) (show 0 < 10 by decide))
  omega

theorem extend_eq {significand : Nat} {digits : Text}
    (h : Nat.ofDigitChars 10 digits significand < UInt64.size) :
    extend significand digits = (Nat.ofDigitChars 10 digits significand, 0) := by
  induction digits generalizing significand with
  | nil => rfl
  | cons c rest ih =>
    rw [Nat.ofDigitChars_cons] at h ⊢
    have hle := le_ofDigitChars rest (10 * significand + (c.toNat - '0'.toNat))
    rw [extend, if_pos (by omega)]
    exact ih h

theorem nearest_le (n : Nat) : nearest n ≤ 2 * n := by
  by_cases hn : n = 0
  · subst hn
    decide
  have hunit : 2 ^ (n.log2 + 1 - 53) ≤ n :=
    calc 2 ^ (n.log2 + 1 - 53)
      _ ≤ 2 ^ n.log2 := Nat.pow_le_pow_right (by decide) (by omega)
      _ ≤ n := Nat.log2_self_le hn
  have hdiv := Nat.div_mul_le_self n (2 ^ (n.log2 + 1 - 53))
  simp only [nearest, Nat.pow_eq]
  split
  · rw [Nat.add_mul, Nat.one_mul]
    omega
  · omega

/-- A natural number of 64 bits does not round to infinity. -/
theorem isFinite_of_lt {number : Number} {n : Nat} (hinteger : number.integer = Text.ofNat n)
    (hfraction : number.fraction = []) (hexponent : number.exponent = 0)
    (hn : n < UInt64.size) : number.isFinite = true := by
  have hvalue : Nat.ofDigitChars 10 (Text.ofNat n) 0 = n := Nat.ofDigitChars_ten_toDigits
  have hextend : extend 0 number.integer = (n, 0) := by
    rw [hinteger, extend_eq (by rw [hvalue]; exact hn), hvalue]
  have hlarge : ∀ bits, 66 < bits → 2 ^ 66 < Nat.pow 2 bits := by
    intro bits hbits
    exact Nat.pow_lt_pow_right (by decide) hbits
  have hbound : nearest (nearest n * nearest 1) < Nat.pow 2 1024 :=
    calc nearest (nearest n * nearest 1)
      _ ≤ 2 * (nearest n * nearest 1) := nearest_le _
      _ = 2 * nearest n := by rw [show nearest 1 = 1 by decide, Nat.mul_one]
      _ ≤ 2 * (2 * n) := Nat.mul_le_mul_left 2 (nearest_le n)
      _ < 2 ^ 66 := by
        have hsize : UInt64.size = 2 ^ 64 := rfl
        omega
      _ < Nat.pow 2 1024 := hlarge 1024 (by decide)
  simp only [isFinite, hextend, hfraction, hexponent, extend]
  rw [Bool.or_eq_true, Bool.and_eq_true]
  exact Or.inr ⟨by decide, decide_eq_true hbound⟩

/-- What can follow a number: nothing that would be read as a part of it. -/
def Ends (rest : Text) : Prop :=
  ∀ c ∈ rest.head?, c.isDigit = false ∧ c ∉ ['.', 'e', 'E']

theorem takeWhile_isDigit_append {n : Nat} {rest : Text} (h : Ends rest) :
    (Text.ofNat n ++ rest).takeWhile Char.isDigit = Text.ofNat n := by
  rw [List.takeWhile_append_of_pos fun c hc => Text.isDigit_of_mem_ofNat hc]
  cases rest with
  | nil => simp
  | cons c rest => simp [(h c rfl).1]

theorem readFraction?_of_ends {rest : Text} (h : Ends rest) :
    readFraction? rest = some ([], 0) := by
  unfold readFraction?
  split
  · exact absurd (h '.' rfl).2 (by decide)
  · rfl

theorem readExponent?_of_ends {rest : Text} (h : Ends rest) :
    readExponent? rest = some (0, 0) := by
  cases rest with
  | nil => rfl
  | cons c rest =>
    obtain ⟨-, hc⟩ := h c rfl
    have hletter : (c == 'e' || c == 'E') = false := by simp_all
    simp only [readExponent?, hletter, Bool.false_eq_true, if_false]

theorem read?_ofNat {n : Nat} {rest : Text} (h : Ends rest) :
    read? (Text.ofNat n ++ rest) = some ⟨Text.ofNat n, [], 0, (Text.ofNat n).length⟩ := by
  obtain ⟨c, digits, hn, hc⟩ := Text.exists_ofNat_eq_cons n
  have hsign : read? (Text.ofNat n ++ rest) = readAfterSign? 0 (Text.ofNat n ++ rest) := by
    rw [hn, List.cons_append]
    unfold read?
    split
    · next heq =>
      obtain ⟨rfl, -⟩ := List.cons.inj heq
      exact absurd hc (by decide)
    · rfl
  -- A zero in front stands for the whole number.
  have hlead : ¬ ((Text.ofNat n).isEmpty ||
      (Text.ofNat n).head? == some '0' && decide (1 < (Text.ofNat n).length)) = true := by
    intro hlead
    simp only [hn, List.isEmpty_cons, Bool.false_or, Bool.and_eq_true, beq_iff_eq,
      decide_eq_true_eq] at hlead
    have hzero := Text.eq_zero_of_head?_ofNat (n := n) (by rw [hn]; exact hlead.1)
    rw [← hn, hzero] at hlead
    exact absurd hlead.2 (by decide)
  rw [hsign, readAfterSign?]
  simp only [takeWhile_isDigit_append h]
  rw [if_neg hlead, List.drop_left]
  simp [readFraction?_of_ends h, readExponent?_of_ends h]

end Number

/-! ## Strings -/

theorem codeUnit?_of_lt {n : Nat} (hn : n < 32) :
    codeUnit? '0' '0' (Nat.digitChar (n / 16)) (Nat.digitChar (n % 16)) = some n := by
  revert n
  decide

theorem readString?_escaped {c d : Char} (hc : c ≠ 'u') (hd : escaped? c = some d)
    (found : Text) (passed : Nat) (rest : Text) :
    readString? found passed ('\\' :: c :: rest) = readString? (d :: found) (passed + 2) rest := by
  rw [readString?, hd]
  · rfl
  · exact fun _ _ _ _ _ _ _ _ _ h => absurd h hc
  · exact fun _ _ _ _ _ h => absurd h hc

/-- A code unit that is no surrogate is a character of its own, whether another code unit follows
or not. -/
theorem readString?_codeUnit {a b c d : Char} {unit : Nat} (h : codeUnit? a b c d = some unit)
    (hunit : unit < 0xD800) (found : Text) (passed : Nat) (rest : Text) :
    readString? found passed ('\\' :: 'u' :: a :: b :: c :: d :: rest) =
      readString? (Char.ofNat unit :: found) (passed + 6) rest := by
  have hhigh : isHighSurrogate unit = false := by
    simp only [isHighSurrogate, Bool.and_eq_false_iff, decide_eq_false_iff_not]
    omega
  have hlow : isLowSurrogate unit = false := by
    simp only [isLowSurrogate, Bool.and_eq_false_iff, decide_eq_false_iff_not]
    omega
  by_cases hrest : ∃ e f g h rest', rest = '\\' :: 'u' :: e :: f :: g :: h :: rest'
  · obtain ⟨e, f, g, h', rest', rfl⟩ := hrest
    rw [readString?, h]
    simp [hhigh, hlow]
  · rw [readString?, h]
    · simp [hhigh, hlow]
    · exact fun e f g h rest' heq => hrest ⟨e, f, g, h, rest', heq⟩

theorem stringCharacter_cases (c : Char) :
    (∃ d, d ≠ 'u' ∧ escaped? d = some c ∧ stringCharacter c = ['\\', d]) ∨
    (c.toNat < 32 ∧ stringCharacter c =
      ['\\', 'u', '0', '0', Nat.digitChar (c.toNat / 16), Nat.digitChar (c.toNat % 16)]) ∨
    (c ≠ '\x22' ∧ c ≠ '\\' ∧ ¬ c < ' ' ∧ stringCharacter c = [c]) := by
  unfold stringCharacter
  split
  case isTrue hself =>
    obtain rfl | rfl : c = '\x22' ∨ c = '\\' := by simpa using hself
    · exact Or.inl ⟨'\x22', by decide, rfl, rfl⟩
    · exact Or.inl ⟨'\\', by decide, rfl, rfl⟩
  case isFalse hself =>
    have hself : ¬ (c = '\x22' ∨ c = '\\') := by simpa using hself
    split
    · next h => exact Or.inl ⟨'b', by decide, by rw [eq_of_beq h]; rfl, rfl⟩
    split
    · next h => exact Or.inl ⟨'f', by decide, by rw [eq_of_beq h]; rfl, rfl⟩
    split
    · next h => exact Or.inl ⟨'n', by decide, by rw [eq_of_beq h]; rfl, rfl⟩
    split
    · next h => exact Or.inl ⟨'r', by decide, by rw [eq_of_beq h]; rfl, rfl⟩
    split
    · next h => exact Or.inl ⟨'t', by decide, by rw [eq_of_beq h]; rfl, rfl⟩
    split
    · next hcontrol => exact Or.inr (Or.inl ⟨hcontrol, rfl⟩)
    · next hcontrol =>
      exact Or.inr (Or.inr
        ⟨fun h => hself (Or.inl h), fun h => hself (Or.inr h), hcontrol, rfl⟩)

/-- **One character of a string** is read back, however it was written. -/
theorem readString?_stringCharacter (found : Text) (passed : Nat) (c : Char) (rest : Text) :
    readString? found passed (stringCharacter c ++ rest) =
      readString? (c :: found) (passed + (stringCharacter c).length) rest := by
  obtain ⟨d, hd, hescaped, h⟩ | ⟨hc, h⟩ | ⟨hquote, hslash, hc, h⟩ := stringCharacter_cases c
  · rw [h]
    exact readString?_escaped hd hescaped found passed rest
  · rw [h]
    have hread := readString?_codeUnit (codeUnit?_of_lt hc) (by omega) found passed rest
    rwa [Char.ofNat_toNat] at hread
  · rw [h, List.singleton_append, readString?, if_neg (by simp [hc, hslash])]
    · rfl
    · exact hquote
    · exact fun _ _ _ _ _ _ _ _ _ h => absurd h hslash
    · exact fun _ _ _ _ _ h => absurd h hslash
    · exact fun _ _ h => absurd h hslash

theorem readString?_flatMap (found : Text) (passed : Nat) (value rest : Text) :
    readString? found passed (value.flatMap stringCharacter ++ '\x22' :: rest) =
      some (found.reverse ++ value, passed + (value.flatMap stringCharacter).length + 1) := by
  induction value generalizing found passed with
  | nil => simp [readString?]
  | cons c value ih =>
    rw [List.flatMap_cons, List.append_assoc, readString?_stringCharacter, ih]
    simp [Nat.add_assoc]

/-! ## Symbols -/

theorem symbolsFrom?_inside (inside : Nat) (found : List Symbol) (text : Text) :
    symbolsFrom? inside found text = symbolsFrom? 0 found (text.drop inside) := by
  induction text generalizing inside with
  | nil => simp [symbolsFrom?]
  | cons c rest ih =>
    cases inside with
    | zero => rfl
    | succ inside => exact ih inside

/-- **One symbol**: what it was read from is taken off the text. -/
theorem symbolsFrom?_symbol {text rest : Text} {symbol : Symbol} (hne : text ≠ [])
    (hblank : ∀ c ∈ text.head?, isJsonBlank c = false)
    (hsymbol : symbol? (text ++ rest) = some (symbol, text.length)) (found : List Symbol) :
    symbolsFrom? 0 found (text ++ rest) = symbolsFrom? 0 (symbol :: found) rest := by
  cases text with
  | nil => exact absurd rfl hne
  | cons c text =>
    rw [List.cons_append] at hsymbol ⊢
    rw [symbolsFrom?, if_neg (by simp [hblank c rfl]), hsymbol]
    simp only [List.length_cons, Nat.add_sub_cancel]
    rw [symbolsFrom?_inside, List.drop_left]

theorem symbolsFrom?_blanks {blanks : Text} (h : ∀ c ∈ blanks, isJsonBlank c = true)
    (found : List Symbol) (rest : Text) :
    symbolsFrom? 0 found (blanks ++ rest) = symbolsFrom? 0 found rest := by
  induction blanks with
  | nil => rfl
  | cons c blanks ih =>
    rw [List.cons_append, symbolsFrom?, if_pos (h c List.mem_cons_self)]
    exact ih fun d hd => h d (List.mem_cons_of_mem c hd)

theorem symbolsFrom?_stringText (found : List Symbol) (value rest : Text) :
    symbolsFrom? 0 found (stringText value ++ rest) =
      symbolsFrom? 0 (.string value :: found) rest := by
  apply symbolsFrom?_symbol
  · simp [stringText]
  · simp [stringText, isJsonBlank]
  · have hread := readString?_flatMap [] 0 value rest
    simp [stringText, symbol?, hread]

theorem ne_of_isDigit {c d : Char} (hc : c.isDigit = true) (hd : d.isDigit = false) : c ≠ d := by
  rintro rfl
  rw [hc] at hd
  cases hd

theorem isJsonBlank_of_isDigit {c : Char} (hc : c.isDigit = true) : isJsonBlank c = false := by
  simp [isJsonBlank, ne_of_isDigit hc (d := ' ') rfl, ne_of_isDigit hc (d := '\t') rfl,
    ne_of_isDigit hc (d := '\n') rfl, ne_of_isDigit hc (d := '\r') rfl]

theorem symbol?_of_isDigit {c : Char} (hc : c.isDigit = true) (rest : Text) :
    symbol? (c :: rest) = scalar? (c :: rest) := by
  simp only [symbol?]
  split
  case h_8 => rfl
  all_goals exact absurd hc (by decide)

theorem find?_words_of_isDigit {c : Char} (hc : c.isDigit = true) (rest : Text) :
    words.find? (·.1.isPrefixOf (c :: rest)) = none := by
  simp [words, (ne_of_isDigit hc (d := 'n') rfl).symm, (ne_of_isDigit hc (d := 't') rfl).symm,
    (ne_of_isDigit hc (d := 'f') rfl).symm]

theorem symbolsFrom?_ofNat {n : Nat} (hn : n < UInt64.size) {rest : Text} (h : Number.Ends rest)
    (found : List Symbol) :
    symbolsFrom? 0 found (Text.ofNat n ++ rest) =
      symbolsFrom? 0 (.scalar (ofNat n) :: found) rest := by
  obtain ⟨c, digits, hcons, hc⟩ := Text.exists_ofNat_eq_cons n
  have hscalar : symbol? (Text.ofNat n ++ rest) = scalar? (Text.ofNat n ++ rest) := by
    rw [hcons]
    exact symbol?_of_isDigit hc (digits ++ rest)
  have hword : words.find? (·.1.isPrefixOf (Text.ofNat n ++ rest)) = none := by
    rw [hcons]
    exact find?_words_of_isDigit hc (digits ++ rest)
  have hfinite : Number.isFinite ⟨Text.ofNat n, [], 0, (Text.ofNat n).length⟩ = true :=
    Number.isFinite_of_lt rfl rfl rfl hn
  apply symbolsFrom?_symbol
  · exact Nat.toDigits_ne_nil
  · rw [hcons]
    rintro d ⟨⟩
    exact isJsonBlank_of_isDigit hc
  · rw [hscalar, scalar?, hword]
    simp [Number.read?_ofNat h, hfinite, ofNat]

/-! ## Values -/

mutual

/-- The symbols that a value is written with. -/
def symbols : Json → List Symbol
  | null => [.scalar .null]
  | bool value => [.scalar (.bool value)]
  | number digits => [.scalar (.number digits)]
  | string value => [.string value]
  | array items => .leftBracket :: (itemSymbols items ++ [.rightBracket])
  | object fields => .leftBrace :: (fieldSymbols fields ++ [.rightBrace])

def itemSymbols : List Json → List Symbol
  | [] => []
  | [item] => symbols item
  | item :: items => symbols item ++ .comma :: itemSymbols items

def fieldSymbols : List (Text × Json) → List Symbol
  | [] => []
  | [(key, value)] => .string key :: .colon :: symbols value
  | (key, value) :: fields =>
    .string key :: .colon :: (symbols value ++ .comma :: fieldSymbols fields)

end

/-- A value that can be read back at a place where there is room for so many levels of containers:
its numbers are natural numbers of 64 bits. -/
inductive Readable : Nat → Json → Prop
  | null {room : Nat} : Readable room .null
  | bool {room : Nat} (value : Bool) : Readable room (.bool value)
  | ofNat {room n : Nat} (h : n < UInt64.size) : Readable room (ofNat n)
  | string {room : Nat} (value : Text) : Readable room (.string value)
  | array {room : Nat} {items : List Json} (h : ∀ item ∈ items, Readable room item) :
    Readable (room + 1) (.array items)
  | object {room : Nat} {fields : List (Text × Json)}
    (h : ∀ field ∈ fields, Readable room field.2) : Readable (room + 1) (.object fields)

/-! ### Finding the symbols -/

def IsMargin (margin : Text) : Prop :=
  ∀ c ∈ margin, isJsonBlank c = true

theorem IsMargin.deeper {margin : Text} (h : IsMargin margin) : IsMargin ("  " ++ margin) := by
  simpa [IsMargin, isJsonBlank] using h

/-- The value is cut into its symbols, wherever it stands. -/
def Lexes (json : Json) : Prop :=
  ∀ margin, IsMargin margin → ∀ rest, Number.Ends rest → ∀ found,
    symbolsFrom? 0 found (pretty margin json ++ rest) =
      symbolsFrom? 0 (json.symbols.reverse ++ found) rest

theorem Number.ends_cons {c : Char} (hc : c.isDigit = false ∧ c ∉ ['.', 'e', 'E']) (rest : Text) :
    Ends (c :: rest) := by
  rintro d ⟨⟩
  exact hc

theorem symbolsFrom?_line {margin : Text} (h : IsMargin margin) (found : List Symbol)
    (rest : Text) :
    symbolsFrom? 0 found ("\n  " ++ (margin ++ rest)) = symbolsFrom? 0 found rest := by
  rw [← List.append_assoc]
  exact symbolsFrom?_blanks (by simpa [IsMargin, isJsonBlank] using h) found rest

theorem symbolsFrom?_comma (found : List Symbol) (rest : Text) :
    symbolsFrom? 0 found ("," ++ rest) = symbolsFrom? 0 (.comma :: found) rest := rfl

theorem symbolsFrom?_prettyItems {margin : Text} (hmargin : IsMargin margin) {items : List Json}
    (h : ∀ item ∈ items, Lexes item) {rest : Text} (hrest : Number.Ends rest)
    (found : List Symbol) :
    symbolsFrom? 0 found (prettyItems margin items ++ rest) =
      symbolsFrom? 0 ((itemSymbols items).reverse ++ found) rest := by
  induction items generalizing found with
  | nil => rfl
  | cons item items ih =>
    obtain ⟨hitem, hitems⟩ := List.forall_mem_cons.mp h
    cases items with
    | nil =>
      rw [prettyItems, itemSymbols, List.append_assoc, List.append_assoc,
        symbolsFrom?_line hmargin, hitem _ hmargin.deeper _ hrest]
    | cons next items =>
      have hcomma : Number.Ends ("," ++ (prettyItems margin (next :: items) ++ rest)) :=
        Number.ends_cons (by decide) _
      simp only [prettyItems, itemSymbols, List.append_assoc]
      rw [symbolsFrom?_line hmargin, hitem _ hmargin.deeper _ hcomma,
        symbolsFrom?_comma, ih hitems]
      simp

theorem symbolsFrom?_key (found : List Symbol) (key rest : Text) :
    symbolsFrom? 0 found (stringText key ++ (": " ++ rest)) =
      symbolsFrom? 0 (.colon :: .string key :: found) rest := by
  rw [symbolsFrom?_stringText]
  rfl

theorem symbolsFrom?_prettyFields {margin : Text} (hmargin : IsMargin margin)
    {fields : List (Text × Json)} (h : ∀ field ∈ fields, Lexes field.2) {rest : Text}
    (hrest : Number.Ends rest) (found : List Symbol) :
    symbolsFrom? 0 found (prettyFields margin fields ++ rest) =
      symbolsFrom? 0 ((fieldSymbols fields).reverse ++ found) rest := by
  induction fields generalizing found with
  | nil => rfl
  | cons field fields ih =>
    obtain ⟨key, value⟩ := field
    obtain ⟨hvalue, hfields⟩ := List.forall_mem_cons.mp h
    cases fields with
    | nil =>
      rw [prettyFields, fieldSymbols]
      simp only [List.append_assoc]
      rw [symbolsFrom?_line hmargin, symbolsFrom?_key, hvalue _ hmargin.deeper _ hrest]
      simp
    | cons next fields =>
      have hcomma : Number.Ends ("," ++ (prettyFields margin (next :: fields) ++ rest)) :=
        Number.ends_cons (by decide) _
      simp only [prettyFields, fieldSymbols, List.append_assoc]
      rw [symbolsFrom?_line hmargin, symbolsFrom?_key, hvalue _ hmargin.deeper _ hcomma,
        symbolsFrom?_comma, ih hfields]
      simp

theorem symbolsFrom?_lastLine {margin : Text} (h : IsMargin margin) (found : List Symbol)
    (rest : Text) : symbolsFrom? 0 found ("\n" ++ (margin ++ rest)) = symbolsFrom? 0 found rest :=
  symbolsFrom?_blanks h found rest

/-- **The printed text of a value is cut into its symbols.** -/
theorem symbolsFrom?_pretty {room : Nat} {json : Json} (h : Readable room json) : Lexes json := by
  induction h with
  | null => exact fun margin hmargin rest hrest found => rfl
  | bool value =>
    intro margin hmargin rest hrest found
    cases value <;> rfl
  | ofNat hn =>
    intro margin hmargin rest hrest found
    rw [ofNat, pretty, symbols]
    exact symbolsFrom?_ofNat hn hrest found
  | string value =>
    intro margin hmargin rest hrest found
    rw [pretty, symbols]
    exact symbolsFrom?_stringText found value rest
  | @array room items h ih =>
    intro margin hmargin rest hrest found
    cases items with
    | nil => rfl
    | cons item items =>
      have hopen : ∀ found tail, symbolsFrom? 0 found ("[" ++ tail) =
          symbolsFrom? 0 (.leftBracket :: found) tail := fun found tail => rfl
      have hclose : ∀ found tail, symbolsFrom? 0 found ("]" ++ tail) =
          symbolsFrom? 0 (.rightBracket :: found) tail := fun found tail => rfl
      have hline : Number.Ends ("\n" ++ (margin ++ ("]" ++ rest))) :=
        Number.ends_cons (by decide) _
      rw [pretty, symbols]
      simp only [List.append_assoc]
      rw [hopen, symbolsFrom?_prettyItems hmargin ih hline, symbolsFrom?_lastLine hmargin, hclose]
      simp
  | @object room fields h ih =>
    intro margin hmargin rest hrest found
    cases fields with
    | nil => rfl
    | cons field fields =>
      have hopen : ∀ found tail, symbolsFrom? 0 found ("\x7b" ++ tail) =
          symbolsFrom? 0 (.leftBrace :: found) tail := fun found tail => rfl
      have hclose : ∀ found tail, symbolsFrom? 0 found ("\x7d" ++ tail) =
          symbolsFrom? 0 (.rightBrace :: found) tail := fun found tail => rfl
      have hline : Number.Ends ("\n" ++ (margin ++ ("\x7d" ++ rest))) :=
        Number.ends_cons (by decide) _
      rw [pretty, symbols]
      simp only [List.append_assoc]
      rw [hopen, symbolsFrom?_prettyFields hmargin ih hline, symbolsFrom?_lastLine hmargin, hclose]
      simp

/-! ### Building the value -/

/-- The machine builds the value on top of any stack with so much room. -/
def Builds (room : Nat) (json : Json) : Prop :=
  ∀ stack : List Frame, stack.length + room ≤ maximalDepth →
    json.symbols.foldlM Reader.feed (.value stack) = some (.after stack json)

theorem exists_itemSymbols_eq_cons (item : Json) (items : List Json) :
    ∃ symbol rest, itemSymbols (item :: items) = symbol :: rest ∧ symbol ≠ .rightBracket := by
  have hitem : ∃ symbol rest, item.symbols = symbol :: rest ∧ symbol ≠ .rightBracket := by
    cases item <;> exact ⟨_, _, by rw [symbols], by simp⟩
  obtain ⟨symbol, rest, h, hne⟩ := hitem
  cases items with
  | nil => exact ⟨symbol, rest, h, hne⟩
  | cons next items => exact ⟨symbol, _, by simp only [itemSymbols, h]; rfl, hne⟩

theorem foldlM_feed_firstItem (stack : List Frame) (item : Json) (items : List Json)
    (rest : List Symbol) :
    (itemSymbols (item :: items) ++ rest).foldlM Reader.feed (.firstItem stack) =
      (itemSymbols (item :: items) ++ rest).foldlM Reader.feed (.value (.array [] :: stack)) := by
  obtain ⟨symbol, tail, hsymbols, hsymbol⟩ := exists_itemSymbols_eq_cons item items
  rw [hsymbols, List.cons_append, List.foldlM_cons, List.foldlM_cons]
  cases symbol with
  | rightBracket => exact absurd rfl hsymbol
  | _ => rfl

theorem foldlM_feed_itemSymbols {room : Nat} {stack : List Frame}
    (hstack : stack.length + 1 + room ≤ maximalDepth) {item : Json} {items : List Json}
    (h : ∀ json ∈ item :: items, Builds room json) (found : List Json) :
    (itemSymbols (item :: items) ++ [Symbol.rightBracket]).foldlM Reader.feed
        (.value (.array found :: stack)) =
      some (.after stack (.array (found.reverse ++ item :: items))) := by
  induction items generalizing item found with
  | nil =>
    rw [itemSymbols, List.foldlM_append, h item (by simp) (.array found :: stack) hstack]
    simp [Reader.feed]
  | cons next items ih =>
    obtain ⟨hitem, hitems⟩ := List.forall_mem_cons.mp h
    have hnext := ih hitems (item :: found)
    rw [List.reverse_cons, List.append_assoc] at hnext
    simp only [itemSymbols, List.append_assoc]
    rw [List.foldlM_append, hitem (.array found :: stack) hstack]
    exact hnext

theorem foldlM_feed_firstKey (stack : List Frame) (field : Text × Json)
    (fields : List (Text × Json)) (rest : List Symbol) :
    (fieldSymbols (field :: fields) ++ rest).foldlM Reader.feed (.firstKey stack) =
      (fieldSymbols (field :: fields) ++ rest).foldlM Reader.feed (.key stack []) := by
  cases fields with
  | nil => rfl
  | cons next fields => rfl

theorem foldlM_feed_field {room : Nat} {stack : List Frame}
    (hstack : stack.length + 1 + room ≤ maximalDepth) {field : Text × Json}
    (h : Builds room field.2) (found : List (Text × Json)) (rest : List Symbol) :
    (.string field.1 :: .colon :: (field.2.symbols ++ rest)).foldlM Reader.feed
        (.key stack found) =
      rest.foldlM Reader.feed (.after (.object found field.1 :: stack) field.2) := by
  have hvalue := h (.object found field.1 :: stack) hstack
  show (field.2.symbols ++ rest).foldlM Reader.feed (.value (.object found field.1 :: stack)) = _
  rw [List.foldlM_append, hvalue]
  rfl

theorem foldlM_feed_fieldSymbols {room : Nat} {stack : List Frame}
    (hstack : stack.length + 1 + room ≤ maximalDepth) {field : Text × Json}
    {fields : List (Text × Json)} (h : ∀ entry ∈ field :: fields, Builds room entry.2)
    (found : List (Text × Json)) :
    (fieldSymbols (field :: fields) ++ [Symbol.rightBrace]).foldlM Reader.feed
        (.key stack found) =
      some (.after stack (.object (found.reverse ++ field :: fields))) := by
  induction fields generalizing field found with
  | nil =>
    rw [fieldSymbols, List.cons_append, List.cons_append,
      foldlM_feed_field hstack (h field (by simp))]
    simp [Reader.feed]
  | cons next fields ih =>
    obtain ⟨hfield, hfields⟩ := List.forall_mem_cons.mp h
    have hnext := ih hfields (field :: found)
    rw [List.reverse_cons, List.append_assoc] at hnext
    simp only [fieldSymbols, List.cons_append, List.append_assoc]
    rw [foldlM_feed_field hstack hfield]
    exact hnext

/-- **The machine builds a value from its symbols.** -/
theorem foldlM_feed_symbols {room : Nat} {json : Json} (h : Readable room json) :
    Builds room json := by
  induction h with
  | null => exact fun stack hstack => rfl
  | bool value => exact fun stack hstack => rfl
  | ofNat hn => exact fun stack hstack => rfl
  | string value => exact fun stack hstack => rfl
  | @array room items h ih =>
    intro stack hstack
    have hroom : stack.length < maximalDepth := by omega
    have hopen : Reader.feed (.value stack) .leftBracket = some (.firstItem stack) := if_pos hroom
    rw [symbols, List.foldlM_cons, hopen]
    cases items with
    | nil => rfl
    | cons item items =>
      exact (foldlM_feed_firstItem stack item items _).trans
        (foldlM_feed_itemSymbols (by omega) ih [])
  | @object room fields h ih =>
    intro stack hstack
    have hroom : stack.length < maximalDepth := by omega
    have hopen : Reader.feed (.value stack) .leftBrace = some (.firstKey stack) := if_pos hroom
    rw [symbols, List.foldlM_cons, hopen]
    cases fields with
    | nil => rfl
    | cons field fields =>
      exact (foldlM_feed_firstKey stack field fields _).trans
        (foldlM_feed_fieldSymbols (by omega) ih [])

/-- **Reading undoes printing.** -/
theorem ofText?_pretty {json : Json} (h : Readable maximalDepth json) :
    ofText? (pretty [] json ++ "\n") = some json := by
  have hsymbols := symbolsFrom?_pretty h [] (by simp [IsMargin]) "\n"
    (Number.ends_cons (by decide) _) []
  have hend : ∀ found, symbolsFrom? 0 found "\n" = some found.reverse := fun found => rfl
  rw [ofText?, hsymbols, hend]
  have hbuild := foldlM_feed_symbols h [] (Nat.le_of_eq (Nat.zero_add _))
  simp [hbuild, Reader.result?]

end Json

end Literate
