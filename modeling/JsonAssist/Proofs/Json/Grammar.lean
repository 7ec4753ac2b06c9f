import JsonAssist.Proofs.Json.Steps

namespace JsonAssist.Grammar

open Reader (AllBlank AllDigits hexValue)

/-- The digits of a whole number, which begin with a zero only if there is no other one. -/
inductive IsWhole : List Char → Prop
  | zero : IsWhole ['0']
  | digits {d : Char} {ds : List Char} (first : d.isDigit) (notZero : d ≠ '0') (others : AllDigits ds) :
      IsWhole (d :: ds)

/-- A point and digits, or nothing. -/
inductive IsFraction : List Char → Prop
  | none : IsFraction []
  | digits {d : Char} {ds : List Char} (first : d.isDigit) (others : AllDigits ds) : IsFraction ('.' :: d :: ds)

def IsMark (c : Char) : Prop := c = 'e' ∨ c = 'E'

def IsSign (s : List Char) : Prop := s = [] ∨ s = ['+'] ∨ s = ['-']

/-- A mark, a sign or none, and digits, or nothing at all. -/
inductive IsExponent : List Char → Prop
  | none : IsExponent []
  | digits {mark d : Char} {sign ds : List Char} (isMark : IsMark mark) (isSign : IsSign sign) (first : d.isDigit)
      (others : AllDigits ds) : IsExponent (mark :: (sign ++ d :: ds))

/-- A number without its sign. -/
inductive IsNumeral : List Char → Prop
  | mk {whole fraction exponent : List Char} (isWhole : IsWhole whole) (isFraction : IsFraction fraction)
      (isExponent : IsExponent exponent) : IsNumeral (whole ++ (fraction ++ exponent))

theorem IsNumeral.exists_digit {s : List Char} (numeral : IsNumeral s) : ∃ d t, s = d :: t ∧ d.isDigit := by
  cases numeral with
  | mk isWhole =>
    cases isWhole with
    | zero => exact ⟨_, _, rfl, rfl⟩
    | digits first => exact ⟨_, _, rfl, first⟩

inductive IsNumber : List Char → Prop
  | positive {s : List Char} (numeral : IsNumeral s) : IsNumber s
  | negative {s : List Char} (numeral : IsNumeral s) : IsNumber ('-' :: s)

/-- Whether a character behind a number would be taken for a part of it: a digit, the first point in front of an
exponent, or the mark of the first exponent. -/
def Continues (number : List Char) (c : Char) : Prop :=
  c.isDigit ∨ c = '.' ∧ (∀ d ∈ number, d ≠ '.' ∧ ¬IsMark d) ∨ IsMark c ∧ ∀ d ∈ number, ¬IsMark d

/-- What follows a value does not belong to it. Only of a number could it be told otherwise: all other values end in
a mark of their own. -/
def Apart (body rest : List Char) : Prop := IsNumber body → ∀ c ∈ rest.head?, ¬Continues body c

/-- The number that four hexadecimal digits write. -/
inductive IsHex : List Char → Nat → Prop
  | mk {a b c d : Char} {p q r t : Nat} (first : hexValue a = some p) (second : hexValue b = some q)
      (third : hexValue c = some r) (fourth : hexValue d = some t) :
      IsHex [a, b, c, d] (((p * 16 + q) * 16 + r) * 16 + t)

theorem IsHex.length_eq {hex : List Char} {n : Nat} (isHex : IsHex hex n) : hex.length = 4 := by
  cases isHex
  rfl

/-- What writes one character inside a string: the character itself, or an escape. A surrogate stands in front of or
behind its counterpart. -/
inductive IsPiece : List Char → Prop
  | plain {c : Char} (notQuote : c ≠ '"') (notBackslash : c ≠ '\\') (printable : 32 ≤ c.toNat) : IsPiece [c]
  | short {c : Char} (known : c ∈ ['"', '\\', '/', 'b', 'f', 'n', 'r', 't']) : IsPiece ['\\', c]
  | code {hex : List Char} {n : Nat} (isHex : IsHex hex n) (whole : n < 0xD800 ∨ 0xDFFF < n) :
      IsPiece ('\\' :: 'u' :: hex)
  | surrogates {high low : List Char} {n m : Nat} (isHigh : IsHex high n) (first : 0xD800 ≤ n ∧ n ≤ 0xDBFF)
      (isLow : IsHex low m) (second : 0xDC00 ≤ m ∧ m ≤ 0xDFFF) :
      IsPiece ('\\' :: 'u' :: (high ++ '\\' :: 'u' :: low))

inductive IsString : List Char → Prop
  | mk {pieces : List (List Char)} (each : ∀ p ∈ pieces, IsPiece p) : IsString ('"' :: (pieces.flatten ++ ['"']))

/-- A value without any other one in it, of which the numbers are as the property says. -/
inductive IsScalar (IsNumeric : List Char → Prop) : List Char → Prop
  | null : IsScalar IsNumeric ['n', 'u', 'l', 'l']
  | true : IsScalar IsNumeric ['t', 'r', 'u', 'e']
  | false : IsScalar IsNumeric ['f', 'a', 'l', 's', 'e']
  | number {s : List Char} (isNumber : IsNumeric s) : IsScalar IsNumeric s
  | string {s : List Char} (isString : IsString s) : IsScalar IsNumeric s

/-- What leads up to an item: blanks, and a comma between them unless the item is the first one. -/
inductive IsLead : (first : Bool) → List Char → Prop
  | first {blanks : List Char} (blank : AllBlank blanks) : IsLead true blanks
  | comma {before blanks : List Char} (blankBefore : AllBlank before) (blank : AllBlank blanks) :
      IsLead false (before ++ ',' :: blanks)

theorem IsLead.append {first : Bool} {lead blanks : List Char} (leads : IsLead first lead) (blank : AllBlank blanks) :
    IsLead first (lead ++ blanks) := by
  cases leads with
  | first own => exact .first (own.append blank)
  | comma before own =>
    rw [List.append_assoc]
    exact .comma before (own.append blank)

/-- Items up to a closer, of which the first one is still to come or not. -/
inductive Items (IsItem : List Char → Prop) (closer : Char) : (first : Bool) → List Char → Prop
  | close {first : Bool} {blanks : List Char} (blank : AllBlank blanks) : Items IsItem closer first (blanks ++ [closer])
  | item {first : Bool} {lead item rest : List Char} (leads : IsLead first lead) (own : IsItem item)
      (others : Items IsItem closer false rest) : Items IsItem closer first (lead ++ (item ++ rest))

/-- Items behind an opener. -/
inductive Enclosed (opener closer : Char) (IsItem : List Char → Prop) : List Char → Prop
  | mk {inner : List Char} (items : Items IsItem closer true inner) : Enclosed opener closer IsItem (opener :: inner)

/-- A colon and a value, as they stand behind a name. -/
inductive IsNamed (IsItem : List Char → Prop) : List Char → Prop
  | mk {before blanks item : List Char} (blankBefore : AllBlank before) (blank : AllBlank blanks) (own : IsItem item) :
      IsNamed IsItem (before ++ ':' :: (blanks ++ item))

inductive IsMember (IsItem : List Char → Prop) : List Char → Prop
  | mk {name rest : List Char} (isString : IsString name) (named : IsNamed IsItem rest) : IsMember IsItem (name ++ rest)

/-- A value in which lists and objects nest at most `depth` deep, and the numbers are as the property says. -/
def IsValue (IsNumeric : List Char → Prop) : (depth : Nat) → List Char → Prop
  | 0, s => IsScalar IsNumeric s
  | depth + 1, s =>
    IsScalar IsNumeric s ∨ Enclosed '[' ']' (IsValue IsNumeric depth) s ∨
      Enclosed '\x7b' '\x7d' (IsMember (IsValue IsNumeric depth)) s

/-- A text that begins with the value, blanks in front of it aside, and does not go on with it. -/
inductive BeginsWith (body : List Char) : List Char → Prop
  | mk {front rest : List Char} (blank : AllBlank front) (isValue : IsValue IsNumber Reader.nestingLimit body)
      (apart : Apart body rest) : BeginsWith body (front ++ (body ++ rest))

/-- A text that is a value, with blanks around it. -/
inductive IsDocument : List Char → Prop
  | mk {front body back : List Char} (blankFront : AllBlank front)
      (isValue : IsValue IsNumber Reader.nestingLimit body) (blankBack : AllBlank back) :
      IsDocument (front ++ (body ++ back))

end JsonAssist.Grammar
