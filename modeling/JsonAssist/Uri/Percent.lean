namespace JsonAssist

namespace Percent

def hexDigit (n : Nat) : Char := if n < 10 then Char.ofNat (48 + n) else Char.ofNat (55 + n)

def hexValue? (c : Char) : Option Nat :=
  if c.isDigit then some (c.toNat - 48)
  else if 'a' ≤ c && c ≤ 'f' then some (c.toNat - 87)
  else if 'A' ≤ c && c ≤ 'F' then some (c.toNat - 55)
  else none

def encodeByte (b : UInt8) : List Char :=
  ['%', hexDigit (b.toNat / 16), hexDigit (b.toNat % 16)]

/-- Writes the characters that are reserved as bytes and the others as they are. -/
def encode (reserved : Char → Bool) (s : List Char) : List Char :=
  s.flatMap fun c =>
    if reserved c then (String.singleton c).toUTF8.toList.flatMap encodeByte else [c]

/-- The bytes that a text stands for. A percent sign without two digits behind it is itself. -/
def decode : List Char → List UInt8
  | [] => []
  | '%' :: a :: b :: rest =>
    match hexValue? a, hexValue? b with
    | some x, some y => UInt8.ofNat (16 * x + y) :: decode rest
    | _, _ => 37 :: decode (a :: b :: rest)
  | c :: rest => (String.singleton c).toUTF8.toList ++ decode rest

/-- The character that takes up the first `size` bytes. -/
def charOf? (size : Nat) (bytes : List UInt8) : Option Char :=
  match String.fromUTF8? ⟨(bytes.take size).toArray⟩ with
  | some s => match s.toList with
    | [c] => some c
    | _ => none
  | none => none

/-- The ranges in which the bytes behind the first one of a character lie; none if no character begins with it. -/
def ranges (first : UInt8) : List (UInt8 × UInt8) :=
  let any : UInt8 × UInt8 := (0x80, 0xBF)
  if first < 0xC2 then []
  else if first < 0xE0 then [any]
  else if first = 0xE0 then [(0xA0, 0xBF), any]
  else if first = 0xED then [(0x80, 0x9F), any]
  else if first < 0xF0 then [any, any]
  else if first = 0xF0 then [(0x90, 0xBF), any, any]
  else if first < 0xF4 then [any, any, any]
  else if first = 0xF4 then [(0x80, 0x8F), any, any]
  else []

/-- How many bytes lie in the ranges, up to the first one that does not. -/
def fitting : List (UInt8 × UInt8) → List UInt8 → Nat
  | (low, high) :: ranges, b :: rest => if low ≤ b && b ≤ high then fitting ranges rest + 1 else 0
  | _, _ => 0

/-- The characters of some bytes. Bytes that belong to none become a replacement mark, one for each of them with those
behind it that could have gone on with a character. -/
def chars : List UInt8 → List Char
  | [] => []
  | b :: rest =>
    let more := fitting (ranges b) rest
    (charOf? (more + 1) (b :: rest)).getD '\uFFFD' :: chars (rest.drop more)
termination_by bytes => bytes.length
decreasing_by
  simp only [List.length_cons, List.length_drop]
  omega

example : chars (decode "%E2%82.%ED%A0%C3%A4".toList) = "\uFFFD.\uFFFD\uFFFDä".toList := by decide +kernel

end Percent

end JsonAssist
