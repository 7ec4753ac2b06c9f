namespace JsonAssist

/-- A finite binary64 number: `significand * 2 ^ exponent`, below zero when `negative`. The form is
canonical: `significand < 2 ^ 53`, and either `2 ^ 52 ≤ significand` or `exponent = -1074`. -/
structure Double where
  negative : Bool
  significand : Nat
  exponent : Int
  deriving DecidableEq, Repr

namespace Double

/-- The least exponent a binary64 number can have. -/
def minExponent : Int := -1074

/-- The largest exponent a binary64 number can have. -/
def maxExponent : Int := 971

def zero (negative : Bool) : Double := ⟨negative, 0, minExponent⟩

def isZero (x : Double) : Bool := x.significand == 0

/-- Numeric equality: the two zeros are the same number. -/
def same (x y : Double) : Bool :=
  x.significand == y.significand && x.exponent == y.exponent &&
    (x.negative == y.negative || x.isZero)

/-- The quotient nearest to `num / den`; a half goes to the even neighbour. -/
def roundQuotient (num den : Nat) : Nat :=
  let q := num / den
  let r := num % den
  if 2 * r < den then q
  else if den < 2 * r then q + 1
  else if q % 2 == 0 then q else q + 1

/-- Numerator and denominator of `num / den` counted in units of `2 ^ e`. -/
def inUnits (num den : Nat) (e : Int) : Nat × Nat :=
  if 0 ≤ e then (num, den * Nat.pow 2 e.toNat) else (num * Nat.pow 2 (-e).toNat, den)

/-- The exponent at which `num / den` has 53 binary digits before the point, or the least one. -/
def unitExponent (num den : Nat) : Int :=
  let guess : Int := (Nat.log2 num : Int) - Nat.log2 den - 52
  let (n, d) := inUnits num den guess
  max minExponent (if n < d * Nat.pow 2 52 then guess - 1 else guess)

/-- The number of `q` units of `2 ^ e`, where rounding may have left `q` one binary digit too many; none when it would
be infinite. -/
def ofUnits (negative : Bool) (q : Nat) (e : Int) : Option Double :=
  let (q, e) := if q == Nat.pow 2 53 then (Nat.pow 2 52, e + 1) else (q, e)
  if maxExponent < e then none
  else if q == 0 then some (zero negative)
  else some ⟨negative, q, e⟩

/-- The binary64 number nearest to `num / den` (`den > 0`), ties to even; none when that number
would be infinite. -/
def ofRatio (negative : Bool) (num den : Nat) : Option Double :=
  if num == 0 then some (zero negative)
  else
    let e := unitExponent num den
    let units := inUnits num den e
    ofUnits negative (roundQuotient units.1 units.2) e

/-- The size of the number as a ratio of naturals. -/
def ratio (x : Double) : Nat × Nat :=
  if 0 ≤ x.exponent then (x.significand * Nat.pow 2 x.exponent.toNat, 1)
  else (x.significand, Nat.pow 2 (-x.exponent).toNat)

/-- Rounded product of `x` and the binary64 number nearest to `10 ^ k`. -/
def timesPowerOfTen (x : Double) (k : Nat) : Option Double := do
  let p ← ofRatio false (Nat.pow 10 k) 1
  let (a, b) := x.ratio
  let (c, d) := p.ratio
  ofRatio x.negative (a * c) (b * d)

/-- Rounded quotient of `x` by the binary64 number nearest to `10 ^ k`. -/
def overPowerOfTen (x : Double) (k : Nat) : Option Double := do
  let p ← ofRatio false (Nat.pow 10 k) 1
  let (a, b) := x.ratio
  let (c, d) := p.ratio
  ofRatio x.negative (a * d) (b * c)

/-- Divides by `10 ^ 308` while the exponent is below `-308`, then scales by what remains. Each
division brings a nonzero number closer to zero, which two of them always reach from an integer
below `2 ^ 64`, so `steps` bounds the divisions. -/
def scaleByTen (x : Double) (exponent : Int) : (steps : Nat) → Option Double
  | 0 => some (zero x.negative)
  | steps + 1 =>
    if exponent.natAbs ≤ 308 then
      if 0 ≤ exponent then x.timesPowerOfTen exponent.natAbs
      else x.overPowerOfTen exponent.natAbs
    else if x.isZero then some x
    else if 0 ≤ exponent then none
    else do
      let y ← x.overPowerOfTen 308
      y.scaleByTen (exponent + 308) steps

/-- The number read for `significand * 10 ^ exponent`: the significand is rounded first and then
scaled by rounded powers of ten, so the last binary digit may differ from the nearest number's.
None when the result is too large. -/
def ofDecimal (negative : Bool) (significand : Nat) (exponent : Int) : Option Double := do
  let x ← ofRatio negative significand 1
  x.scaleByTen exponent 4

end Double

end JsonAssist
