import JsonAssist.Json.Double

namespace JsonAssist

namespace Double

/-- The decimals that round to the number: those between `low` and `high`, counted in quarters of
the last binary digit, the ends included when the significand is even. -/
structure Basin where
  low : Nat
  centre : Nat
  high : Nat
  closed : Bool

/-- The gap below a power of two is half the gap above it. -/
def basin (x : Double) : Basin :=
  let centre := 4 * x.significand
  let below := if x.significand == Nat.pow 2 52 && x.exponent != minExponent then 1 else 2
  ⟨centre - below, centre, centre + 2, x.significand % 2 == 0⟩

/-- The decimal `digits * 10 ^ exponent`. -/
structure Decimal where
  digits : Nat
  exponent : Int
  deriving DecidableEq, Repr

/-- Compares `digits * 10 ^ k` with `quarters * 2 ^ (e - 2)` after clearing both denominators. -/
def compareScaled (digits : Nat) (k : Int) (quarters : Nat) (e : Int) : Ordering :=
  let e := e - 2
  let left := digits * Nat.pow 10 k.toNat * Nat.pow 2 (-e).toNat
  let right := quarters * Nat.pow 2 e.toNat * Nat.pow 10 (-k).toNat
  compare left right

def Basin.holds (b : Basin) (e : Int) (digits : Nat) (k : Int) : Bool :=
  let afterLow := compareScaled digits k b.low e
  let beforeHigh := compareScaled digits k b.high e
  (afterLow == .gt || b.closed && afterLow == .eq) &&
    (beforeHigh == .lt || b.closed && beforeHigh == .eq)

/-- The power of ten of the number's first decimal digit. -/
def leadingPower (x : Double) : Int :=
  let (num, den) := x.ratio
  let guess : Int := ((Nat.toDigits 10 num).length : Int) - (Nat.toDigits 10 den).length
  if den * Nat.pow 10 guess.toNat ≤ num * Nat.pow 10 (-guess).toNat then guess else guess - 1

/-- The nearest decimal in the basin on the grid of multiples of `10 ^ k`, if there is one; of two
equally near the even one. -/
def onGrid (x : Double) (k : Int) : Option Nat :=
  let b := x.basin
  let (num, den) := x.ratio
  let n := num * Nat.pow 10 (-k).toNat
  let d := den * Nat.pow 10 k.toNat
  let under := n / d
  let above := under + 1
  match b.holds x.exponent under k, b.holds x.exponent above k with
  | true, false => some under
  | false, true => some above
  | true, true => some (roundQuotient n d)
  | false, false => none

/-- Tries grids of `count` digits, then finer ones; seventeen digits always suffice. -/
def shortestFrom (x : Double) (lead : Int) : (tries : Nat) → (count : Nat) → Decimal
  | 0, _ => ⟨0, 0⟩
  | tries + 1, count =>
    let k := lead - count + 1
    match x.onGrid k with
    | some digits => ⟨digits, k⟩
    | none => x.shortestFrom lead tries (count + 1)

/-- Moves trailing zeros of the digits into the exponent. -/
def Decimal.trim : (fuel : Nat) → Decimal → Decimal
  | 0, d => d
  | fuel + 1, d =>
    if d.digits != 0 && d.digits % 10 == 0 then Decimal.trim fuel ⟨d.digits / 10, d.exponent + 1⟩
    else d

/-- The decimal with the fewest digits that rounds to the size of `x`. -/
def shortest (x : Double) : Decimal :=
  if x.isZero then ⟨0, 0⟩ else Decimal.trim 20 (x.shortestFrom x.leadingPower 17 1)

/-- Positional from `10 ^ -5` up to `10 ^ 16`, always with a point; otherwise one digit before the
point and a signed exponent. -/
def layout (d : Decimal) : List Char :=
  let digits := Nat.toDigits 10 d.digits
  let count : Int := digits.length
  let pointAt := count + d.exponent
  if d.digits == 0 then "0.0".toList
  else if 0 ≤ d.exponent && pointAt ≤ 16 then
    digits ++ List.replicate d.exponent.toNat '0' ++ ".0".toList
  else if 0 < pointAt && pointAt ≤ 16 then
    digits.take pointAt.toNat ++ '.' :: digits.drop pointAt.toNat
  else if -5 < pointAt && pointAt ≤ 0 then
    "0.".toList ++ List.replicate (-pointAt).toNat '0' ++ digits
  else
    let power := pointAt - 1
    let mantissa := match digits with
      | first :: second :: rest => first :: '.' :: second :: rest
      | single => single
    mantissa ++ 'e' :: (if power < 0 then '-' else '+') :: Nat.toDigits 10 power.natAbs

/-- The text of the number. -/
def text (x : Double) : List Char :=
  if x.negative then '-' :: layout x.shortest else layout x.shortest

end Double

end JsonAssist
