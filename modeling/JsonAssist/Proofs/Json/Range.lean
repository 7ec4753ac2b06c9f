import JsonAssist.Proofs.Json.Digits
import JsonAssist.Proofs.Json.Grammar
import JsonAssist.Proofs.Json.Rounding

namespace JsonAssist

namespace Grammar

/-- The power of ten that an exponent writes. -/
def power : List Char → Int
  | _ :: '-' :: digits => -(Nat.ofDigitChars 10 digits 0 : Int)
  | _ :: '+' :: digits => (Nat.ofDigitChars 10 digits 0 : Int)
  | _ :: digits => (Nat.ofDigitChars 10 digits 0 : Int)
  | [] => 0

/-- The size of the number that the three parts of a numeral write. -/
def size (whole fraction exponent : List Char) : ℚ :=
  Nat.ofDigitChars 10 (whole ++ fraction.tail) 0 * 10 ^ (power exponent - fraction.tail.length)

/-- A number that is in range however it is rounded on the way, with an exponent that can be counted. -/
inductive InRange : List Char → Prop
  | mk {sign whole fraction exponent : List Char} (isSign : sign = [] ∨ sign = ['-']) (isWhole : IsWhole whole)
      (isFraction : IsFraction fraction) (isExponent : IsExponent exponent) (counted : power exponent < 2 ^ 31)
      (bound : size whole fraction exponent ≤ Double.safe) : InRange (sign ++ whole ++ (fraction ++ exponent))

theorem InRange.isNumber {s : List Char} (inRange : InRange s) : IsNumber s := by
  obtain ⟨rfl | rfl, isWhole, isFraction, isExponent, _, _⟩ := inRange
  · exact .positive (.mk isWhole isFraction isExponent)
  · exact .negative (.mk isWhole isFraction isExponent)

theorem power_digits {mark d : Char} {sign : List Char} (isSign : IsSign sign) (first : d.isDigit) (ds : List Char) :
    power (mark :: (sign ++ d :: ds)) =
      if sign == ['-'] then -(Nat.ofDigitChars 10 (d :: ds) 0 : Int) else (Nat.ofDigitChars 10 (d :: ds) 0 : Int) := by
  rcases isSign with rfl | rfl | rfl
  · have plus : d ≠ '+' := fun same => by simp [same] at first
    have minus : d ≠ '-' := fun same => by simp [same] at first
    rw [List.nil_append, power.eq_def]
    split
    next same => exact absurd (List.cons.inj (List.cons.inj same).2).1 minus
    next same => exact absurd (List.cons.inj (List.cons.inj same).2).1 plus
    next same => rw [← (List.cons.inj same).2]; rfl
    next same => exact nomatch same
  · rfl
  · rfl

end Grammar

namespace Reader

open Grammar

variable {whole digits more left : List Char} {value count significand taken : Nat}

theorem kept_lt (took : takeDigits (Nat.pow 2 64) 0 0 whole = (value, count, more))
    (tookMore : takeDigits (Nat.pow 2 64) value 0 digits = (significand, taken, left)) :
    significand < Nat.pow 2 64 := by
  have small := takeDigits_lt (Nat.two_pow_pos 64) 0 whole
  rw [took] at small
  have := takeDigits_lt small 0 digits
  rwa [tookMore] at this

/-- What is kept of a number is not above it. Once a digit in front of the point did not fit 64 bits, those behind the
point may fit again, but all of them together are less than that one. -/
theorem kept_le (isDigits : AllDigits whole) (took : takeDigits (Nat.pow 2 64) 0 0 whole = (value, count, more))
    (tookMore : takeDigits (Nat.pow 2 64) value 0 digits = (significand, taken, left)) :
    significand * 10 ^ more.length * 10 ^ left.length ≤ Nat.ofDigitChars 10 (whole ++ digits) 0 := by
  obtain ⟨same, -⟩ := ofDigitChars_takeDigits took
  obtain ⟨sameMore, split⟩ := ofDigitChars_takeDigits tookMore
  rw [Nat.ofDigitChars_append]
  cases more with
  | nil =>
    rw [Nat.ofDigitChars_nil] at same
    rw [← same, ← sameMore, List.length_nil, Nat.pow_zero, Nat.mul_one, Nat.mul_comm]
    exact pow_mul_le_ofDigitChars left significand
  | cons d more =>
    refine Nat.le_trans ?_ (pow_mul_le_ofDigitChars digits _)
    rw [Nat.mul_comm (10 ^ digits.length)]
    -- Either no digit behind the point fits, or fewer than all of them are left.
    obtain ⟨rfl, rfl⟩ | fewer : significand = value ∧ left = digits ∨ left.length < digits.length := by
      cases digits with
      | nil =>
        cases tookMore
        exact .inl ⟨rfl, rfl⟩
      | cons c s =>
        obtain ⟨front, -, all, -⟩ := exists_takeDigits (Nat.pow 2 64) (value * 10 + digitValue c) 1 s
        rw [takeDigits] at tookMore
        split at tookMore
        · have length := congrArg List.length all
          simp only [tookMore, List.length_append] at length
          exact .inr (by rw [List.length_cons]; omega)
        · cases tookMore
          exact .inl ⟨rfl, rfl⟩
    · refine Nat.mul_le_mul_right _ ?_
      rw [← same, Nat.mul_comm]
      exact pow_mul_le_ofDigitChars (d :: more) significand
    · calc significand * 10 ^ (more.length + 1) * 10 ^ left.length
          = significand * 10 ^ more.length * 10 ^ (left.length + 1) := by ring
        _ ≤ Nat.pow 2 64 * 10 ^ more.length * 10 ^ digits.length :=
          Nat.mul_le_mul (Nat.mul_le_mul_right _ (kept_lt took tookMore).le) (Nat.pow_le_pow_right (by decide) fewer)
        _ ≤ Nat.ofDigitChars 10 whole 0 * 10 ^ digits.length :=
          Nat.mul_le_mul_right _ (bound_mul_pow_le isDigits took)

/-- What is kept of a number that is sure to be in range can be read. -/
theorem small_of_size {fraction exponent : List Char} (isDigits : AllDigits whole)
    (bound : size whole fraction exponent ≤ Double.safe)
    (took : takeDigits (Nat.pow 2 64) 0 0 whole = (value, count, more))
    (tookMore : takeDigits (Nat.pow 2 64) value 0 fraction.tail = (significand, taken, left)) :
    Double.Small significand (more.length - taken + power exponent) := by
  obtain ⟨-, split⟩ := ofDigitChars_takeDigits tookMore
  refine ⟨kept_lt took tookMore, le_trans ?_ bound⟩
  have least : (significand * 10 ^ more.length * 10 ^ left.length : ℚ) ≤
      Nat.ofDigitChars 10 (whole ++ fraction.tail) 0 := by exact_mod_cast kept_le isDigits took tookMore
  have place : (more.length - taken + power exponent : Int) =
      more.length + (left.length + (power exponent - fraction.tail.length)) := by omega
  rw [size, place, zpow_add₀ (by norm_num), zpow_add₀ (by norm_num), zpow_natCast, zpow_natCast, ← mul_assoc,
    ← mul_assoc]
  exact mul_le_mul_of_nonneg_right least (by positivity)

end Reader

end JsonAssist
