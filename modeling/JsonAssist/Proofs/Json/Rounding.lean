import Mathlib.Tactic.FieldSimp
import Mathlib.Tactic.Linarith
import Mathlib.Tactic.NormNum
import Mathlib.Tactic.Positivity
import Mathlib.Tactic.Ring
import Mathlib.Algebra.Order.Field.Rat
import Mathlib.Algebra.Order.Field.Power
import JsonAssist.Json.Double

namespace JsonAssist.Double

/-- The size of a number, whatever its sign. -/
def size (x : Double) : ℚ := x.significand * 2 ^ x.exponent

section Units

variable (num : Nat) {den : Nat}

theorem inUnits_div (den : Nat) (e : Int) :
    ((inUnits num den e).1 : ℚ) / (inUnits num den e).2 = num / den / 2 ^ e := by
  rw [inUnits]
  split
  next up =>
    obtain ⟨k, rfl⟩ := Int.eq_ofNat_of_zero_le up
    simp [div_div]
  next down =>
    obtain ⟨k, same⟩ : ∃ k : Nat, e = -k := ⟨(-e).toNat, by omega⟩
    subst same
    simp [div_mul_eq_mul_div]

theorem inUnits_pos (positive : 0 < den) (e : Int) : 0 < (inUnits num den e).2 := by
  rw [inUnits]
  split
  · exact Nat.mul_pos positive (Nat.pow_pos (by decide))
  · exact positive

theorem ratio_pos (x : Double) : 0 < x.ratio.2 := by
  rw [ratio]
  split
  · exact Nat.one_pos
  · exact Nat.pow_pos (by decide)

theorem ratio_div (x : Double) : (x.ratio.1 : ℚ) / x.ratio.2 = x.size := by
  rw [ratio, size]
  split
  next up =>
    obtain ⟨k, same⟩ := Int.eq_ofNat_of_zero_le up
    simp [same]
  next down =>
    obtain ⟨k, same⟩ : ∃ k : Nat, x.exponent = -k := ⟨(-x.exponent).toNat, by omega⟩
    simp [same, div_eq_mul_inv]

/-- A quotient is rounded by at most a half. -/
theorem abs_roundQuotient_sub_le (positive : 0 < den) : |(roundQuotient num den : ℚ) - num / den| ≤ 1 / 2 := by
  have split : den * (num / den) + num % den = num := Nat.div_add_mod num den
  have less : num % den < den := Nat.mod_lt num positive
  have up : den * (num / den + 1) = den * (num / den) + den := Nat.mul_succ _ _
  obtain ⟨above, below⟩ : 2 * (den * roundQuotient num den) ≤ 2 * num + den ∧
      2 * num ≤ 2 * (den * roundQuotient num den) + den := by
    rw [roundQuotient]
    split
    · omega
    split
    · omega
    split <;> omega
  have wide : (0 : ℚ) < den := by exact_mod_cast positive
  have above' : 2 * (den * roundQuotient num den : ℚ) ≤ 2 * num + den := by exact_mod_cast above
  have below' : (2 * num : ℚ) ≤ 2 * (den * roundQuotient num den) + den := by exact_mod_cast below
  have whole : (num : ℚ) = den * (num / den) := by field_simp
  rw [whole] at above' below'
  rw [abs_le]
  constructor <;> nlinarith

theorem lt_mul_pow_iff (positive : 0 < den) (e : Int) (k : Nat) :
    (inUnits num den e).1 < (inUnits num den e).2 * Nat.pow 2 k ↔ (num / den : ℚ) < 2 ^ (e + k) := by
  have wide : (0 : ℚ) < (inUnits num den e).2 := by exact_mod_cast inUnits_pos num positive e
  have unit : (0 : ℚ) < 2 ^ e := by positivity
  rw [zpow_add₀ two_ne_zero, mul_comm ((2 : ℚ) ^ e), ← div_lt_iff₀ unit, ← inUnits_div, div_lt_iff₀ wide,
    zpow_natCast, mul_comm ((2 : ℚ) ^ k)]
  exact_mod_cast Iff.rfl

/-- A ratio lies between the powers of two that its leading binary digits give. -/
theorem pow_log2_le_div {num : Nat} (some : 0 < num) (positive : 0 < den) :
    (2 : ℚ) ^ ((Nat.log2 num : Int) - Nat.log2 den - 1) ≤ num / den := by
  have wide : (0 : ℚ) < den := by exact_mod_cast positive
  have below : (den : ℚ) ≤ 2 ^ ((Nat.log2 den : Int) + 1) := by exact_mod_cast Nat.lt_log2_self.le
  have above : (2 : ℚ) ^ (Nat.log2 num : Int) ≤ num := by exact_mod_cast Nat.log2_self_le some.ne'
  rw [le_div_iff₀ wide]
  calc (2 : ℚ) ^ ((Nat.log2 num : Int) - Nat.log2 den - 1) * den
      ≤ 2 ^ ((Nat.log2 num : Int) - Nat.log2 den - 1) * 2 ^ ((Nat.log2 den : Int) + 1) := by gcongr
    _ = 2 ^ (Nat.log2 num : Int) := by rw [← zpow_add₀ two_ne_zero]; congr 1; omega
    _ ≤ num := above

theorem div_lt_pow_log2 (positive : 0 < den) :
    (num / den : ℚ) < 2 ^ ((Nat.log2 num : Int) - Nat.log2 den + 1) := by
  have wide : (0 : ℚ) < den := by exact_mod_cast positive
  have below : (2 : ℚ) ^ (Nat.log2 den : Int) ≤ den := by exact_mod_cast Nat.log2_self_le positive.ne'
  have above : (num : ℚ) < 2 ^ ((Nat.log2 num : Int) + 1) := by exact_mod_cast Nat.lt_log2_self
  rw [div_lt_iff₀ wide]
  calc (num : ℚ) < 2 ^ ((Nat.log2 num : Int) + 1) := above
    _ = 2 ^ ((Nat.log2 num : Int) - Nat.log2 den + 1) * 2 ^ (Nat.log2 den : Int) := by
        rw [← zpow_add₀ two_ne_zero]
        congr 1
        omega
    _ ≤ 2 ^ ((Nat.log2 num : Int) - Nat.log2 den + 1) * den := by gcongr

/-- The unit is such that 53 binary digits stand before the point, or fewer if it is the least one. -/
theorem unitExponent_spec {num : Nat} (some : 0 < num) (positive : 0 < den) :
    (unitExponent num den = minExponent ∨ (2 : ℚ) ^ (unitExponent num den + 52) ≤ num / den) ∧
      (num / den : ℚ) < 2 ^ (unitExponent num den + 53) := by
  have two : (1 : ℚ) ≤ 2 := by norm_num
  have low := pow_log2_le_div some positive
  have high := div_lt_pow_log2 num positive
  obtain ⟨guess, isGuess⟩ : ∃ guess : Int, (Nat.log2 num : Int) - Nat.log2 den - 52 = guess := ⟨_, rfl⟩
  -- If the guess was one too high, the next lower exponent is the right one.
  obtain ⟨e, exponent, low', high'⟩ : ∃ e : Int, unitExponent num den = max minExponent e ∧
      (2 : ℚ) ^ (e + 52) ≤ num / den ∧ (num / den : ℚ) < 2 ^ (e + 53) := by
    have less := lt_mul_pow_iff num positive guess 52
    by_cases tooHigh : (inUnits num den guess).1 < (inUnits num den guess).2 * Nat.pow 2 52
    · refine ⟨guess - 1, ?_, ?_, ?_⟩
      · rw [unitExponent, isGuess]
        exact congrArg (max minExponent) (if_pos tooHigh)
      · convert low using 2
        omega
      · convert less.mp tooHigh using 2
        omega
    · refine ⟨guess, ?_, not_lt.mp (mt less.mpr tooHigh), ?_⟩
      · rw [unitExponent, isGuess]
        exact congrArg (max minExponent) (if_neg tooHigh)
      · convert high using 2
        omega
  rw [exponent]
  rcases le_total e minExponent with least | more
  · rw [max_eq_left least]
    exact ⟨.inl rfl, high'.trans_le (zpow_le_zpow_right₀ two (by omega))⟩
  · rw [max_eq_right more]
    exact ⟨.inr low', high'⟩

/-- Counted in units and rounded, a ratio is off by at most half a unit. -/
theorem abs_rounded_sub_le (positive : 0 < den) (e : Int) :
    |(roundQuotient (inUnits num den e).1 (inUnits num den e).2 * 2 ^ e - num / den : ℚ)| ≤ 2 ^ e / 2 := by
  have half := abs_roundQuotient_sub_le (inUnits num den e).1 (inUnits_pos num positive e)
  have unit : (0 : ℚ) < 2 ^ e := by positivity
  rw [inUnits_div] at half
  generalize roundQuotient (inUnits num den e).1 (inUnits num den e).2 = q at half ⊢
  calc |(q * 2 ^ e - num / den : ℚ)| = |(q : ℚ) - num / den / 2 ^ e| * 2 ^ e := by
        rw [← abs_of_pos unit, ← abs_mul, abs_of_pos unit, sub_mul, div_mul_cancel₀ _ unit.ne']
    _ ≤ 1 / 2 * 2 ^ e := by gcongr
    _ = 2 ^ e / 2 := by ring

end Units

/-- From here on the nearest number would be infinite. -/
def tooLarge : ℚ := (2 ^ 54 - 1) * 2 ^ 970

/-- A number up to here is in range, even if it is rounded twice on the way. -/
def safe : ℚ := (2 ^ 53 - 3) * 2 ^ 971

theorem safe_lt_tooLarge : safe * (1 + 1 / 2 ^ 53) * (1 + 1 / 2 ^ 53) < tooLarge := by
  have unit : (0 : ℚ) < 2 ^ 970 := by positivity
  rw [safe, tooLarge, pow_succ _ 970]
  generalize (2 : ℚ) ^ 970 = u at unit ⊢
  norm_num
  linarith

theorem pow_lt_tooLarge : (10 : ℚ) ^ 308 < tooLarge := by
  have cast : ((10 ^ 308 : Nat) : ℚ) < ((2 ^ 54 - 1) * 2 ^ 970 : Nat) := Nat.cast_lt.mpr (by decide +kernel)
  rw [Nat.cast_mul, Nat.cast_pow, Nat.cast_pow, Nat.cast_sub (by norm_num), Nat.cast_pow] at cast
  rw [tooLarge]
  simpa only [Nat.cast_ofNat, Nat.cast_one] using cast

theorem two_pow_lt_tooLarge {k : Nat} (few : k ≤ 308) : (2 : ℚ) ^ k < tooLarge := by
  refine lt_of_le_of_lt ?_ pow_lt_tooLarge
  calc (2 : ℚ) ^ k ≤ 10 ^ k := pow_le_pow_left₀ (by norm_num) (by norm_num) k
    _ ≤ 10 ^ 308 := pow_le_pow_right₀ (by norm_num) few

theorem safe_lt_pow : safe < 10 ^ 309 := by
  have cast : ((2 ^ 53 - 3) * 2 ^ 971 : Nat) < ((10 ^ 309 : Nat) : ℚ) := Nat.cast_lt.mpr (by decide +kernel)
  rw [Nat.cast_mul, Nat.cast_pow, Nat.cast_pow, Nat.cast_sub (by norm_num), Nat.cast_pow] at cast
  rw [safe]
  simpa only [Nat.cast_ofNat] using cast

/-- A decimal of 64 bits that is sure to be in range. -/
structure Small (significand : Nat) (exponent : Int) : Prop where
  fits : significand < 2 ^ 64
  bound : significand * 10 ^ exponent ≤ safe

/-- The significand has at most 53 binary digits, and the exponent is one that a finite number can have. -/
structure Canonical (x : Double) : Prop where
  significand : x.significand < 2 ^ 53
  exponent : x.exponent ≤ maxExponent

theorem canonical_zero (negative : Bool) : (zero negative).Canonical :=
  ⟨Nat.two_pow_pos 53, show minExponent ≤ maxExponent by decide⟩

theorem canonical_ofUnits {negative : Bool} {q : Nat} {e : Int} {y : Double} (small : q ≤ 2 ^ 53)
    (made : ofUnits negative q e = some y) : y.Canonical ∧ y.size = q * 2 ^ e := by
  by_cases full : q = Nat.pow 2 53
  · rw [ofUnits, if_pos (beq_iff_eq.mpr full)] at made
    dsimp only at made
    split at made
    · exact nomatch made
    next finite =>
      rw [if_neg (by simp)] at made
      cases made
      refine ⟨⟨by norm_num, not_lt.mp finite⟩, ?_⟩
      rw [size, full, zpow_add₀ two_ne_zero]
      norm_num
      ring
  · rw [ofUnits, if_neg (mt beq_iff_eq.mp full)] at made
    dsimp only at made
    split at made
    · exact nomatch made
    next finite =>
      split at made
      next vanishes =>
        cases made
        rw [beq_iff_eq.mp vanishes]
        exact ⟨canonical_zero negative, by simp [size, zero]⟩
      next =>
        cases made
        exact ⟨⟨lt_of_le_of_ne small full, not_lt.mp finite⟩, rfl⟩

theorem ofUnits_eq_none {negative : Bool} {q : Nat} {e : Int} (none : ofUnits negative q e = none) :
    q = 2 ^ 53 ∧ maxExponent < e + 1 ∨ maxExponent < e := by
  by_cases full : q = Nat.pow 2 53
  · rw [ofUnits, if_pos (beq_iff_eq.mpr full)] at none
    dsimp only at none
    split at none
    next beyond => exact .inl ⟨full, beyond⟩
    next => split at none <;> exact nomatch none
  · rw [ofUnits, if_neg (mt beq_iff_eq.mp full)] at none
    dsimp only at none
    split at none
    next beyond => exact .inr beyond
    next => split at none <;> exact nomatch none

/-- Units of the right size make a number of that size, or the size is too large. -/
theorem ofUnits_cases (negative : Bool) {q : Nat} {e : Int} {r : ℚ} (near : |q * 2 ^ e - r| ≤ 2 ^ e / 2)
    (digits : e = minExponent ∨ (2 : ℚ) ^ (e + 52) ≤ r) (below : r < 2 ^ (e + 53)) :
    ofUnits negative q e = none ∧ tooLarge ≤ r ∨
      ∃ y, ofUnits negative q e = some y ∧ y.Canonical ∧ y.size = q * 2 ^ e := by
  have unit : (0 : ℚ) < 2 ^ e := by positivity
  have two : (1 : ℚ) ≤ 2 := by norm_num
  have above := (abs_le.mp near).2
  cases made : ofUnits negative q e with
  | some y =>
    have small : (q : ℚ) * 2 ^ e < (2 ^ 53 + 1 : Nat) * 2 ^ e := by
      rw [zpow_add₀ two_ne_zero] at below
      norm_num at below ⊢
      linarith
    have few : q < 2 ^ 53 + 1 := by exact_mod_cast lt_of_mul_lt_mul_right small unit.le
    exact .inr ⟨y, rfl, canonical_ofUnits (Nat.le_of_lt_succ few) made⟩
  | none =>
    refine .inl ⟨rfl, ?_⟩
    rcases ofUnits_eq_none made with ⟨rfl, beyond⟩ | beyond
    · have least : (2 : ℚ) ^ 971 ≤ 2 ^ e := by
        rw [← zpow_natCast]
        exact zpow_le_zpow_right₀ two (by simp only [maxExponent] at beyond; omega)
      rw [pow_succ] at least
      rw [tooLarge]
      generalize (2 : ℚ) ^ 970 = u at least ⊢
      push_cast at above
      linarith
    · have normal := digits.resolve_left fun least => absurd (least ▸ beyond) (by decide)
      have least : (2 : ℚ) ^ (54 + 970) ≤ 2 ^ (e + 52) := by
        rw [← zpow_natCast]
        exact zpow_le_zpow_right₀ two (by simp only [maxExponent] at beyond; omega)
      refine le_trans ?_ (least.trans normal)
      rw [tooLarge, pow_add]
      gcongr
      norm_num

theorem ofRatio_eq {negative : Bool} {num den : Nat} {e : Int} (nonzero : 0 < num) (unit : unitExponent num den = e) :
    ofRatio negative num den = ofUnits negative (roundQuotient (inUnits num den e).1 (inUnits num den e).2) e := by
  have notZero : ¬(num == 0) := by simpa using nonzero.ne'
  subst unit
  unfold ofRatio
  rw [if_neg notZero]

/-- A ratio is rounded by at most half a unit, which is the least one or leaves 53 binary digits; it is not rounded at
all only if it is too large. -/
theorem ofRatio_cases (negative : Bool) (num : Nat) {den : Nat} (positive : 0 < den) :
    ofRatio negative num den = none ∧ tooLarge ≤ num / den ∨
      ∃ y e, ofRatio negative num den = some y ∧ y.Canonical ∧ |y.size - num / den| ≤ 2 ^ e / 2 ∧
        (e = minExponent ∨ (2 : ℚ) ^ (e + 52) ≤ num / den) := by
  rcases Nat.eq_zero_or_pos num with rfl | nonzero
  · refine .inr ⟨zero negative, minExponent, rfl, canonical_zero negative, ?_, .inl rfl⟩
    simp only [zero, size, Nat.cast_zero, zero_mul, zero_div, sub_zero, abs_zero]
    positivity
  obtain ⟨digits, below⟩ := unitExponent_spec nonzero positive
  obtain ⟨e, unit⟩ : ∃ e, unitExponent num den = e := ⟨_, rfl⟩
  have near := abs_rounded_sub_le num positive e
  rw [unit] at digits below
  rw [ofRatio_eq nonzero unit]
  rcases ofUnits_cases negative near digits below with ⟨none, large⟩ | ⟨y, made, canonical, same⟩
  · exact .inl ⟨none, large⟩
  · exact .inr ⟨y, e, made, canonical, same ▸ near, digits⟩

section Rounded

variable {negative : Bool} {num den : Nat} {x y : Double}

theorem canonical_ofRatio (positive : 0 < den) (made : ofRatio negative num den = some y) : y.Canonical := by
  rcases ofRatio_cases negative num positive with ⟨none, _⟩ | ⟨y', _, same, canonical, _⟩
  · exact nomatch made.symm.trans none
  · exact Option.some.inj (same.symm.trans made) ▸ canonical

theorem exists_ofRatio (negative : Bool) (positive : 0 < den) (bound : (num / den : ℚ) < tooLarge) :
    ∃ y, ofRatio negative num den = some y := by
  rcases ofRatio_cases negative num positive with ⟨_, large⟩ | ⟨y, _, made, _⟩
  · exact absurd bound (not_lt.mpr large)
  · exact ⟨y, made⟩

/-- What is rounded grows little, even if it was next to nothing. -/
theorem size_le_of_ofRatio (positive : 0 < den) (made : ofRatio negative num den = some y) :
    y.size ≤ 2 * (num / den) + 1 := by
  rcases ofRatio_cases negative num positive with ⟨none, _⟩ | ⟨y', e, same, _, near, digits⟩
  · exact nomatch made.symm.trans none
  cases Option.some.inj (same.symm.trans made)
  have ratio : (0 : ℚ) ≤ num / den := by positivity
  have unit : (2 : ℚ) ^ e ≤ num / den + 1 := by
    rcases digits with rfl | digits
    · have : (2 : ℚ) ^ minExponent ≤ 2 ^ (0 : Int) := zpow_le_zpow_right₀ (by norm_num) (by decide)
      rw [zpow_zero] at this
      linarith
    · have : (2 : ℚ) ^ e ≤ 2 ^ (e + 52) := zpow_le_zpow_right₀ (by norm_num) (by omega)
      linarith
  have := (abs_le.mp near).2
  linarith

/-- A ratio that is not less than one is rounded by at most half of its last binary digit. -/
theorem abs_size_sub_le_of_ofRatio (positive : 0 < den) (one : (1 : ℚ) ≤ num / den)
    (made : ofRatio negative num den = some y) : |y.size - num / den| ≤ num / den / 2 ^ 53 := by
  rcases ofRatio_cases negative num positive with ⟨none, _⟩ | ⟨y', e, same, _, near, digits⟩
  · exact nomatch made.symm.trans none
  cases Option.some.inj (same.symm.trans made)
  refine near.trans ?_
  rcases digits with rfl | digits
  · have : (2 : ℚ) ^ minExponent ≤ 2 ^ (-52 : Int) := zpow_le_zpow_right₀ (by norm_num) (by decide)
    norm_num at this ⊢
    linarith
  · rw [zpow_add₀ two_ne_zero] at digits
    norm_num at digits ⊢
    linarith

/-- The powers of ten by which numbers are scaled. -/
theorem exists_ofRatio_pow {k : Nat} (few : k ≤ 308) :
    ∃ p, ofRatio false (Nat.pow 10 k) 1 = some p ∧ 1 / 2 ≤ p.size ∧ p.size ≤ 10 ^ k * (1 + 1 / 2 ^ 53) := by
  have cast : ((Nat.pow 10 k : Nat) / (1 : Nat) : ℚ) = 10 ^ k := by simp
  have one : (1 : ℚ) ≤ 10 ^ k := one_le_pow₀ (by norm_num)
  have bound : (10 : ℚ) ^ k < tooLarge := (pow_le_pow_right₀ (by norm_num) few).trans_lt pow_lt_tooLarge
  obtain ⟨p, made⟩ := exists_ofRatio false Nat.one_pos (cast ▸ bound)
  have near := abs_le.mp (abs_size_sub_le_of_ofRatio Nat.one_pos (cast ▸ one) made)
  rw [cast] at near
  refine ⟨p, made, ?_, ?_⟩
  · have := near.1
    norm_num at this ⊢
    linarith
  · have := near.2
    linarith

theorem size_nonneg (x : Double) : 0 ≤ x.size := by
  rw [size]
  positivity

theorem timesPowerOfTen_eq {p : Double} {k : Nat} (made : ofRatio false (Nat.pow 10 k) 1 = some p) :
    x.timesPowerOfTen k = ofRatio x.negative (x.ratio.1 * p.ratio.1) (x.ratio.2 * p.ratio.2) := by
  obtain ⟨a, b, own⟩ : ∃ a b, x.ratio = (a, b) := ⟨_, _, rfl⟩
  obtain ⟨c, d, other⟩ : ∃ c d, p.ratio = (c, d) := ⟨_, _, rfl⟩
  unfold timesPowerOfTen
  rw [made, Option.bind_eq_bind, Option.bind_some, own, other]

theorem overPowerOfTen_eq {p : Double} {k : Nat} (made : ofRatio false (Nat.pow 10 k) 1 = some p) :
    x.overPowerOfTen k = ofRatio x.negative (x.ratio.1 * p.ratio.2) (x.ratio.2 * p.ratio.1) := by
  obtain ⟨a, b, own⟩ : ∃ a b, x.ratio = (a, b) := ⟨_, _, rfl⟩
  obtain ⟨c, d, other⟩ : ∃ c d, p.ratio = (c, d) := ⟨_, _, rfl⟩
  unfold overPowerOfTen
  rw [made, Option.bind_eq_bind, Option.bind_some, own, other]

theorem exists_timesPowerOfTen {k : Nat} (few : k ≤ 308)
    (bound : x.size * (10 ^ k * (1 + 1 / 2 ^ 53)) < tooLarge) : ∃ y, x.timesPowerOfTen k = some y := by
  obtain ⟨p, made, -, above⟩ := exists_ofRatio_pow few
  rw [timesPowerOfTen_eq made]
  refine exists_ofRatio x.negative (Nat.mul_pos x.ratio_pos p.ratio_pos) ?_
  rw [Nat.cast_mul, Nat.cast_mul, ← div_mul_div_comm, ratio_div, ratio_div]
  exact (mul_le_mul_of_nonneg_left above x.size_nonneg).trans_lt bound

/-- A quotient by a power of ten is not much larger than the number itself. -/
theorem overPowerOfTen_cases (x : Double) {k : Nat} (few : k ≤ 308) : ∃ num den : Nat, 0 < den ∧
    x.overPowerOfTen k = ofRatio x.negative num den ∧ (num / den : ℚ) ≤ 2 * x.size := by
  obtain ⟨p, made, below, -⟩ := exists_ofRatio_pow few
  have positive : 0 < p.ratio.1 := by
    have wide : (0 : ℚ) < p.ratio.1 / p.ratio.2 := by
      rw [ratio_div]
      linarith
    by_contra none
    simp [Nat.eq_zero_of_not_pos none] at wide
  refine ⟨_, _, Nat.mul_pos x.ratio_pos positive, overPowerOfTen_eq made, ?_⟩
  rw [Nat.cast_mul, Nat.cast_mul, ← div_mul_div_comm, ratio_div, ← inv_div (p.ratio.1 : ℚ), ratio_div, ← div_eq_mul_inv,
    div_le_iff₀ (by linarith)]
  nlinarith [x.size_nonneg]

theorem exists_overPowerOfTen {k : Nat} (few : k ≤ 308) (bound : 2 * x.size < tooLarge) :
    ∃ y, x.overPowerOfTen k = some y ∧ y.size ≤ 4 * x.size + 1 := by
  obtain ⟨num, den, positive, same, least⟩ := x.overPowerOfTen_cases few
  obtain ⟨y, made⟩ := exists_ofRatio x.negative positive (least.trans_lt bound)
  have := size_le_of_ofRatio positive made
  exact ⟨y, same.trans made, by linarith⟩

theorem exists_scaleByTen_up {exponent : Int} (up : 0 ≤ exponent) (few : exponent ≤ 308)
    (bound : x.size * (10 ^ exponent * (1 + 1 / 2 ^ 53)) < tooLarge) (steps : Nat) :
    ∃ y, x.scaleByTen exponent (steps + 1) = some y := by
  obtain ⟨k, rfl⟩ := Int.eq_ofNat_of_zero_le up
  rw [scaleByTen, if_pos (by omega), if_pos up]
  exact exists_timesPowerOfTen (by omega) (by simpa using bound)

theorem exists_scaleByTen_down {exponent : Int} (down : exponent < 0) {steps : Nat}
    (bound : (x.size + 1) * 8 ^ steps ≤ 2 ^ 100) : ∃ y, x.scaleByTen exponent steps = some y := by
  induction steps generalizing x exponent with
  | zero => exact ⟨_, rfl⟩
  | succ steps ih =>
    rw [pow_succ] at bound
    have least : (1 : ℚ) ≤ 8 ^ steps := one_le_pow₀ (by norm_num)
    have small : 2 * x.size < tooLarge := by
      have := mul_le_mul_of_nonneg_left least (show (0 : ℚ) ≤ x.size + 1 by linarith [x.size_nonneg])
      have : 2 * x.size ≤ 2 ^ 100 := by linarith [x.size_nonneg]
      exact this.trans_lt (two_pow_lt_tooLarge (by norm_num))
    rw [scaleByTen]
    split
    next few =>
      rw [if_neg (by omega)]
      obtain ⟨y, made, -⟩ := exists_overPowerOfTen few small
      exact ⟨y, made⟩
    next far =>
      split
      · exact ⟨x, rfl⟩
      · rw [if_neg (by omega)]
        obtain ⟨y, made, size⟩ := exists_overPowerOfTen (le_refl 308) small
        rw [made, Option.bind_eq_bind, Option.bind_some]
        exact ih (by omega) (by nlinarith [y.size_nonneg])

theorem exists_scaleByTen_of_isZero (vanishes : x.isZero) {exponent : Int} (up : 0 ≤ exponent) (steps : Nat) :
    ∃ y, x.scaleByTen exponent (steps + 1) = some y := by
  by_cases few : exponent ≤ 308
  · refine exists_scaleByTen_up up few ?_ steps
    rw [size, beq_iff_eq.mp vanishes, Nat.cast_zero, zero_mul, zero_mul]
    exact lt_trans (by positivity) pow_lt_tooLarge
  · exact ⟨x, by rw [scaleByTen, if_neg (by omega), if_pos vanishes]⟩

/-- A whole number of 64 bits is rounded to a finite one, and only a zero to a zero. -/
theorem exists_ofRatio_one (negative : Bool) {n : Nat} (fits : n < 2 ^ 64) :
    ∃ x, ofRatio negative n 1 = some x ∧ x.size ≤ n * (1 + 1 / 2 ^ 53) ∧ (n = 0 → x.isZero) := by
  have whole : (n / (1 : Nat) : ℚ) = n := by simp
  have small : (n : ℚ) < 2 ^ 64 := by exact_mod_cast fits
  have finite : (n : ℚ) < tooLarge := small.trans (two_pow_lt_tooLarge (by norm_num))
  obtain ⟨x, made⟩ := exists_ofRatio negative Nat.one_pos (whole.trans_lt finite)
  refine ⟨x, made, ?_⟩
  rcases Nat.eq_zero_or_pos n with rfl | some
  · cases made
    exact ⟨by simp [size, zero], fun _ => rfl⟩
  · have one : (1 : ℚ) ≤ n := by exact_mod_cast some
    have near := (abs_le.mp (abs_size_sub_le_of_ofRatio Nat.one_pos (one.trans_eq whole.symm) made)).2
    rw [whole] at near
    exact ⟨by linarith, fun none => absurd none some.ne'⟩

theorem Small.exponent_le {n : Nat} {exponent : Int} (small : Small n exponent) (some : 0 < n) : exponent ≤ 308 := by
  have one : (1 : ℚ) ≤ n := by exact_mod_cast some
  have power : (10 : ℚ) ^ exponent ≤ safe := le_trans (le_mul_of_one_le_left (by positivity) one) small.bound
  by_contra far
  have least : (10 : ℚ) ^ (309 : Int) ≤ 10 ^ exponent := zpow_le_zpow_right₀ (by norm_num) (by omega)
  exact absurd (least.trans power) (not_le.mpr (by exact_mod_cast safe_lt_pow))

/-- A decimal of 64 bits that is sure to be in range is read, though it is rounded up to three times: the significand,
the power of ten and their product or quotient. -/
theorem exists_ofDecimal (negative : Bool) {significand : Nat} {exponent : Int} (small : Small significand exponent) :
    ∃ x, ofDecimal negative significand exponent = some x := by
  obtain ⟨x, made, size, vanishes⟩ := exists_ofRatio_one negative small.fits
  suffices ∃ y, x.scaleByTen exponent 4 = some y by
    obtain ⟨y, scaled⟩ := this
    refine ⟨y, ?_⟩
    rw [ofDecimal, made, Option.bind_eq_bind, Option.bind_some]
    exact scaled
  rcases lt_or_ge exponent 0 with down | up
  · have fits : (significand : ℚ) < 2 ^ 64 := by exact_mod_cast small.fits
    refine exists_scaleByTen_down down ?_
    norm_num
    linarith
  rcases Nat.eq_zero_or_pos significand with none | some
  · exact exists_scaleByTen_of_isZero (vanishes none) up 3
  refine exists_scaleByTen_up up (small.exponent_le some) (lt_of_le_of_lt ?_ safe_lt_tooLarge) 3
  have bound := small.bound
  calc x.size * (10 ^ exponent * (1 + 1 / 2 ^ 53))
      ≤ (significand : ℚ) * (1 + 1 / 2 ^ 53) * (10 ^ exponent * (1 + 1 / 2 ^ 53)) := by gcongr
    _ = (significand : ℚ) * 10 ^ exponent * (1 + 1 / 2 ^ 53) * (1 + 1 / 2 ^ 53) := by ring
    _ ≤ safe * (1 + 1 / 2 ^ 53) * (1 + 1 / 2 ^ 53) := by gcongr

theorem canonical_timesPowerOfTen {k : Nat} (few : k ≤ 308) (made : x.timesPowerOfTen k = some y) : y.Canonical := by
  obtain ⟨p, power, -⟩ := exists_ofRatio_pow few
  rw [timesPowerOfTen_eq power] at made
  exact canonical_ofRatio (Nat.mul_pos x.ratio_pos p.ratio_pos) made

theorem canonical_overPowerOfTen {k : Nat} (few : k ≤ 308) (made : x.overPowerOfTen k = some y) : y.Canonical := by
  obtain ⟨num, den, positive, same, -⟩ := x.overPowerOfTen_cases few
  exact canonical_ofRatio positive (same.symm.trans made)

theorem canonical_scaleByTen {exponent : Int} {steps : Nat} (canonical : x.Canonical)
    (made : x.scaleByTen exponent steps = some y) : y.Canonical := by
  induction steps generalizing x exponent with
  | zero =>
    cases made
    exact canonical_zero x.negative
  | succ steps ih =>
    rw [scaleByTen] at made
    split at made
    next few =>
      split at made
      · exact canonical_timesPowerOfTen few made
      · exact canonical_overPowerOfTen few made
    split at made
    · cases made
      exact canonical
    split at made
    · exact nomatch made
    obtain ⟨z, down, further⟩ := Option.bind_eq_some_iff.mp made
    exact ih (canonical_overPowerOfTen (le_refl 308) down) further

/-- What is read is a number in its canonical form. -/
theorem canonical_ofDecimal {significand : Nat} {exponent : Int}
    (made : ofDecimal negative significand exponent = some y) : y.Canonical := by
  obtain ⟨x, whole, scaled⟩ := Option.bind_eq_some_iff.mp made
  exact canonical_scaleByTen (canonical_ofRatio Nat.one_pos whole) scaled

end Rounded

end JsonAssist.Double
