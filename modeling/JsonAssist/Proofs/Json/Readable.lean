import JsonAssist.Proofs.Json.WrittenValue

namespace JsonAssist

namespace Double

section Shortest

variable {x : Double} {b : Basin} {digits quarters : Nat} {k e : Int} {d : Decimal}

theorem zpow_mul_pow_toNat {base : ℚ} (nonzero : base ≠ 0) (k : Int) :
    base ^ k * base ^ (-k).toNat = base ^ k.toNat := by
  rw [← zpow_natCast, ← zpow_natCast, ← zpow_add₀ nonzero]
  congr 1
  omega

theorem le_of_compareScaled (notGreater : compareScaled digits k quarters e ≠ .gt) :
    (digits * 10 ^ k : ℚ) ≤ quarters * 2 ^ (e - 2) := by
  have cleared : (digits * 10 ^ k.toNat * 2 ^ (-(e - 2)).toNat : ℚ) ≤
      quarters * 2 ^ (e - 2).toNat * 10 ^ (-k).toNat := by exact_mod_cast Nat.compare_ne_gt.mp notGreater
  have scale : (0 : ℚ) < 10 ^ (-k).toNat * 2 ^ (-(e - 2)).toNat := by positivity
  refine le_of_mul_le_mul_right ?_ scale
  calc (digits * 10 ^ k * (10 ^ (-k).toNat * 2 ^ (-(e - 2)).toNat) : ℚ)
      = digits * (10 ^ k * 10 ^ (-k).toNat) * 2 ^ (-(e - 2)).toNat := by ring
    _ = digits * 10 ^ k.toNat * 2 ^ (-(e - 2)).toNat := by rw [zpow_mul_pow_toNat (by norm_num)]
    _ ≤ quarters * 2 ^ (e - 2).toNat * 10 ^ (-k).toNat := cleared
    _ = quarters * (2 ^ (e - 2) * 2 ^ (-(e - 2)).toNat) * 10 ^ (-k).toNat := by
      rw [zpow_mul_pow_toNat (by norm_num) (e - 2)]
    _ = quarters * 2 ^ (e - 2) * (10 ^ (-k).toNat * 2 ^ (-(e - 2)).toNat) := by ring

theorem Basin.le_of_holds (holds : b.holds e digits k) : (digits * 10 ^ k : ℚ) ≤ b.high * 2 ^ (e - 2) := by
  refine le_of_compareScaled fun greater => ?_
  simp [Basin.holds, greater] at holds

/-- Whichever neighbour is taken from the grid lies in the basin. -/
theorem holds_of_onGrid (found : x.onGrid k = some digits) : x.basin.holds x.exponent digits k := by
  rw [onGrid] at found
  obtain ⟨n, m, ratio⟩ : ∃ n m, x.ratio = (n, m) := ⟨_, _, rfl⟩
  simp only [ratio] at found
  split at found
  next under _ =>
    cases found
    exact under
  next _ above =>
    cases found
    exact above
  next under above =>
    cases found
    rw [roundQuotient]
    split
    · exact under
    split
    · exact above
    split
    · exact under
    · exact above
  next => cases found

theorem size_shortestFrom_le (lead : Int) (tries count : Nat) :
    (x.shortestFrom lead tries count).size ≤ x.basin.high * 2 ^ (x.exponent - 2) := by
  induction tries generalizing count with
  | zero =>
    rw [shortestFrom, Decimal.size, Nat.cast_zero, zero_mul]
    positivity
  | succ tries ih =>
    rw [shortestFrom]
    split
    next digits found => exact Basin.le_of_holds (holds_of_onGrid found)
    next => exact ih (count + 1)

@[simp] theorem size_trim (fuel : Nat) (d : Decimal) : (d.trim fuel).size = d.size := by
  induction fuel generalizing d with
  | zero => rfl
  | succ fuel ih =>
    rw [Decimal.trim]
    split
    next ends =>
      obtain ⟨n, tenfold⟩ : 10 ∣ d.digits := Nat.dvd_of_mod_eq_zero (by simp at ends; exact ends.2)
      rw [ih, Decimal.size, Decimal.size, tenfold, Nat.mul_div_cancel_left n (by decide), zpow_add_one₀ (by norm_num)]
      push_cast
      ring
    next => rfl

/-- The shortest decimal is at most half a unit above the number. -/
theorem size_shortest_le (x : Double) : x.shortest.size ≤ (4 * x.significand + 2) * 2 ^ (x.exponent - 2) := by
  have high : (x.basin.high : ℚ) = 4 * x.significand + 2 := by simp [basin]
  rw [shortest]
  split
  · rw [Decimal.size, Nat.cast_zero, zero_mul]
    positivity
  · rw [size_trim, ← high]
    exact size_shortestFrom_le _ _ _

theorem size_shortest_le_of {most : Nat} {unit : ℚ} (few : x.significand ≤ most) (least : 2 ^ (x.exponent - 2) ≤ unit) :
    x.shortest.size ≤ (4 * most + 2) * unit := by
  have few : (x.significand : ℚ) ≤ most := by exact_mod_cast few
  calc x.shortest.size ≤ (4 * x.significand + 2) * 2 ^ (x.exponent - 2) := x.size_shortest_le
    _ ≤ (4 * most + 2) * unit := by gcongr

/-- All but the three largest numbers are written as decimals up to the safe size. -/
theorem size_shortest_le_safe (canonical : x.Canonical) (notLargest : x.exponent < 971 ∨ x.significand + 4 ≤ 2 ^ 53) :
    x.shortest.size ≤ safe := by
  have last := canonical.exponent
  rw [maxExponent] at last
  have unit : (2 : ℚ) ^ 971 = 8 * 2 ^ (968 : Int) := by
    rw [show (971 : Nat) = 3 + 968 from rfl, pow_add]
    norm_num
  have positive : (0 : ℚ) < 2 ^ (968 : Int) := by positivity
  rw [safe, unit]
  rcases notLargest with lower | fewer
  · have least : (2 : ℚ) ^ (x.exponent - 2) ≤ 2 ^ (968 : Int) := zpow_le_zpow_right₀ (by norm_num) (by omega)
    refine (size_shortest_le_of canonical.significand.le least).trans ?_
    generalize (2 : ℚ) ^ (968 : Int) = u at positive ⊢
    norm_num
    linarith
  · have least : (2 : ℚ) ^ (x.exponent - 2) ≤ 2 ^ ((1 : Int) + 968) := zpow_le_zpow_right₀ (by norm_num) (by omega)
    rw [zpow_add₀ two_ne_zero, zpow_one] at least
    refine (size_shortest_le_of (Nat.le_sub_of_add_le fewer) least).trans ?_
    generalize (2 : ℚ) ^ (968 : Int) = u at positive ⊢
    norm_num
    linarith

end Shortest

end Double

namespace Reader

open Grammar

theorem Writes.exists_number {s : List Char} {x : ℚ} (writes : Writes s x) (bound : x ≤ Double.safe) (negative : Bool) :
    ∃ n left, number negative s = .ok (n, left) := by
  cases writes with
  | @mk whole fraction exponent isWhole isFraction isExponent moderate =>
    have counted : power exponent < 2 ^ 31 := by
      by_contra far
      have large := moderate.resolve_left (by omega)
      have least : (10 : ℚ) ^ (309 : Int) ≤ 10 ^ power exponent := zpow_le_zpow_right₀ (by norm_num) (by omega)
      exact absurd ((least.trans large).trans bound) (not_le.mpr (by exact_mod_cast Double.safe_lt_pow))
    have covers : (number negative).Covers False (whole ++ (fraction ++ exponent)) (Stops fraction exponent) :=
      covers_number isWhole isFraction isExponent (.inr ⟨counted, bound⟩)
    obtain ⟨n, read⟩ := covers.resolve_right And.left
    have own := read [] ⟨rfl, nofun, nofun⟩
    rw [List.append_nil] at own
    exact ⟨n, [], own⟩

/-- The three largest numbers are read as one of them. -/
theorem exists_number_largest : ∀ negative ∈ [false, true], ∀ significand ∈ [2 ^ 53 - 3, 2 ^ 53 - 2, 2 ^ 53 - 1],
    (number negative (Double.layout (Double.shortest ⟨negative, significand, 971⟩))).toOption.isSome := by
  decide +kernel

end Reader

/-- The text of every binary64 number is that of a number. -/
theorem Double.Canonical.readable {x : Double} (canonical : x.Canonical) : (Number.real x).Readable := by
  suffices ∃ n left, Reader.number x.negative (layout x.shortest) = .ok (n, left) by
    obtain ⟨n, left, read⟩ := this
    exact Number.readable_of_load (Reader.load_of_number read)
  by_cases largest : x.exponent < 971 ∨ x.significand + 4 ≤ 2 ^ 53
  · exact (Reader.writes_layout x.shortest).exists_number (size_shortest_le_safe canonical largest) x.negative
  · have below := canonical.significand
    have last := canonical.exponent
    rw [maxExponent] at last
    obtain ⟨negative, significand, exponent⟩ := x
    obtain ⟨rfl, one⟩ : exponent = 971 ∧ significand ∈ [2 ^ 53 - 3, 2 ^ 53 - 2, 2 ^ 53 - 1] := by
      simp only [List.mem_cons, List.not_mem_nil, or_false] at *
      omega
    have own := Reader.exists_number_largest negative (by cases negative <;> decide) significand one
    cases outcome : Reader.number negative (layout (shortest ⟨negative, significand, 971⟩)) with
    | error e => simp [outcome, Except.toOption] at own
    | ok done => exact ⟨done.1, done.2, rfl⟩

end JsonAssist
