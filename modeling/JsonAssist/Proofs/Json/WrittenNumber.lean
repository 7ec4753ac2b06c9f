import JsonAssist.Json.Printer
import JsonAssist.Proofs.Json.Number

namespace JsonAssist

/-- The number that a decimal writes. -/
def Double.Decimal.size (d : Decimal) : ℚ := d.digits * 10 ^ d.exponent

namespace Reader

open Grammar

/-- The text goes on with nothing that could belong to a number. -/
def Ends : List Char → Prop
  | [] => True
  | c :: _ => c.isDigit = false ∧ c ≠ '.' ∧ c ≠ 'e' ∧ c ≠ 'E'

section Integers

variable {rest : List Char}

theorem Ends.not_startsWithDigit (ends : Ends rest) : startsWithDigit rest = false := by
  cases rest with
  | nil => rfl
  | cons c rest => exact ends.1

theorem allDigits_toDigits (n : Nat) : AllDigits (Nat.toDigits 10 n) := fun _ member =>
  Nat.isDigit_of_mem_toDigits (by decide) (by decide) member

/-- A positive number is written without a zero in front. -/
theorem head_toDigits {n : Nat} (positive : 0 < n) : ∃ c ds, Nat.toDigits 10 n = c :: ds ∧ c ≠ '0' := by
  induction n using Nat.strongRecOn with
  | ind n ih =>
    by_cases small : n < 10
    · refine ⟨n.digitChar, [], Nat.toDigits_of_lt_base small, fun zero => ?_⟩
      exact absurd (Nat.digitChar_eq_zero.mp zero) (Nat.ne_of_gt positive)
    · obtain ⟨c, ds, digits, notZero⟩ := ih (n / 10) (by omega) (by omega)
      refine ⟨c, ds ++ [(n % 10).digitChar], ?_, notZero⟩
      rw [Nat.toDigits_of_base_le (by decide) (by omega), digits]
      rfl

theorem Ends.not_point (ends : Ends rest) (fraction : List Char) : rest ≠ '.' :: fraction := fun same => by
  rw [same] at ends
  exact ends.2.1 rfl

theorem Ends.not_exponent (ends : Ends rest) : rest.head? ≠ some 'e' ∧ rest.head? ≠ some 'E' := by
  cases rest with
  | nil => simp
  | cons c rest => simpa using ends.2.2

/-- Where no digit, point or exponent follows, the number is an integer if that fits 64 bits. -/
theorem numberTail_of_ends (ends : Ends rest) (negative : Bool) (significand : Nat) :
    numberTail negative significand rest =
      (if ¬negative then pure (.integer significand)
      else if significand = 0 ∨ Nat.pow 2 63 < significand then real true significand 0
      else pure (.integer (-significand)) : Reader Number) rest := by
  have none : skipDigits rest = rest := skipDigits_append allDigits_nil ends.not_startsWithDigit
  rw [numberTail, look_bind, none, moveTo_bind, Nat.sub_self]
  split
  next same => exact absurd rfl (ends.not_point _)
  next => rw [if_neg (by simp [ends.not_exponent])]

theorem number_toDigits (ends : Ends rest) (negative : Bool) {n : Nat} (fits : n < Nat.pow 2 64) :
    number negative (Nat.toDigits 10 n ++ rest) = numberTail negative n rest := by
  have stops := ends.not_startsWithDigit
  rw [number, look_bind]
  cases n with
  | zero =>
    rw [Nat.toDigits_zero, List.singleton_append]
    simp [stops]
  | succ n =>
    obtain ⟨c, ds, digits, notZero⟩ := head_toDigits (Nat.succ_pos n)
    have isDigit : c.isDigit := allDigits_toDigits (n + 1) c (digits ▸ List.mem_cons_self)
    have taken : takeDigits (Nat.pow 2 64) 0 0 (Nat.toDigits 10 (n + 1) ++ rest) = _ :=
      takeDigits_below (allDigits_toDigits (n + 1)) stops (by rwa [Nat.ofDigitChars_ten_toDigits])
    rw [Nat.ofDigitChars_ten_toDigits, digits, List.cons_append] at taken
    simp only [digits, List.cons_append, if_neg notZero, if_pos isDigit, taken, moveTo_bind]

end Integers

section Layout

open Double

theorem Ends.stops {fraction exponent rest : List Char} (ends : Ends rest) : Stops fraction exponent rest where
  digit := ends.not_startsWithDigit
  mark _ c head mark := by
    rcases mark with rfl | rfl
    · exact ends.not_exponent.1 head
    · exact ends.not_exponent.2 head
  point _ _ head := by
    obtain ⟨more, same⟩ := List.head?_eq_some_iff.mp head
    exact ends.not_point more same

theorem isWhole_toDigits (n : Nat) : IsWhole (Nat.toDigits 10 n) := by
  cases n with
  | zero => exact .zero
  | succ n =>
    obtain ⟨c, ds, written, notZero⟩ := head_toDigits (Nat.succ_pos n)
    have digits := allDigits_cons.mp (written ▸ allDigits_toDigits (n + 1))
    exact written ▸ .digits digits.1 notZero digits.2

theorem numeral_toDigits (n : Nat) : IsNumeral (Nat.toDigits 10 n) := by
  simpa using IsNumeral.mk (isWhole_toDigits n) .none .none

theorem isFraction_of_digits {ds : List Char} (digits : AllDigits ds) (any : ds ≠ []) : IsFraction ('.' :: ds) := by
  cases ds with
  | nil => exact absurd rfl any
  | cons d ds => exact .digits (allDigits_cons.mp digits).1 (allDigits_cons.mp digits).2

theorem isExponent_power (n : Int) :
    IsExponent ('e' :: (if n < 0 then '-' else '+') :: Nat.toDigits 10 n.natAbs) := by
  obtain ⟨d, ds, written⟩ := List.exists_cons_of_ne_nil (Nat.toDigits_ne_nil (n := n.natAbs) (b := 10))
  have digits := allDigits_cons.mp (written ▸ allDigits_toDigits n.natAbs)
  have isSign : IsSign [if n < 0 then '-' else '+'] := by split <;> simp [IsSign]
  exact written ▸ .digits (.inl rfl) isSign digits.1 digits.2

theorem power_written (n : Int) : power ('e' :: (if n < 0 then '-' else '+') :: Nat.toDigits 10 n.natAbs) = n := by
  split
  next negative =>
    rw [power, Nat.ofDigitChars_ten_toDigits]
    omega
  next positive =>
    rw [power, Nat.ofDigitChars_ten_toDigits]
    omega

/-- The text is a numeral of the size, and the power of ten in it is no larger than that. -/
inductive Writes : List Char → ℚ → Prop
  | mk {whole fraction exponent : List Char} (isWhole : IsWhole whole) (isFraction : IsFraction fraction)
      (isExponent : IsExponent exponent)
      (moderate : power exponent ≤ 0 ∨ (10 : ℚ) ^ power exponent ≤ size whole fraction exponent) :
      Writes (whole ++ (fraction ++ exponent)) (size whole fraction exponent)

theorem Writes.isNumeral {s : List Char} {x : ℚ} (writes : Writes s x) : IsNumeral s := by
  cases writes with
  | mk isWhole isFraction isExponent => exact .mk isWhole isFraction isExponent

theorem Writes.positional {whole fraction : List Char} {x : ℚ} (isWhole : IsWhole whole) (digits : AllDigits fraction)
    (any : fraction ≠ [])
    (same : (Nat.ofDigitChars 10 (whole ++ fraction) 0 : ℚ) * 10 ^ (-fraction.length : Int) = x) :
    Writes (whole ++ '.' :: fraction) x := by
  have own := Writes.mk isWhole (isFraction_of_digits digits any) .none (.inl (le_refl 0))
  rwa [Grammar.size, power, zero_sub, List.tail_cons, same, List.append_nil] at own

/-- The digits of a positive number. -/
structure DigitsOf (n : Nat) (c : Char) (ds : List Char) : Prop where
  first : c.isDigit
  notZero : c ≠ '0'
  others : AllDigits ds
  value : Nat.ofDigitChars 10 (c :: ds) 0 = n
  least : 10 ^ ds.length ≤ n

theorem exists_digitsOf {n : Nat} (positive : 0 < n) : ∃ c ds, Nat.toDigits 10 n = c :: ds ∧ DigitsOf n c ds := by
  obtain ⟨c, ds, written, notZero⟩ := head_toDigits positive
  obtain ⟨first, others⟩ := allDigits_cons.mp (written ▸ allDigits_toDigits n)
  refine ⟨c, ds, written, first, notZero, others, by rw [← written, Nat.ofDigitChars_ten_toDigits], ?_⟩
  by_contra less
  rcases Nat.eq_zero_or_pos ds.length with none | some
  · rw [none] at less
    omega
  · have short := (Nat.length_toDigits_le_iff (by decide) some).mpr (Nat.lt_of_not_le less)
    rw [written, List.length_cons] at short
    omega

namespace DigitsOf

variable {n : Nat} {c : Char} {ds : List Char}

theorem writes_zeros (own : DigitsOf n c ds) (k : Nat) :
    Writes (c :: ds ++ List.replicate k '0' ++ ['.', '0']) (n * 10 ^ (k : Int)) := by
  refine .positional (.digits own.first own.notZero (own.others.append (allDigits_replicate k))) (allDigits_replicate 1)
    (by simp) ?_
  rw [List.append_assoc, ← List.replicate_succ', Nat.ofDigitChars_append, own.value,
    Nat.ofDigitChars_replicate_zero, Nat.cast_mul, Nat.cast_pow, Nat.cast_ofNat, pow_succ, List.length_singleton,
    Nat.cast_one, zpow_neg, zpow_one, zpow_natCast]
  ring

theorem writes_split (own : DigitsOf n c ds) {k : Nat} (inside : k < ds.length) :
    Writes (c :: ds.take k ++ '.' :: ds.drop k) (n * 10 ^ (k - ds.length : Int)) := by
  refine .positional (.digits own.first own.notZero (own.others.take k)) (own.others.drop k)
    (mt List.drop_eq_nil_iff.mp (Nat.not_le_of_lt inside)) ?_
  have place : (-(ds.drop k).length : Int) = k - ds.length := by
    rw [List.length_drop]
    omega
  rw [List.cons_append, List.take_append_drop, own.value, place]

theorem writes_behind (own : DigitsOf n c ds) (k : Nat) :
    Writes ('0' :: '.' :: (List.replicate k '0' ++ c :: ds)) (n * 10 ^ (-(k + ds.length + 1) : Int)) := by
  refine Writes.positional .zero ((allDigits_replicate k).append (allDigits_cons.mpr ⟨own.first, own.others⟩))
    (by simp) ?_
  have place : (-(List.replicate k '0' ++ c :: ds).length : Int) = -(k + ds.length + 1) := by
    rw [List.length_append, List.length_replicate, List.length_cons]
    omega
  rw [place, Nat.ofDigitChars_append, Nat.ofDigitChars_append, show Nat.ofDigitChars 10 ['0'] 0 = 0 from rfl,
    Nat.ofDigitChars_replicate_zero, Nat.mul_zero, own.value]

theorem writes_scientific (own : DigitsOf n c ds) {fraction : List Char} (isFraction : IsFraction fraction)
    (tail : fraction.tail = ds) (exponent : Int) :
    Writes (c :: fraction ++ 'e' :: (if exponent < 0 then '-' else '+') :: Nat.toDigits 10 exponent.natAbs)
      (n * 10 ^ (exponent - ds.length)) := by
  have single : IsWhole [c] := .digits own.first own.notZero allDigits_nil
  have written := Writes.mk single isFraction (isExponent_power exponent)
  have least : (10 : ℚ) ^ ds.length ≤ n := by exact_mod_cast own.least
  have place : exponent = ds.length + (exponent - ds.length) := by omega
  rw [Grammar.size, power_written, List.singleton_append, tail, own.value] at written
  refine written (.inr ?_)
  calc (10 : ℚ) ^ exponent = 10 ^ ds.length * 10 ^ (exponent - ds.length) := by
        rw [← zpow_natCast, ← zpow_add₀ (by norm_num), ← place]
    _ ≤ n * 10 ^ (exponent - ds.length) := mul_le_mul_of_nonneg_right least (by positivity)

end DigitsOf

/-- A decimal is laid out as a numeral of its size. -/
theorem writes_layout (d : Decimal) : Writes (layout d) d.size := by
  rw [layout, Decimal.size, show "0.0".toList = ['0', '.', '0'] from rfl, show ".0".toList = ['.', '0'] from rfl,
    show "0.".toList = ['0', '.'] from rfl]
  dsimp only
  split
  next zero =>
    rw [beq_iff_eq.mp zero, Nat.cast_zero, zero_mul]
    exact .positional .zero (allDigits_replicate 1) (by simp) (by simp [Nat.ofDigitChars_cons])
  next nonzero =>
    obtain ⟨c, ds, written, own⟩ := exists_digitsOf (Nat.pos_of_ne_zero (by simpa using nonzero))
    simp only [written, List.length_cons, Bool.and_eq_true, decide_eq_true_eq]
    split
    next whole =>
      obtain ⟨k, up⟩ := Int.eq_ofNat_of_zero_le whole.1
      rw [up]
      exact own.writes_zeros k
    split
    next outside inside =>
      obtain ⟨k, place⟩ : ∃ k : Nat, (((ds.length + 1 : Nat) : Int) + d.exponent) = k + 1 :=
        ⟨(ds.length + d.exponent).toNat, by omega⟩
      rw [place, show ((k : Int) + 1).toNat = k + 1 by omega, List.take_succ_cons, List.drop_succ_cons,
        show d.exponent = k - ds.length by omega]
      exact own.writes_split (by omega)
    split
    next between =>
      obtain ⟨k, place⟩ : ∃ k : Nat, -(((ds.length + 1 : Nat) : Int) + d.exponent) = k :=
        Int.eq_ofNat_of_zero_le (by omega)
      rw [place, show d.exponent = -(k + ds.length + 1) by omega]
      exact own.writes_behind k
    next =>
      obtain ⟨power, place⟩ : ∃ power, ((ds.length + 1 : Nat) : Int) + d.exponent - 1 = power := ⟨_, rfl⟩
      rw [place, show d.exponent = power - ds.length by omega]
      cases ds with
      | nil => exact own.writes_scientific .none rfl power
      | cons d' ds => exact own.writes_scientific (isFraction_of_digits own.others (List.cons_ne_nil d' ds)) rfl power

theorem numeral_layout (d : Decimal) : IsNumeral (layout d) := (writes_layout d).isNumeral

end Layout

end Reader

end JsonAssist
