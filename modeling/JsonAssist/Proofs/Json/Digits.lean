import Mathlib.Algebra.Group.Nat.Defs
import JsonAssist.Proofs.Json.Steps

namespace JsonAssist.Reader

variable {ds rest : List Char} {bound value taken : Nat}

theorem allDigits_nil : AllDigits [] := by simp [AllDigits]

theorem allDigits_cons {d : Char} : AllDigits (d :: ds) ↔ d.isDigit ∧ AllDigits ds := List.forall_mem_cons

theorem AllDigits.append {more : List Char} (digits : AllDigits ds) (others : AllDigits more) :
    AllDigits (ds ++ more) := List.forall_mem_append.mpr ⟨digits, others⟩

theorem skipDigits_append (digits : AllDigits ds) (ends : startsWithDigit rest = false) :
    skipDigits (ds ++ rest) = rest := by
  rw [skipDigits, List.dropWhile_append_of_pos digits]
  cases rest with
  | nil => rfl
  | cons c rest => exact List.dropWhile_cons_of_neg (by simpa [startsWithDigit] using ends)

theorem takeDigits_of_ends (ends : startsWithDigit rest = false) :
    takeDigits bound value taken rest = (value, taken, rest) := by
  cases rest with
  | nil => rfl
  | cons c rest =>
    have other : c.isDigit = false := ends
    simp [takeDigits, other]

/-- Where the digits of a list end, no more are taken. -/
theorem takeDigits_append (ends : startsWithDigit rest = false) :
    takeDigits bound value taken (ds ++ rest) =
      ((takeDigits bound value taken ds).1, (takeDigits bound value taken ds).2.1,
        (takeDigits bound value taken ds).2.2 ++ rest) := by
  induction ds generalizing value taken with
  | nil => exact takeDigits_of_ends ends
  | cons d ds ih =>
    rw [List.cons_append, takeDigits, takeDigits]
    split
    · exact ih
    · rfl

/-- What is taken are digits, as many as are counted. -/
theorem exists_takeDigits (bound value taken : Nat) (s : List Char) : ∃ ds, AllDigits ds ∧
    s = ds ++ (takeDigits bound value taken s).2.2 ∧ (takeDigits bound value taken s).2.1 = taken + ds.length := by
  induction s generalizing value taken with
  | nil => exact ⟨[], allDigits_nil, rfl, rfl⟩
  | cons c s ih =>
    rw [takeDigits]
    split
    next took =>
      obtain ⟨ds, digits, split, count⟩ := ih (value * 10 + digitValue c) (taken + 1)
      refine ⟨c :: ds, allDigits_cons.mpr ⟨(Bool.and_eq_true_iff.mp took).1, digits⟩, congrArg (c :: ·) split, ?_⟩
      rw [count, List.length_cons]
      omega
    next => exact ⟨[], allDigits_nil, rfl, rfl⟩

theorem exists_skipDigits (s : List Char) : ∃ ds, AllDigits ds ∧ s = ds ++ skipDigits s ∧
    startsWithDigit (skipDigits s) = false := by
  refine ⟨s.takeWhile Char.isDigit, fun _ => List.mem_takeWhile_imp, List.takeWhile_append_dropWhile.symm, ?_⟩
  rw [skipDigits]
  induction s with
  | nil => rfl
  | cons c s ih =>
    rw [List.dropWhile_cons]
    split
    · exact ih
    next other => simpa [startsWithDigit] using other

/-- What is left of digits are digits. -/
theorem AllDigits.of_takeDigits (digits : AllDigits ds) {more : List Char} {value' taken' : Nat}
    (took : takeDigits bound value taken ds = (value', taken', more)) : AllDigits more := by
  obtain ⟨front, _, split, _⟩ := exists_takeDigits bound value taken ds
  rw [took] at split
  exact fun c member => digits c (split ▸ List.mem_append_right front member)

theorem AllDigits.eq_nil (digits : AllDigits ds) (ends : startsWithDigit ds = false) : ds = [] := by
  cases ds with
  | nil => rfl
  | cons d ds => exact absurd (digits d List.mem_cons_self) (by simpa [startsWithDigit] using ends)

theorem startsWithDigit_append (ends : startsWithDigit rest = false) :
    startsWithDigit (ds ++ rest) = startsWithDigit ds := by
  cases ds with
  | nil => exact ends
  | cons d ds => rfl

theorem allDigits_replicate (n : Nat) : AllDigits (List.replicate n '0') := fun c member => by
  rw [List.eq_of_mem_replicate member]
  rfl

theorem AllDigits.take (digits : AllDigits ds) (n : Nat) : AllDigits (ds.take n) := fun c member =>
  digits c (List.mem_of_mem_take member)

theorem AllDigits.drop (digits : AllDigits ds) (n : Nat) : AllDigits (ds.drop n) := fun c member =>
  digits c (List.mem_of_mem_drop member)

theorem pow_mul_le_ofDigitChars (ds : List Char) (value : Nat) :
    10 ^ ds.length * value ≤ Nat.ofDigitChars 10 ds value := by
  rw [Nat.ofDigitChars_eq_ofDigitChars_zero]
  exact Nat.le_add_right _ _

theorem le_ofDigitChars (ds : List Char) (value : Nat) : value ≤ Nat.ofDigitChars 10 ds value :=
  Nat.le_trans (Nat.le_mul_of_pos_left value (Nat.pow_pos (by decide))) (pow_mul_le_ofDigitChars ds value)

/-- Digits whose number stays below the bound are all taken. -/
theorem takeDigits_below (digits : AllDigits ds) (ends : startsWithDigit rest = false)
    (below : Nat.ofDigitChars 10 ds value < bound) :
    takeDigits bound value taken (ds ++ rest) = (Nat.ofDigitChars 10 ds value, taken + ds.length, rest) := by
  induction ds generalizing value taken with
  | nil => exact takeDigits_of_ends ends
  | cons d ds ih =>
    obtain ⟨first, others⟩ := List.forall_mem_cons.mp digits
    rw [Nat.ofDigitChars_cons, Nat.mul_comm 10 value] at below ⊢
    have here : value * 10 + digitValue d < bound := Nat.lt_of_le_of_lt (le_ofDigitChars ds _) below
    rw [List.cons_append, takeDigits, if_pos (by simp [first, here]), digitValue, ih others below,
      List.length_cons, Nat.add_assoc, Nat.add_comm 1]

theorem takeDigits_lt {bound value : Nat} (small : value < bound) (taken : Nat) (s : List Char) :
    (takeDigits bound value taken s).1 < bound := by
  induction s generalizing value taken with
  | nil => exact small
  | cons c s ih =>
    rw [takeDigits]
    split
    next more => exact ih (of_decide_eq_true (Bool.and_eq_true_iff.mp more).2) (taken + 1)
    next => exact small

section Taken

variable {value' taken' : Nat} {more : List Char}

/-- The digits that are left go on with the number of those that were taken. -/
theorem ofDigitChars_takeDigits (took : takeDigits bound value taken ds = (value', taken', more)) :
    Nat.ofDigitChars 10 more value' = Nat.ofDigitChars 10 ds value ∧ taken' + more.length = taken + ds.length := by
  induction ds generalizing value taken with
  | nil =>
    cases took
    exact ⟨rfl, rfl⟩
  | cons d ds ih =>
    rw [takeDigits] at took
    split at took
    · obtain ⟨same, count⟩ := ih took
      rw [Nat.ofDigitChars_cons, Nat.mul_comm 10 value, List.length_cons]
      exact ⟨same, by omega⟩
    · cases took
      exact ⟨rfl, rfl⟩

/-- A digit is left only where it would take the number over the bound. -/
theorem bound_mul_pow_le {d : Char} (digits : AllDigits ds)
    (took : takeDigits bound value taken ds = (value', taken', d :: more)) :
    bound * 10 ^ more.length ≤ Nat.ofDigitChars 10 ds value := by
  induction ds generalizing value taken with
  | nil => exact nomatch took
  | cons c ds ih =>
    obtain ⟨first, others⟩ := allDigits_cons.mp digits
    rw [Nat.ofDigitChars_cons, Nat.mul_comm 10 value]
    rw [takeDigits] at took
    split at took
    · exact ih others took
    next beyond =>
      cases took
      have reached : bound ≤ value' * 10 + digitValue d := by simpa [first] using beyond
      rw [Nat.mul_comm]
      exact Nat.le_trans (Nat.mul_le_mul_left _ reached) (pow_mul_le_ofDigitChars more _)

end Taken

end JsonAssist.Reader
