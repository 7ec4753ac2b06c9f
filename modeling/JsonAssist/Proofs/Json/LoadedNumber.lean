import JsonAssist.Proofs.Json.Readable

namespace JsonAssist

namespace Reader

/-- The number has a fraction or an exponent, and is in its canonical form. -/
def IsReal (n : Number) : Prop := ∃ x, n = .real x ∧ x.Canonical

theorem yields_real (negative : Bool) (significand : Nat) (exponent : Int) :
    (real negative significand exponent).Yields IsReal := by
  intro s n rest read
  rw [real] at read
  split at read
  next x made =>
    cases read
    exact ⟨x, rfl, Double.canonical_ofDecimal made⟩
  next => cases read

theorem yields_exponentPart (negative : Bool) (significand : Nat) (start : Int) :
    (exponentPart negative significand start).Yields IsReal := by
  refine yields_bind fun left => ?_
  split
  refine yields_bind fun _ => ?_
  split
  · exact yields_fail _
  split
  · dsimp only
    split
    · split
      · exact yields_bind fun _ => yields_fail _
      · exact yields_bind fun _ => yields_pure ⟨_, rfl, Double.canonical_zero negative⟩
    · exact yields_bind fun _ => yields_real _ _ _
  · exact yields_failPast _

theorem yields_realTail (negative : Bool) (significand : Nat) (exponent : Int) :
    (realTail negative significand exponent).Yields IsReal := by
  refine yields_bind fun left => ?_
  split
  · split
    · exact yields_bind fun _ => yields_exponentPart _ _ _
    · exact yields_real _ _ _
  · exact yields_real _ _ _

theorem yields_fractionPart (negative : Bool) (significand : Nat) (exponent : Int) :
    (fractionPart negative significand exponent).Yields IsReal := by
  refine yields_bind fun left => ?_
  dsimp only
  refine yields_bind fun _ => ?_
  split
  · split
    · exact yields_fail _
    · exact yields_failPast _
  · exact yields_realTail _ _ _

/-- Integers of 64 bits, with or without a sign. -/
def Fits64 (n : Number) : Prop := ∀ i, n = .integer i → -Nat.pow 2 63 ≤ i ∧ i < Nat.pow 2 64

/-- What every number has that was read: integers fit 64 bits, all others are in their canonical form. -/
structure Sound (n : Number) : Prop where
  integer : Fits64 n
  real : ∀ x, n = .real x → x.Canonical

theorem Yields.sound {r : Reader Number} (own : r.Yields IsReal) : r.Yields Sound := by
  intro s n rest read
  obtain ⟨x, rfl, canonical⟩ := own s n rest read
  exact ⟨nofun, fun _ same => Number.real.inj same ▸ canonical⟩

theorem yields_numberTail (negative : Bool) {significand : Nat} (small : significand < Nat.pow 2 64) :
    (numberTail negative significand).Yields Sound := by
  have positive : Nat.pow 2 64 = 18446744073709551616 := rfl
  have signed : Nat.pow 2 63 = 9223372036854775808 := rfl
  refine yields_bind fun left => ?_
  dsimp only
  refine yields_bind fun _ => ?_
  split
  · exact yields_bind fun _ => (yields_fractionPart negative _ _).sound
  split
  · exact (yields_realTail negative _ _).sound
  split
  · refine yields_pure ⟨?_, nofun⟩
    rintro _ ⟨⟩
    omega
  split
  · exact (yields_real true _ _).sound
  next held =>
    refine yields_pure ⟨?_, nofun⟩
    rintro _ ⟨⟩
    omega

theorem yields_number (negative : Bool) : (number negative).Yields Sound := by
  have positive : 0 < Nat.pow 2 64 := by decide
  refine yields_bind fun left => ?_
  cases left with
  | nil => exact yields_fail _
  | cons c rest =>
    dsimp only
    split
    · refine yields_bind fun _ => ?_
      split
      · exact yields_failPast _
      · exact yields_numberTail negative positive
    split
    · have small := takeDigits_lt positive 0 (c :: rest)
      exact yields_bind fun _ => yields_numberTail negative small
    · exact yields_failPast _

theorem yields_numbers (depth : Nat) : (value depth).Yields fun v => ∀ n ∈ v.numbers, Sound n := by
  have own (negative : Bool) : (number negative).Yields fun m => ∀ n ∈ (Value.number m).numbers, Sound n :=
    fun s m rest read n member => List.mem_singleton.mp member ▸ yields_number negative s m rest read
  have none : ∀ n ∈ ([] : List Number), Sound n := nofun
  induction depth with
  | zero => exact yields_valueWith none (fun _ => none) (fun _ => none) own (yields_failPast _) (yields_failPast _)
  | succ depth ih =>
    refine yields_valueWith none (fun _ => none) (fun _ => none) own ?_ ?_
    · refine (yields_list ih).map fun xs inside n member => ?_
      obtain ⟨x, inList, inX⟩ := Value.mem_numbers_array.mp member
      exact inside x inList n inX
    · refine (yields_fields ih).map fun ms ⟨_, inside⟩ n member => ?_
      obtain ⟨m, inObject, inM⟩ := Value.mem_numbers_object.mp member
      exact inside m inObject n inM

end Reader

namespace Value

/-- The numbers of a value that was loaded come back if those with a fraction or an exponent do. -/
theorem comesBack_of_load {source : String} {v : Value} (loaded : load source = .ok v)
    (floats : ∀ x, .real x ∈ v.numbers → Number.ComesBack (.real x)) : ∀ n ∈ v.numbers, n.ComesBack
  | .integer i, member => ((Reader.yields_numbers _).of_load loaded _ member).integer i rfl
  | .real x, member => floats x member

/-- The text of each number in a value that was loaded is that of a number. -/
theorem readable_of_load {source : String} {v : Value} (loaded : load source = .ok v) :
    ∀ n ∈ v.numbers, n.Readable := by
  intro n member
  have sound := (Reader.yields_numbers _).of_load loaded n member
  cases n with
  | integer i => exact Number.ComesBack.readable (sound.integer i rfl)
  | real x => exact (sound.real x rfl).readable

end Value

end JsonAssist
