import JsonAssist.Proofs.Json.LoadedNumber
import JsonAssist.Proofs.Json.WrittenValue

namespace JsonAssist

/-- What every value has that was read from a text. -/
structure Value.Held (v : Value) : Prop where
  distinct : v.NamesDistinct
  shallow : v.nesting ≤ Reader.nestingLimit
  integers : ∀ n ∈ v.numbers, Reader.Fits64 n

namespace Reader

/-- Lists and objects nest no deeper in a value than the reader lets them. -/
theorem yields_nesting (depth : Nat) : (value depth).Yields fun v => v.nesting ≤ depth := by
  have flat (depth : Nat) : 0 ≤ depth := Nat.zero_le depth
  induction depth with
  | zero =>
    exact yields_valueWith (flat 0) (fun _ => flat 0) (fun _ => flat 0) (fun _ _ _ _ _ => flat 0)
      (yields_failPast _) (yields_failPast _)
  | succ depth ih =>
    refine yields_valueWith (flat _) (fun _ => flat _) (fun _ => flat _) (fun _ _ _ _ _ => flat _) ?_ ?_
    · exact (yields_list ih).map fun xs inside => Value.nesting_array_le.mpr ⟨depth, rfl, inside⟩
    · exact (yields_fields ih).map fun ms ⟨_, inside⟩ => Value.nesting_object_le.mpr ⟨depth, rfl, inside⟩

theorem yields_held {depth : Nat} (within : depth ≤ nestingLimit) : (value depth).Yields Value.Held :=
  fun s v rest read => ⟨yields_value depth s v rest read, Nat.le_trans (yields_nesting depth s v rest read) within,
    fun n member => (yields_numbers depth s v rest read n member).integer⟩

end Reader

namespace Value

theorem held_of_load {source : String} {v : Value} (loaded : Value.load source = .ok v) : v.Held :=
  (Reader.yields_held (Nat.le_refl _)).of_load loaded

namespace Held

variable {v : Value}

theorem of_array {xs : List Value} (held : (array xs).Held) {x : Value} (member : x ∈ xs) : x.Held where
  distinct := namesDistinct_array.mp held.distinct x member
  shallow := by
    obtain ⟨inner, limit, within⟩ := nesting_array_le.mp held.shallow
    have := within x member
    omega
  integers n inside := held.integers n (mem_numbers_array.mpr ⟨x, member, inside⟩)

theorem of_object {ms : List (String × Value)} (held : (object ms).Held) {m : String × Value} (member : m ∈ ms) :
    m.2.Held where
  distinct := (namesDistinct_object.mp held.distinct).2 m member
  shallow := by
    obtain ⟨inner, limit, within⟩ := nesting_object_le.mp held.shallow
    have := within m member
    omega
  integers n inside := held.integers n (mem_numbers_object.mpr ⟨m, member, inside⟩)

/-- A value that can be held loads from its text on one line, if its numbers with a fraction or an exponent do. -/
theorem load_compact (held : v.Held) (floats : ∀ x, .real x ∈ v.numbers → Number.ComesBack (.real x)) :
    Value.load v.compact = .ok v := by
  refine Value.load_compact held.distinct ⟨held.shallow, fun n member => ?_⟩
  cases n with
  | integer i => exact held.integers _ member i rfl
  | real x => exact floats x member

end Held

end Value

end JsonAssist
