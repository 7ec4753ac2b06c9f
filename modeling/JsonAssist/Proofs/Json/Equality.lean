import Mathlib.Data.List.Nodup
import Mathlib.Data.List.Perm.Subperm
import JsonAssist.Proofs.Json.Fields
import JsonAssist.Json.Value

namespace JsonAssist

theorem Double.same_iff {x y : Double} :
    x.same y ↔ x.significand = y.significand ∧ x.exponent = y.exponent ∧
      (x.negative = y.negative ∨ x.significand = 0) := by
  simp [Double.same, Double.isZero, and_assoc]

theorem Number.same_refl (n : Number) : n.same n := by
  cases n <;> simp [Number.same, Double.same]

theorem Number.same_symm {m n : Number} (equal : m.same n) : n.same m := by
  cases m <;> cases n <;> simp only [Number.same, Double.same_iff, Bool.false_eq_true] at equal ⊢
  · exact beq_iff_eq.mpr (beq_iff_eq.mp equal).symm
  · obtain ⟨significand, exponent, sign⟩ := equal
    exact ⟨significand.symm, exponent.symm, sign.imp Eq.symm (significand ▸ ·)⟩

theorem Number.same_trans {l m n : Number} (left : l.same m) (right : m.same n) : l.same n := by
  cases l <;> cases m <;> cases n <;>
    simp only [Number.same, Double.same_iff, Bool.false_eq_true, beq_iff_eq] at left right ⊢
  · exact left.trans right
  · obtain ⟨significand, exponent, sign⟩ := left
    obtain ⟨significand', exponent', sign'⟩ := right
    refine ⟨significand.trans significand', exponent.trans exponent', ?_⟩
    rcases sign with sign | zero
    · exact sign'.imp sign.trans significand.trans
    · exact Or.inr zero

namespace Value

/-- Every value holds if the values below it do. -/
theorem induction {P : Value → Prop} (null : P .null) (boolean : ∀ b, P (.boolean b))
    (number : ∀ n, P (.number n)) (string : ∀ s, P (.string s))
    (array : ∀ xs : List Value, (∀ x ∈ xs, P x) → P (.array xs))
    (object : ∀ ms : List (String × Value), (∀ m ∈ ms, P m.2) → P (.object ms)) : ∀ v, P v
  | .null => null
  | .boolean b => boolean b
  | .number n => number n
  | .string s => string s
  | .array xs => array xs fun x _ => induction null boolean number string array object x
  | .object ms => object ms fun m _ => induction null boolean number string array object m.2
termination_by v => sizeOf v
decreasing_by
  · have := List.sizeOf_lt_of_mem ‹x ∈ xs›
    simp only [Value.array.sizeOf_spec]
    omega
  · have := List.sizeOf_lt_of_mem ‹m ∈ ms›
    have : sizeOf m = 1 + sizeOf m.1 + sizeOf m.2 := rfl
    simp only [Value.object.sizeOf_spec]
    omega

/-- No object in the value writes a name twice, as in every value that was loaded. -/
inductive NamesDistinct : Value → Prop
  | null : NamesDistinct .null
  | boolean (b : Bool) : NamesDistinct (.boolean b)
  | number (n : Number) : NamesDistinct (.number n)
  | string (s : String) : NamesDistinct (.string s)
  | array {xs : List Value} (elements : ∀ x ∈ xs, NamesDistinct x) : NamesDistinct (.array xs)
  | object {ms : List (String × Value)} (names : (Fields.names ms).Nodup)
      (members : ∀ m ∈ ms, NamesDistinct m.2) : NamesDistinct (.object ms)

theorem namesDistinct_array {xs : List Value} :
    (array xs).NamesDistinct ↔ ∀ x ∈ xs, x.NamesDistinct :=
  ⟨fun | .array elements => elements, .array⟩

theorem namesDistinct_object {ms : List (String × Value)} :
    (object ms).NamesDistinct ↔ (Fields.names ms).Nodup ∧ ∀ m ∈ ms, m.2.NamesDistinct :=
  ⟨fun | .object names members => ⟨names, members⟩, fun ⟨names, members⟩ => .object names members⟩

theorem sameElements_refl {xs : List Value} (equal : ∀ x ∈ xs, x.same x) : sameElements xs xs := by
  induction xs with
  | nil => rfl
  | cons x xs ih =>
    obtain ⟨first, others⟩ := List.forall_mem_cons.mp equal
    simp only [sameElements, first, ih others, Bool.and_self]

theorem sameElements_symm {xs ys : List Value}
    (symm : ∀ x ∈ xs, ∀ y ∈ ys, x.same y → y.same x) (equal : sameElements xs ys) :
    sameElements ys xs := by
  induction xs generalizing ys with
  | nil => cases ys <;> simp_all [sameElements]
  | cons x xs ih =>
    cases ys with
    | nil => simp [sameElements] at equal
    | cons y ys =>
      simp only [sameElements, Bool.and_eq_true] at equal ⊢
      exact ⟨symm x List.mem_cons_self y List.mem_cons_self equal.1,
        ih (fun x' inLeft y' inRight => symm x' (List.mem_cons_of_mem x inLeft) y'
          (List.mem_cons_of_mem y inRight)) equal.2⟩

theorem sameElements_trans {xs ys zs : List Value}
    (trans : ∀ x ∈ xs, ∀ y z : Value, x.same y → y.same z → x.same z)
    (left : sameElements xs ys) (right : sameElements ys zs) : sameElements xs zs := by
  induction xs generalizing ys zs with
  | nil => cases ys <;> cases zs <;> simp_all [sameElements]
  | cons x xs ih =>
    cases ys with
    | nil => simp [sameElements] at left
    | cons y ys =>
      cases zs with
      | nil => simp [sameElements] at right
      | cons z zs =>
        simp only [sameElements, Bool.and_eq_true] at left right ⊢
        obtain ⟨first, others⟩ := List.forall_mem_cons.mp trans
        exact ⟨first y z left.1 right.1, ih others left.2 right.2⟩

theorem sameMembers_iff {ms ns : List (String × Value)} :
    sameMembers ms ns ↔ ∀ m ∈ ms, ∃ w, Fields.get? ns m.1 = some w ∧ m.2.same w := by
  induction ms with
  | nil => simp [sameMembers]
  | cons m ms ih =>
    simp only [sameMembers, Bool.and_eq_true, ih, List.forall_mem_cons]
    cases Fields.get? ns m.1 <;> simp

theorem same_refl {v : Value} (distinct : v.NamesDistinct) : v.same v := by
  induction distinct with
  | null => rfl
  | boolean b => simp [same]
  | number n => simpa [same] using n.same_refl
  | string s => simp [same]
  | array _ ih => exact sameElements_refl ih
  | object names _ ih =>
    simp only [same, beq_self_eq_true, Bool.true_and, sameMembers_iff]
    exact fun m member => ⟨m.2, Fields.get?_of_mem names member, ih m member⟩

/-- Members that all have equals among as many others leave none of the others without one. -/
theorem exists_member_of_same {ms ns : List (String × Value)} (names : (Fields.names ms).Nodup)
    (count : ms.length = ns.length)
    (equal : ∀ m ∈ ms, ∃ w, Fields.get? ns m.1 = some w ∧ m.2.same w)
    {n : String × Value} (member : n ∈ ns) : ∃ v, (n.1, v) ∈ ms := by
  have subset : Fields.names ms ⊆ Fields.names ns := by
    intro name written
    obtain ⟨m, inMembers, rfl⟩ := List.mem_map.mp written
    obtain ⟨w, found, _⟩ := equal m inMembers
    exact Fields.mem_names_of_get? found
  have sameNames : (Fields.names ms).Perm (Fields.names ns) :=
    (List.subperm_of_subset names subset).perm_of_length_le (by simp [Fields.names, count])
  obtain ⟨m, inMembers, sameName⟩ :=
    List.mem_map.mp (sameNames.mem_iff.mpr (Fields.mem_names_of_mem member))
  exact ⟨m.2, sameName ▸ inMembers⟩

theorem same_symm {v w : Value} (left : v.NamesDistinct) (right : w.NamesDistinct)
    (equal : v.same w) : w.same v := by
  induction left generalizing w with
  | null => cases w <;> simp_all [same]
  | boolean b => cases w <;> simp_all [same]
  | number n =>
    cases w <;> simp only [same, Bool.false_eq_true] at equal ⊢
    exact Number.same_symm equal
  | string s => cases w <;> simp_all [same]
  | @array xs _ ih =>
    cases right <;> simp only [same, Bool.false_eq_true] at equal ⊢
    next ys elements =>
      exact sameElements_symm (fun x inLeft y inRight => ih x inLeft (elements y inRight)) equal
  | @object ms names _ ih =>
    cases right <;> simp only [same, Bool.false_eq_true] at equal ⊢
    next ns names' members' =>
      simp only [Bool.and_eq_true, beq_iff_eq, sameMembers_iff] at equal ⊢
      obtain ⟨count, found⟩ := equal
      refine ⟨count.symm, fun n member => ?_⟩
      obtain ⟨v, inMembers⟩ := exists_member_of_same names count found member
      obtain ⟨w, atName, equalValue⟩ := found _ inMembers
      have : w = n.2 := Option.some.inj (atName.symm.trans (Fields.get?_of_mem names' member))
      subst this
      exact ⟨v, Fields.get?_of_mem names inMembers, ih _ inMembers (members' n member) equalValue⟩

theorem same_trans {u v w : Value} (left : u.same v) (right : v.same w) : u.same w := by
  induction u using Value.induction generalizing v w with
  | null => cases v <;> cases w <;> simp_all [same]
  | boolean b => cases v <;> cases w <;> simp_all [same]
  | number n =>
    cases v <;> simp only [same, Bool.false_eq_true] at left
    cases w <;> simp only [same, Bool.false_eq_true] at right ⊢
    exact Number.same_trans left right
  | string s => cases v <;> cases w <;> simp_all [same]
  | array xs ih =>
    cases v <;> simp only [same, Bool.false_eq_true] at left
    cases w <;> simp only [same, Bool.false_eq_true] at right ⊢
    exact sameElements_trans (fun x inLeft y z => ih x inLeft) left right
  | object ms ih =>
    cases v <;> simp only [same, Bool.false_eq_true] at left
    cases w <;> simp only [same, Bool.false_eq_true] at right ⊢
    simp only [Bool.and_eq_true, beq_iff_eq, sameMembers_iff] at left right ⊢
    refine ⟨left.1.trans right.1, fun m member => ?_⟩
    obtain ⟨x, atX, equal⟩ := left.2 m member
    obtain ⟨y, atY, equal'⟩ := right.2 _ (Fields.mem_of_get? atX)
    exact ⟨y, atY, ih m member equal equal'⟩

end Value

end JsonAssist
