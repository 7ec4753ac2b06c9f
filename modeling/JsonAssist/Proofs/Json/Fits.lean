import JsonAssist.Json.Printer
import JsonAssist.Json.Reader
import JsonAssist.Proofs.Json.Equality

namespace JsonAssist

namespace Value

mutual

/-- How many lists and objects stand inside one another. -/
def nesting : Value → Nat
  | .array xs => elementNesting xs + 1
  | .object ms => memberNesting ms + 1
  | _ => 0

def elementNesting : List Value → Nat
  | [] => 0
  | x :: xs => Nat.max (nesting x) (elementNesting xs)

def memberNesting : List (String × Value) → Nat
  | [] => 0
  | (_, v) :: rest => Nat.max (nesting v) (memberNesting rest)

end

mutual

/-- The numbers in a value. -/
def numbers : Value → List Number
  | .number n => [n]
  | .array xs => elementNumbers xs
  | .object ms => memberNumbers ms
  | _ => []

def elementNumbers : List Value → List Number
  | [] => []
  | x :: xs => numbers x ++ elementNumbers xs

def memberNumbers : List (String × Value) → List Number
  | [] => []
  | (_, v) :: rest => numbers v ++ memberNumbers rest

end

end Value

/-- A number that can be held and that loads from its own text: an integer that fits 64 bits, with or
without a sign, or a binary64 number whose text is read as that very number. -/
def Number.ComesBack : Number → Prop
  | .integer i => -Nat.pow 2 63 ≤ i ∧ i < Nat.pow 2 64
  | .real x => Value.load (String.ofList x.text) = .ok (.number (.real x))

namespace Number

/-- What the text of the number is read as, which may differ from a binary64 number in its last digit. -/
def reread (n : Number) : Number :=
  match Value.load (String.ofList n.chars) with
  | .ok (.number m) => m
  | _ => n

/-- The text of the number is read as some number. -/
def Readable (n : Number) : Prop := Value.load (String.ofList n.chars) = .ok (.number n.reread)

theorem reread_eq {n m : Number} (loaded : Value.load (String.ofList n.chars) = .ok (.number m)) : n.reread = m := by
  rw [reread, loaded]

theorem readable_of_load {n m : Number} (loaded : Value.load (String.ofList n.chars) = .ok (.number m)) :
    n.Readable := by
  rw [Readable, reread_eq loaded]
  exact loaded

end Number

namespace Value

mutual

/-- The value with each number replaced by what its text is read as. -/
def reread : Value → Value
  | .number n => .number n.reread
  | .array xs => .array (rereadElements xs)
  | .object ms => .object (rereadMembers ms)
  | v => v

def rereadElements : List Value → List Value
  | [] => []
  | x :: xs => reread x :: rereadElements xs

def rereadMembers : List (String × Value) → List (String × Value)
  | [] => []
  | (name, v) :: rest => (name, reread v) :: rereadMembers rest

end

theorem reread_array (xs : List Value) : (array xs).reread = .array (xs.map reread) := by
  rw [reread]
  induction xs with
  | nil => rfl
  | cons x xs ih => rw [rereadElements, List.map_cons, (array.inj ih)]

theorem reread_object (ms : List (String × Value)) :
    (object ms).reread = .object (ms.map fun m => (m.1, m.2.reread)) := by
  rw [reread]
  induction ms with
  | nil => rfl
  | cons m ms ih => rw [rereadMembers, List.map_cons, (object.inj ih)]

end Value

/-- A value that nests no deeper than may be read, with numbers as the property says. -/
structure Value.Fits (v : Value) (Admits : Number → Prop) (depth : Nat) : Prop where
  shallow : v.nesting ≤ depth
  back : ∀ n ∈ v.numbers, Admits n

namespace Value

variable {Admits : Number → Prop} {depth : Nat}

theorem Fits.mono {v : Value} (fits : v.Fits Admits depth) {more : Nat} (below : depth ≤ more) :
    v.Fits Admits more :=
  ⟨Nat.le_trans fits.shallow below, fits.back⟩

theorem mem_numbers_array {xs : List Value} {n : Number} :
    n ∈ (array xs).numbers ↔ ∃ x ∈ xs, n ∈ x.numbers := by
  rw [numbers]
  induction xs with
  | nil => simp [elementNumbers]
  | cons x xs ih => simp [elementNumbers, ih]

theorem mem_numbers_object {ms : List (String × Value)} {n : Number} :
    n ∈ (object ms).numbers ↔ ∃ m ∈ ms, n ∈ m.2.numbers := by
  rw [numbers]
  induction ms with
  | nil => simp [memberNumbers]
  | cons m ms ih => simp [memberNumbers, ih]

theorem nesting_array_le {xs : List Value} :
    (array xs).nesting ≤ depth ↔ ∃ inner, depth = inner + 1 ∧ ∀ x ∈ xs, x.nesting ≤ inner := by
  have elements (inner : Nat) : elementNesting xs ≤ inner ↔ ∀ x ∈ xs, x.nesting ≤ inner := by
    induction xs with
    | nil => simp [elementNesting]
    | cons x xs ih => rw [elementNesting, List.forall_mem_cons, ← ih]; exact Nat.max_le
  cases depth with
  | zero => simp [nesting]
  | succ depth => simp [nesting, elements]

theorem nesting_object_le {ms : List (String × Value)} :
    (object ms).nesting ≤ depth ↔ ∃ inner, depth = inner + 1 ∧ ∀ m ∈ ms, m.2.nesting ≤ inner := by
  have members (inner : Nat) : memberNesting ms ≤ inner ↔ ∀ m ∈ ms, m.2.nesting ≤ inner := by
    induction ms with
    | nil => simp [memberNesting]
    | cons m ms ih => rw [memberNesting, List.forall_mem_cons, ← ih]; exact Nat.max_le
  cases depth with
  | zero => simp [nesting]
  | succ depth => simp [nesting, members]

theorem fits_array {xs : List Value} :
    (array xs).Fits Admits depth ↔ ∃ inner, depth = inner + 1 ∧ ∀ x ∈ xs, x.Fits Admits inner := by
  constructor
  · rintro ⟨shallow, back⟩
    obtain ⟨inner, rfl, within⟩ := nesting_array_le.mp shallow
    exact ⟨inner, rfl, fun x member => ⟨within x member, fun n inX => back n (mem_numbers_array.mpr ⟨x, member, inX⟩)⟩⟩
  · rintro ⟨inner, rfl, own⟩
    refine ⟨nesting_array_le.mpr ⟨inner, rfl, fun x member => (own x member).shallow⟩, fun n inside => ?_⟩
    obtain ⟨x, member, inX⟩ := mem_numbers_array.mp inside
    exact (own x member).back n inX

theorem fits_object {ms : List (String × Value)} :
    (object ms).Fits Admits depth ↔ ∃ inner, depth = inner + 1 ∧ ∀ m ∈ ms, m.2.Fits Admits inner := by
  constructor
  · rintro ⟨shallow, back⟩
    obtain ⟨inner, rfl, within⟩ := nesting_object_le.mp shallow
    exact ⟨inner, rfl, fun m member => ⟨within m member, fun n inM => back n (mem_numbers_object.mpr ⟨m, member, inM⟩)⟩⟩
  · rintro ⟨inner, rfl, own⟩
    refine ⟨nesting_object_le.mpr ⟨inner, rfl, fun m member => (own m member).shallow⟩, fun n inside => ?_⟩
    obtain ⟨m, member, inM⟩ := mem_numbers_object.mp inside
    exact (own m member).back n inM

/-- A value whose numbers all come back is read as it was. -/
theorem reread_eq_self {v : Value} (back : ∀ n ∈ v.numbers, n.reread = n) : v.reread = v := by
  induction v using Value.induction with
  | null | boolean b | string s => rfl
  | number n => rw [reread, back n List.mem_cons_self]
  | array xs ih =>
    rw [reread_array]
    have same : xs.map reread = xs.map id := List.map_congr_left fun x member =>
      ih x member fun n inX => back n (mem_numbers_array.mpr ⟨x, member, inX⟩)
    rw [same, List.map_id]
  | object ms ih =>
    rw [reread_object]
    have same : ms.map (fun m => (m.1, m.2.reread)) = ms.map id := List.map_congr_left fun m member =>
      Prod.ext rfl (ih m member fun n inM => back n (mem_numbers_object.mpr ⟨m, member, inM⟩))
    rw [same, List.map_id]

end Value

end JsonAssist
