import JsonAssist.Proofs.Schema.Absorption
import JsonAssist.Schema.Observe

namespace JsonAssist

/-- Strings, numbers and booleans: the values that are recorded as literals. -/
def Value.isScalar : Value → Bool
  | .boolean _ | .number _ | .string _ => true
  | _ => false

namespace Schema

theorem observeMembers_eq_map (ms : List (String × Value)) :
    observeMembers ms = ms.map fun m => (m.1, observe m.2) := by
  induction ms with
  | nil => rfl
  | cons m rest ih => rw [observeMembers, ih, List.map_cons]

@[simp] theorem names_observeMembers (ms : List (String × Value)) :
    Fields.names (observeMembers ms) = Fields.names ms := by
  rw [observeMembers_eq_map]
  exact Fields.names_map (fun _ v => observe v) ms

@[simp] theorem get?_observeMembers (ms : List (String × Value)) (name : String) :
    Fields.get? (observeMembers ms) name = (Fields.get? ms name).map observe := by
  rw [observeMembers_eq_map]
  exact Fields.get?_map (fun _ v => observe v) ms name

/-- Putting a sample in its place joins it as a list of one field. -/
theorem insert_joinOnto {fields : Fields Schema} (distinct : (Fields.names fields).Nodup)
    (name : String) (s : Schema) :
    Fields.insert fields name (joinOnto (Fields.get? fields name) s) =
      joinFields fields [(name, s)] := by
  have names : Fields.names (Fields.insert fields name (joinOnto (Fields.get? fields name) s)) =
      Fields.names (joinFields fields [(name, s)]) := by
    rw [Fields.names_insert, names_joinFields]
    by_cases known : name ∈ Fields.names fields <;> simp [known]
  have single : (Fields.names [(name, s)]).Nodup := List.nodup_singleton name
  refine Fields.ext (names ▸ nodup_names_joinFields distinct single) names fun other => ?_
  rw [Fields.get?_insert, get?_joinFields]
  by_cases same : name = other
  · subst same
    cases Fields.get? fields name <;> simp [Fields.get?, joinOnto]
  · simp [Fields.get?, same]

/-- A first member and those behind it, which have other names, are joined to what they are. -/
theorem joinFields_observeMembers {m : String × Value} {rest : List (String × Value)}
    (distinct : (Fields.names (m :: rest)).Nodup) :
    joinFields [(m.1, observe m.2)] (observeMembers rest) = observeMembers (m :: rest) := by
  obtain ⟨fresh, distinctRest⟩ := Fields.nodup_names_cons.mp distinct
  have names : Fields.names (joinFields [(m.1, observe m.2)] (observeMembers rest)) =
      Fields.names (observeMembers (m :: rest)) := by
    rw [names_joinFields, names_observeMembers, names_observeMembers]
    refine congrArg (m.1 :: ·) (List.filter_eq_self.mpr fun name written => ?_)
    have different : name ≠ m.1 := fun same => fresh (same ▸ written)
    simpa using different
  refine Fields.ext ?_ names fun name => ?_
  · rw [names, names_observeMembers]
    exact distinct
  · rw [get?_joinFields, get?_observeMembers, get?_observeMembers]
    by_cases same : m.1 = name
    · subst same
      simp [Fields.get?, Fields.get?_eq_none.mpr fresh]
    · simp [Fields.get?, same]

/-- The members of an object are joined one by one as they are joined together. -/
theorem mergeMembers_eq_joinFields {fields : Fields Schema} {ms : List (String × Value)}
    (known : (Fields.names fields).Nodup) (new : (Fields.names ms).Nodup) :
    mergeMembers fields ms = joinFields fields (observeMembers ms) := by
  induction ms generalizing fields with
  | nil => simp [mergeMembers, observeMembers]
  | cons m rest ih =>
    have single : (Fields.names [(m.1, observe m.2)]).Nodup := List.nodup_singleton m.1
    rw [mergeMembers, insert_joinOnto known,
      ih (nodup_names_joinFields known single) (Fields.nodup_names_cons.mp new).2, joinFields_assoc,
      joinFields_observeMembers new]

/-- The fields that an element adds to its array. -/
def elementFields : Value → Option (Fields Schema)
  | .object ms => some (observeMembers ms)
  | _ => none

/-- The literals that an element adds to its array. -/
def elementValues (v : Value) : Option (List Value) := if v.isScalar then some [v] else none

/-- The node of an array whose elements added these parts. -/
def arrayNode : Option (Fields Schema) → Option (List Value) → Schema
  | none, none => .node .array (some []) none
  | fields, values => .node .array fields values

theorem pushUnique_getD (values : Option (List Value)) (v : Value) :
    some (pushUnique (values.getD []) v) = joinOptions joinValues values (some [v]) := by
  cases values <;> rfl

theorem observeElements_cons {fields : Option (Fields Schema)} {x : Value}
    (known : ∀ fs, fields = some fs → (Fields.names fs).Nodup) (new : x.NamesDistinct)
    (values : Option (List Value)) (rest : List Value) :
    observeElements fields values (x :: rest) =
      observeElements (joinOptions joinFields fields (elementFields x))
        (joinOptions joinValues values (elementValues x)) rest := by
  cases new with
  | null | array _ => simp [observeElements, elementFields, elementValues, Value.isScalar]
  | boolean _ | number _ | string _ =>
    simp [observeElements, elementFields, elementValues, Value.isScalar, pushUnique_getD]
  | @object ms names _ =>
    have joined : some (mergeMembers (fields.getD []) ms) =
        joinOptions joinFields fields (some (observeMembers ms)) := by
      cases fields with
      | none => simp [mergeMembers_eq_joinFields (show (Fields.names []).Nodup from List.nodup_nil) names]
      | some fs => simp [mergeMembers_eq_joinFields (known fs rfl) names]
    simp [observeElements, elementFields, elementValues, Value.isScalar, joined]

theorem nodup_elementFields {x : Value} (distinct : x.NamesDistinct) :
    ∀ fields, elementFields x = some fields → (Fields.names fields).Nodup := by
  cases distinct with
  | object names _ => simpa [elementFields] using names
  | _ => simp [elementFields]

theorem observeElements_eq {fields : Option (Fields Schema)} {values : Option (List Value)}
    {xs : List Value} (known : ∀ fs, fields = some fs → (Fields.names fs).Nodup)
    (new : ∀ x ∈ xs, x.NamesDistinct) :
    observeElements fields values xs =
      arrayNode ((xs.map elementFields).foldl (joinOptions joinFields) fields)
        ((xs.map elementValues).foldl (joinOptions joinValues) values) := by
  induction xs generalizing fields values with
  | nil => cases fields <;> cases values <;> rfl
  | cons x rest ih =>
    obtain ⟨first, others⟩ := List.forall_mem_cons.mp new
    rw [observeElements_cons known first]
    exact ih (joinOptions_forall known (nodup_elementFields first) fun a b left right =>
      nodup_names_joinFields (known a left) (nodup_elementFields first b right)) others

/-- An array is the node of what its elements add, joined in their order. -/
theorem observe_array {xs : List Value} (distinct : ∀ x ∈ xs, x.NamesDistinct) :
    observe (.array xs) =
      arrayNode (gather joinFields (xs.map elementFields)) (gather joinValues (xs.map elementValues)) :=
  observeElements_eq (by simp) distinct

theorem elementFields_eq_children {x : Value} {fields : Fields Schema}
    (added : elementFields x = some fields) : (observe x).children = some fields := by
  cases x <;> simp_all [elementFields, observe]

theorem fieldsDistinct_gather_of {xs : List Value} (own : ∀ x ∈ xs, (observe x).NamesDistinct) :
    ∀ fields, gather joinFields (xs.map elementFields) = some fields → FieldsDistinct fields := by
  refine gather_forall (fun part member fields added => ?_) fun a b => FieldsDistinct.join
  obtain ⟨x, inElements, rfl⟩ := List.mem_map.mp member
  exact (own x inElements).fields (elementFields_eq_children added)

/-- The literals that elements add to an array are among the elements. -/
theorem mem_gather_elementValues {xs : List Value} :
    ∀ vs, gather joinValues (xs.map elementValues) = some vs → ∀ v ∈ vs, v ∈ xs := by
  refine gather_forall (fun part member vs added v inPart => ?_) fun a b left right v inJoin =>
    (mem_joinValues inJoin).elim (left v) (right v)
  obtain ⟨x, inElements, rfl⟩ := List.mem_map.mp member
  simp only [elementValues, Option.ite_none_right_eq_some, Option.some.injEq] at added
  rw [← added.2, List.mem_singleton] at inPart
  exact inPart ▸ inElements

/-- Observing a value in which no name is written twice gives a schema of that kind. -/
theorem observe_namesDistinct {v : Value} (distinct : v.NamesDistinct) :
    (observe v).NamesDistinct := by
  induction distinct with
  | null => exact .node (by simp) (by simp) (by simp)
  | boolean b => exact .node (by simp) (by simp) (by simpa using .boolean b)
  | number n => exact .node (by simp) (by simp) (by simpa using .number n)
  | string s => exact .node (by simp) (by simp) (by simpa using .string s)
  | object names members ih =>
    refine .node ?_ ?_ (by simp)
    · simpa using names
    · rintro _ ⟨⟩ entry member
      rw [observeMembers_eq_map] at member
      obtain ⟨m, inMembers, rfl⟩ := List.mem_map.mp member
      exact ih m inMembers
  | @array xs elements ih =>
    have fields : ∀ fs, gather joinFields (xs.map elementFields) = some fs → FieldsDistinct fs :=
      fieldsDistinct_gather_of ih
    have values : ∀ vs, gather joinValues (xs.map elementValues) = some vs →
        ∀ v ∈ vs, v.NamesDistinct :=
      fun vs joined v inJoin => elements v (mem_gather_elementValues vs joined v inJoin)
    rw [observe_array elements]
    cases atFields : gather joinFields (xs.map elementFields) with
    | none =>
      cases atValues : gather joinValues (xs.map elementValues) with
      | none => exact .node (by simp) (by simp) (by simp)
      | some vs => exact .node (by simp) (by simp) fun _ same => Option.some.inj same ▸ values vs atValues
    | some fs =>
      have own := fields fs atFields
      exact .node (fun _ same => Option.some.inj same ▸ own.names)
        (fun _ same => Option.some.inj same ▸ own.below) values

end Schema

end JsonAssist
