import JsonAssist.Proofs.Schema.Forest

namespace JsonAssist

namespace Value

def isObject : Value → Bool
  | .object _ => true
  | _ => false

/-- The values one name further down: the field of an object, and the fields of those elements of an
array that are objects, in order. Arrays directly in an array are not entered. -/
def under (name : String) : Value → List Value
  | .object ms => (Fields.get? ms name).toList
  | .array xs => xs.filterMap (field? name)
  | _ => []

/-- The names of an object. -/
def memberNames : Value → List String
  | .object ms => Fields.names ms
  | _ => []

/-- The names one step further down. -/
def namesUnder : Value → List String
  | .object ms => Fields.names ms
  | .array xs => xs.flatMap memberNames
  | _ => []

/-- The literals found at a value: itself, or the elements of an array that are literals. -/
def literals : Value → List Value
  | .array xs => xs.filter isScalar
  | v => if v.isScalar then [v] else []

/-- Whether fields may be found below: in an object, and in an array that holds an object or no
literal either. -/
def isContainer : Value → Bool
  | .object _ => true
  | .array xs => xs.any isObject || !xs.any isScalar
  | _ => false

/-- Each of some literals once, in the order in which they are first seen; nothing where there are
none. -/
def firstSeen? (literals : List Value) : Option (List Value) :=
  if literals = [] then none else some (literals.eraseDupsBy fun v w => v.same w)

end Value

/-- The values at the end of a path from some values: what stands below those found so far, in
order. -/
def reached (values : List Value) (path : List String) : List Value :=
  path.foldl (fun values name => values.flatMap (Value.under name)) values

/-- The values that documents have at a place, which begins with a key of their own. -/
def found (documents : List Value) (key : String) (path : List String) : List Value :=
  reached (documents.filterMap (Value.field? key)) path

/-- A schema tells of some values what is to be known of them: the dominant of their types, the
literals found at them, whether they can have fields, and the names of those in first-seen order. -/
structure Schema.Collects (s : Schema) (values : List Value) : Prop where
  typeFound : ∃ v ∈ values, s.type = v.type
  dominant : ∀ v ∈ values, v.type.rank ≤ s.type.rank
  literals : s.values = Value.firstSeen? (values.flatMap Value.literals)
  container : s.children.isSome ↔ ∃ v ∈ values, v.isContainer
  names : Fields.names (s.children.getD []) = (values.flatMap Value.namesUnder).eraseDups

section FirstSeen

variable {α : Type}

theorem eraseDupsBy_loop_concat (same : α → α → Bool) (as seen : List α) (a : α) :
    List.eraseDupsBy.loop same (as ++ [a]) seen =
      if (List.eraseDupsBy.loop same as seen).any (same a) then List.eraseDupsBy.loop same as seen
      else List.eraseDupsBy.loop same as seen ++ [a] := by
  induction as generalizing seen with
  | nil =>
    by_cases known : seen.any (same a) <;> simp [List.eraseDupsBy.loop, known]
  | cons b as ih =>
    by_cases known : seen.any (same b) <;> simp [List.eraseDupsBy.loop, known, ih]

theorem eraseDupsBy_concat (same : α → α → Bool) (as : List α) (a : α) :
    (as ++ [a]).eraseDupsBy same =
      if (as.eraseDupsBy same).any (same a) then as.eraseDupsBy same
      else as.eraseDupsBy same ++ [a] :=
  eraseDupsBy_loop_concat same as [] a

theorem eraseDups_of_nodup {as : List String} (distinct : as.Nodup) : as.eraseDups = as := by
  induction as with
  | nil => rfl
  | cons a as ih =>
    obtain ⟨fresh, distinctRest⟩ := List.nodup_cons.mp distinct
    have others : as.filter (fun b => !b == a) = as := List.filter_eq_self.mpr fun b member => by
      simpa using fun same : b = a => fresh (same ▸ member)
    rw [List.eraseDups_cons, others, ih distinctRest]

/-- The first-seen names of two lists are those of the left one, and the others of the right one. -/
theorem eraseDups_append_eq (as bs : List String) :
    (as ++ bs).eraseDups = as.eraseDups ++ bs.eraseDups.filter fun b => b ∉ as.eraseDups := by
  induction bs using List.reverseRecOn with
  | nil => simp
  | append_singleton bs b ih =>
    rw [← List.append_assoc, eraseDups_concat, eraseDups_concat, ih]
    by_cases inRight : b ∈ bs
    · simp [inRight]
    · by_cases inLeft : b ∈ as <;> simp [inLeft, inRight]

end FirstSeen

namespace Value

theorem namesDistinct_of_isScalar {v : Value} (literal : v.isScalar) : v.NamesDistinct := by
  cases v <;> simp [isScalar] at literal
  · exact .boolean _
  · exact .number _
  · exact .string _

theorem isScalar_of_mem_literals {v w : Value} (member : w ∈ v.literals) : w.isScalar := by
  cases v <;> simp_all [literals, isScalar]

theorem isIn_eq_any {v : Value} {values : List Value} (literal : v.isScalar)
    (literals : ∀ w ∈ values, w.isScalar) : v.isIn values = values.any fun w => v.same w := by
  have own := namesDistinct_of_isScalar literal
  rw [isIn, Bool.eq_iff_iff, List.any_eq_true, List.any_eq_true]
  refine exists_congr fun w => and_congr_right fun member => ?_
  have other := namesDistinct_of_isScalar (literals w member)
  exact ⟨same_symm other own, same_symm own other⟩

/-- Literals that are pushed one after the other are those first seen. -/
theorem joinValues_nil_eq_eraseDupsBy {values : List Value} (literals : ∀ v ∈ values, v.isScalar) :
    joinValues [] values = values.eraseDupsBy fun v w => v.same w := by
  induction values using List.reverseRecOn with
  | nil => rfl
  | append_singleton values v ih =>
    obtain ⟨before, last⟩ := List.forall_mem_append.mp literals
    have pushed : ∀ w ∈ joinValues [] values, w.isScalar := fun w member =>
      (Schema.mem_joinValues member).elim (absurd · List.not_mem_nil) (before w)
    rw [joinValues_concat, pushUnique, isIn_eq_any (last v List.mem_cons_self) pushed,
      eraseDupsBy_concat, ih before]

theorem joinValues_firstSeen {left right : List Value} (inLeft : ∀ v ∈ left, v.isScalar)
    (inRight : ∀ v ∈ right, v.isScalar) :
    Schema.joinOptions joinValues (firstSeen? left) (firstSeen? right) = firstSeen? (left ++ right) := by
  have both : joinValues (joinValues [] left) (joinValues [] right) = joinValues [] (left ++ right) := by
    rw [← joinValues_assoc, joinValues_append]
    rfl
  rw [joinValues_nil_eq_eraseDupsBy inLeft, joinValues_nil_eq_eraseDupsBy inRight,
    joinValues_nil_eq_eraseDupsBy (List.forall_mem_append.mpr ⟨inLeft, inRight⟩)] at both
  by_cases noneLeft : left = []
  · simp [firstSeen?, noneLeft]
  · by_cases noneRight : right = []
    · simp [firstSeen?, noneRight]
    · simp [firstSeen?, noneLeft, noneRight, both]

theorem forall_isScalar_flatMap_literals (values : List Value) :
    ∀ v ∈ values.flatMap literals, v.isScalar := by
  intro v member
  obtain ⟨w, _, found⟩ := List.mem_flatMap.mp member
  exact isScalar_of_mem_literals found

end Value

namespace Schema

theorem names_joinFields_of_eraseDups {a b : Fields Schema} {left right : List String}
    (inLeft : Fields.names a = left.eraseDups) (inRight : Fields.names b = right.eraseDups) :
    Fields.names (joinFields a b) = (left ++ right).eraseDups := by
  rw [names_joinFields, eraseDups_append_eq, inLeft, inRight]

/-- What two samples tell of their values, their join tells of all of these. -/
theorem Collects.join {s t : Schema} {left right : List Value} (inLeft : s.Collects left)
    (inRight : t.Collects right) : (s.join t).Collects (left ++ right) where
  typeFound := by
    obtain ⟨v, member, type⟩ := inLeft.typeFound
    obtain ⟨w, member', type'⟩ := inRight.typeFound
    rw [type_join, JsonType.max]
    split
    · exact ⟨w, List.mem_append_right left member', type'⟩
    · exact ⟨v, List.mem_append_left right member, type⟩
  dominant v member := by
    rw [type_join, JsonType.rank_max]
    rcases List.mem_append.mp member with old | new
    · exact Nat.le_trans (inLeft.dominant v old) (Nat.le_max_left ..)
    · exact Nat.le_trans (inRight.dominant v new) (Nat.le_max_right ..)
  literals := by
    rw [values_join, inLeft.literals, inRight.literals, List.flatMap_append]
    exact Value.joinValues_firstSeen (Value.forall_isScalar_flatMap_literals left)
      (Value.forall_isScalar_flatMap_literals right)
  container := by
    rw [children_join, joinOptions_isSome, inLeft.container, inRight.container]
    simp [or_and_right, exists_or]
  names := by
    rw [children_join, getD_joinOptions_joinFields, List.flatMap_append]
    exact names_joinFields_of_eraseDups inLeft.names inRight.names

@[simp] theorem type_arrayNode (fields : Option (Fields Schema)) (values : Option (List Value)) :
    (arrayNode fields values).type = .array := by
  cases fields <;> cases values <;> rfl

@[simp] theorem values_arrayNode (fields : Option (Fields Schema)) (values : Option (List Value)) :
    (arrayNode fields values).values = values := by
  cases fields <;> cases values <;> rfl

theorem children_arrayNode_isSome {fields : Option (Fields Schema)} {values : Option (List Value)} :
    (arrayNode fields values).children.isSome ↔ fields.isSome ∨ values = none := by
  cases fields <;> cases values <;> simp [arrayNode]

theorem getD_children_arrayNode (fields : Option (Fields Schema)) (values : Option (List Value)) :
    (arrayNode fields values).children.getD [] = fields.getD [] := by
  cases fields <;> cases values <;> rfl

theorem gather_elementFields_isSome {xs : List Value} :
    (gather joinFields (xs.map elementFields)).isSome ↔ xs.any Value.isObject := by
  have own (x : Value) : (elementFields x).isSome ↔ x.isObject := by
    cases x <;> simp [elementFields, Value.isObject]
  simp [gather_isSome, own]

theorem gather_elementValues (xs : List Value) :
    gather joinValues (xs.map elementValues) = Value.firstSeen? (xs.filter Value.isScalar) := by
  induction xs using List.reverseRecOn with
  | nil => rfl
  | append_singleton xs x ih =>
    have own : elementValues x = Value.firstSeen? ([x].filter Value.isScalar) := by
      by_cases literal : x.isScalar <;> simp [elementValues, Value.firstSeen?, literal, List.eraseDupsBy_cons]
    rw [List.map_append, List.map_singleton, gather_concat, ih, own, List.filter_append]
    exact Value.joinValues_firstSeen (fun v member => (List.mem_filter.mp member).2)
      fun v member => (List.mem_filter.mp member).2

theorem names_gather_elementFields {xs : List Value} (distinct : ∀ x ∈ xs, x.NamesDistinct) :
    Fields.names ((gather joinFields (xs.map elementFields)).getD []) =
      (xs.flatMap Value.memberNames).eraseDups := by
  induction xs using List.reverseRecOn with
  | nil => rfl
  | append_singleton xs x ih =>
    obtain ⟨before, last⟩ := List.forall_mem_append.mp distinct
    have own : Fields.names ((elementFields x).getD []) = ([x].flatMap Value.memberNames).eraseDups := by
      cases last x List.mem_cons_self with
      | object names _ => simpa [elementFields, Value.memberNames] using (eraseDups_of_nodup names).symm
      | _ => rfl
    rw [List.map_append, List.map_singleton, gather_concat, getD_joinOptions_joinFields,
      List.flatMap_append]
    exact names_joinFields_of_eraseDups (ih before) own

theorem Collects.of_single {s : Schema} {v : Value} (type : s.type = v.type)
    (literals : s.values = Value.firstSeen? v.literals) (container : s.children.isSome ↔ v.isContainer)
    (names : Fields.names (s.children.getD []) = v.namesUnder.eraseDups) : s.Collects [v] where
  typeFound := ⟨v, List.mem_cons_self, type⟩
  dominant w member := by exact (List.mem_singleton.mp member ▸ type ▸ Nat.le_refl _)
  literals := by simpa using literals
  container := by simpa using container
  names := by simpa using names

/-- What one value tells of itself. -/
theorem collects_observe {v : Value} (distinct : v.NamesDistinct) : (observe v).Collects [v] := by
  cases distinct with
  | null | boolean _ | number _ | string _ =>
    exact .of_single rfl rfl (by simp [observe, Value.isContainer]) rfl
  | object names _ =>
    refine .of_single rfl rfl (by simp [observe, Value.isContainer]) ?_
    simpa [observe, Value.namesUnder] using (eraseDups_of_nodup names).symm
  | @array xs elements =>
    rw [observe_array elements]
    refine .of_single (type_arrayNode ..) ?_ ?_ ?_
    · rw [values_arrayNode, gather_elementValues]
      rfl
    · have literal : gather joinValues (xs.map elementValues) = none ↔ ¬xs.any Value.isScalar := by
        rw [gather_elementValues]
        simp [Value.firstSeen?]
      rw [children_arrayNode_isSome, gather_elementFields_isSome, literal]
      simp [Value.isContainer]
    · rw [getD_children_arrayNode, names_gather_elementFields elements]
      rfl

theorem collects_observeAll {values : List Value} (distinct : ∀ v ∈ values, v.NamesDistinct)
    {s : Schema} (seen : observeAll values = some s) : s.Collects values := by
  induction values using List.reverseRecOn generalizing s with
  | nil => simp [observeAll] at seen
  | append_singleton values v ih =>
    obtain ⟨before, last⟩ := List.forall_mem_append.mp distinct
    have own := collects_observe (last v List.mem_cons_self)
    rw [observeAll_append] at seen
    cases known : observeAll values with
    | none =>
      rw [known] at seen
      cases Option.some.inj seen
      rwa [observeAll_eq_none.mp known]
    | some t =>
      rw [known] at seen
      cases Option.some.inj seen
      exact (ih before known).join own

end Schema

theorem Value.NamesDistinct.field {v w : Value} {name : String} (distinct : v.NamesDistinct)
    (present : v.field? name = some w) : w.NamesDistinct := by
  cases distinct with
  | object _ members => exact members _ (Fields.mem_of_get? present)
  | _ => simp [field?] at present

theorem Value.NamesDistinct.under {v w : Value} {name : String} (distinct : v.NamesDistinct)
    (member : w ∈ v.under name) : w.NamesDistinct := by
  cases distinct with
  | object _ members => exact members _ (Fields.mem_of_get? (Option.mem_toList.mp member))
  | array elements =>
    obtain ⟨x, inElements, present⟩ := List.mem_filterMap.mp member
    exact (elements x inElements).field present
  | _ => simp [Value.under] at member

theorem namesDistinct_flatMap_under {values : List Value} (distinct : ∀ v ∈ values, v.NamesDistinct)
    (name : String) : ∀ w ∈ values.flatMap (Value.under name), w.NamesDistinct := by
  intro w member
  obtain ⟨v, inValues, under⟩ := List.mem_flatMap.mp member
  exact (distinct v inValues).under under

theorem namesDistinct_filterMap_field {documents : List Value}
    (distinct : ∀ d ∈ documents, d.NamesDistinct) (key : String) :
    ∀ v ∈ documents.filterMap (Value.field? key), v.NamesDistinct := by
  intro v member
  obtain ⟨d, inDocuments, present⟩ := List.mem_filterMap.mp member
  exact (distinct d inDocuments).field present

namespace Schema

theorem child?_arrayNode (fields : Option (Fields Schema)) (values : Option (List Value))
    (name : String) :
    (arrayNode fields values).child? name = fields.bind fun fs => Fields.get? fs name := by
  cases fields <;> cases values <;> rfl

/-- The field of an array is what its object elements have under the name, observed together. -/
theorem child?_observe {v : Value} (distinct : v.NamesDistinct) (name : String) :
    (observe v).child? name = observeAll (v.under name) := by
  cases distinct with
  | null | boolean _ | number _ | string _ => rfl
  | object _ _ => simp [observe, child?, Value.under, observeAll_toList]
  | @array xs elements =>
    rw [observe_array elements, child?_arrayNode, get?_gather_elementFields]
    rfl

theorem child?_observeAll {values : List Value} (distinct : ∀ v ∈ values, v.NamesDistinct)
    (name : String) :
    ((observeAll values).bind fun s => s.child? name) =
      observeAll (values.flatMap (Value.under name)) := by
  induction values using List.reverseRecOn with
  | nil => rfl
  | append_singleton values v ih =>
    obtain ⟨before, last⟩ := List.forall_mem_append.mp distinct
    have own : observeAll [v] = some (observe v) := rfl
    rw [List.flatMap_append, List.flatMap_singleton, observeAll_append, observeAll_append, ← ih before,
      ← child?_observe (last v List.mem_cons_self), own]
    cases observeAll values <;> simp [child?_join]

/-- What is seen at the end of a path is what stands there, observed together. -/
theorem at?_observeAll {values : List Value} (distinct : ∀ v ∈ values, v.NamesDistinct)
    (path : List String) :
    ((observeAll values).bind fun s => s.at? path) = observeAll (reached values path) := by
  induction path generalizing values with
  | nil => simp [at?, reached]
  | cons name path ih =>
    rw [reached, List.foldl_cons, ← reached, ← ih (namesDistinct_flatMap_under distinct name),
      ← child?_observeAll distinct, Option.bind_assoc]
    simp only [at?]

end Schema

theorem namesDistinct_reached {values : List Value} (distinct : ∀ v ∈ values, v.NamesDistinct)
    (path : List String) : ∀ v ∈ reached values path, v.NamesDistinct := by
  induction path generalizing values with
  | nil => exact distinct
  | cons name path ih => exact ih (namesDistinct_flatMap_under distinct name)

open Schema

namespace Forest

theorem at?_build {documents : List Value} (distinct : ∀ d ∈ documents, d.NamesDistinct)
    (key : String) (path : List String) :
    (build documents).at? (key :: path) = observeAll (found documents key path) := by
  rw [at?, get?_build distinct, at?_observeAll (namesDistinct_filterMap_field distinct key), found]

theorem names_build {documents : List Value} (distinct : ∀ d ∈ documents, d.NamesDistinct) :
    Fields.names (build documents) = (documents.flatMap Value.memberNames).eraseDups := by
  rw [build_eq_gather distinct, names_gather_elementFields distinct]

/-- A forest is what its documents tell when all that they have at a place is collected first: it has
a schema at just the places where they have values, and that one tells what these tell together. -/
theorem build_collects (documents : List Value) (distinct : ∀ d ∈ documents, d.NamesDistinct) :
    Fields.names (build documents) = (documents.flatMap Value.memberNames).eraseDups ∧
      ∀ key path,
        (((build documents).at? (key :: path)).isSome ↔ found documents key path ≠ []) ∧
        ∀ s, (build documents).at? (key :: path) = some s → s.Collects (found documents key path) := by
  refine ⟨names_build distinct, fun key path => ?_⟩
  have inFound := namesDistinct_reached (namesDistinct_filterMap_field distinct key) path
  rw [at?_build distinct]
  exact ⟨observeAll_isSome, fun s seen => collects_observeAll inFound seen⟩

/-- A document with an array, one with an object and one that has no keys: what stands under
`Items.id` is collected from the first two. -/
theorem build_collects_mixed :
    let documents : List Value :=
      [.object [("Items", .array [.number (.integer 1), .object [("id", .string "a")], .array []])],
        .object [("Items", .object [("id", .string "b")])], .number (.integer 3)]
    (∀ d ∈ documents, d.NamesDistinct) ∧
      Fields.names (build documents) = ["Items"] ∧
      ∃ s, (build documents).at? ["Items", "id"] = some s ∧ s.Collects [.string "a", .string "b"] := by
  intro documents
  have distinct : ∀ d ∈ documents, d.NamesDistinct := by
    simp [documents, Value.namesDistinct_object, Value.namesDistinct_array, Value.NamesDistinct.string,
      Value.NamesDistinct.number]
  obtain ⟨names, nodes⟩ := build_collects documents distinct
  obtain ⟨present, collects⟩ := nodes "Items" ["id"]
  have values : found documents "Items" ["id"] = [.string "a", .string "b"] := rfl
  obtain ⟨s, atPath⟩ := Option.isSome_iff_exists.mp (present.mpr (by simp [values]))
  exact ⟨distinct, names, s, atPath, values ▸ collects s atPath⟩

end Forest

end JsonAssist
