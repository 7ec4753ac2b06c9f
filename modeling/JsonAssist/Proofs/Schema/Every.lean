import JsonAssist.Proofs.Json.Held
import JsonAssist.Proofs.Schema.Forest
import JsonAssist.Proofs.Schema.Loaded

namespace JsonAssist

namespace Schema

/-- Every value that is known in the schema or below it has a property. -/
inductive Every (P : Value → Prop) : Schema → Prop
  | node {type : JsonType} {children : Option (Fields Schema)} {values : Option (List Value)}
      (below : ∀ fields, children = some fields → ∀ entry ∈ fields, Every P entry.2)
      (own : ∀ known, values = some known → ∀ v ∈ known, P v) : Every P (.node type children values)

/-- Every value that is known in the fields has a property. -/
def FieldsEvery (P : Value → Prop) (fields : Fields Schema) : Prop := ∀ entry ∈ fields, entry.2.Every P

section Joined

variable {P : Value → Prop} {s t : Schema}

theorem Every.of_children (every : s.Every P) {fields : Fields Schema} (children : s.children = some fields) :
    FieldsEvery P fields := by
  cases every with
  | node below _ => exact below fields children

theorem Every.of_values (every : s.Every P) {known : List Value} (values : s.values = some known) :
    ∀ v ∈ known, P v := by
  cases every with
  | node _ own => exact own known values

theorem fieldsEvery_joinFields_of {a b : Fields Schema}
    (join : ∀ entry ∈ a, ∀ {t : Schema}, t.Every P → (entry.2.join t).Every P)
    (left : FieldsEvery P a) (right : FieldsEvery P b) : FieldsEvery P (joinFields a b) := by
  intro entry member
  rcases mem_joinFields member with ⟨s, shared, joined⟩ | new
  · rw [joined, joinAt]
    cases found : Fields.get? b entry.1 with
    | none => exact left _ shared
    | some t => exact join _ shared (right _ (Fields.mem_of_get? found))
  · exact right entry new

/-- Joined schemas know no more values than they did. -/
theorem Every.join (left : s.Every P) (right : t.Every P) : (s.join t).Every P := by
  induction left generalizing t with
  | @node type children values below own ih =>
    cases right with
    | @node type' children' values' below' own' =>
      rw [Schema.join, joinChildren_eq]
      refine .node ?_ ?_
      · exact joinOptions_forall below below' fun a b inLeft inRight =>
          fieldsEvery_joinFields_of (fun entry member => ih a inLeft entry member) (below a inLeft) (below' b inRight)
      · exact joinOptions_forall own own' fun a b inLeft inRight v member =>
          (mem_joinValues member).elim (own a inLeft v) (own' b inRight v)

theorem FieldsEvery.join {a b : Fields Schema} (left : FieldsEvery P a) (right : FieldsEvery P b) :
    FieldsEvery P (joinFields a b) :=
  fieldsEvery_joinFields_of (fun entry member => (left entry member).join) left right

end Joined

section Observed

variable {P : Value → Prop}

theorem fieldsEvery_gather {xs : List Value} (own : ∀ x ∈ xs, (observe x).Every P) :
    ∀ fields, gather joinFields (xs.map elementFields) = some fields → FieldsEvery P fields := by
  refine gather_forall (fun part member fields added => ?_) fun a b => FieldsEvery.join
  obtain ⟨x, inElements, rfl⟩ := List.mem_map.mp member
  exact (own x inElements).of_children (elementFields_eq_children added)

theorem every_scalar {type : JsonType} {v : Value} (own : P v) : (node type none (some [v])).Every P :=
  .node nofun fun _ same => Option.some.inj same ▸ List.forall_mem_singleton.mpr own

theorem every_arrayNode {fields : Option (Fields Schema)} {values : Option (List Value)}
    (below : ∀ fs, fields = some fs → FieldsEvery P fs) (own : ∀ vs, values = some vs → ∀ v ∈ vs, P v) :
    (arrayNode fields values).Every P := by
  cases fields with
  | some fs => exact .node below own
  | none =>
    cases values with
    | some vs => exact .node nofun own
    | none => exact .node (fun _ same => Option.some.inj same ▸ nofun) nofun

/-- What is observed of a value that can be held knows only values that can be. -/
theorem every_observe {v : Value} (distinct : v.NamesDistinct) (held : v.Held) : (observe v).Every Value.Held := by
  induction distinct with
  | null => exact .node nofun nofun
  | boolean b => exact every_scalar held
  | number n => exact every_scalar held
  | string s => exact every_scalar held
  | @object ms names _ ih =>
    refine .node (fun fields observed => ?_) nofun
    obtain rfl := Option.some.inj observed
    rw [observeMembers_eq_map]
    exact List.forall_mem_map.mpr fun m member => ih m member (held.of_object member)
  | @array xs elements ih =>
    rw [observe_array elements]
    exact every_arrayNode (fieldsEvery_gather fun x member => ih x member (held.of_array member))
      fun vs joined v member => held.of_array (mem_gather_elementValues vs joined v member)

end Observed

theorem Parts.Hold.every {parts : Parts} {P : Value → Prop} (hold : parts.Hold (FieldsEvery P) P) (type : JsonType) :
    (parts.toSchema type).Every P := .node hold.children hold.values

end Schema

namespace Forest

open Schema

/-- The forests that the program comes by: built from documents that were loaded, or loaded themselves. -/
inductive Obtained : Forest → Prop
  | built {documents : List Value} (loaded : ∀ d ∈ documents, ∃ source, Value.load source = .ok d) :
      Obtained (build documents)
  | loaded {source : String} {forest : Forest} (read : load source = .ok forest) : Obtained forest

theorem every_build {documents : List Value} (held : ∀ d ∈ documents, d.Held) :
    FieldsEvery Value.Held (build documents) := by
  rw [build_eq_gather fun d member => (held d member).distinct]
  cases joined : gather joinFields (documents.map elementFields) with
  | none => exact nofun
  | some fields =>
    exact fieldsEvery_gather (fun d member => every_observe (held d member).distinct (held d member)) fields joined

theorem every_load {source : String} {forest : Forest} (read : load source = .ok forest) :
    FieldsEvery Value.Held forest := by
  have ofSchema (depth : Nat) (within : depth ≤ Reader.nestingLimit) :=
    Reader.yields_schema_of Parts.Hold.every (fun _ below => below)
      (fun inner less => Reader.yields_held (Nat.le_of_lt less)) depth within
  have ofFields := Reader.yields_fieldsOnly fun inner (same : Reader.nestingLimit = inner + 1) =>
    ofSchema inner (by omega)
  exact (ofFields.of_load read).2

/-- Every value that the program comes to know can be held. -/
theorem Obtained.every {forest : Forest} (obtained : Obtained forest) : FieldsEvery Value.Held forest := by
  cases obtained with
  | built loaded =>
    exact every_build fun d member =>
      have ⟨_, read⟩ := loaded d member
      Value.held_of_load read
  | loaded read => exact every_load read

end Forest

end JsonAssist
