import Mathlib.Logic.Basic
import JsonAssist.Proofs.Schema.Observe

namespace JsonAssist

/-- The field of a name, if the value is an object that has it. -/
def Value.field? (name : String) : Value → Option Value
  | .object ms => Fields.get? ms name
  | _ => none

namespace Schema

/-- The schema reached by going down through fields. -/
def at? : Schema → List String → Option Schema
  | s, [] => some s
  | s, name :: path => (s.child? name).bind fun t => at? t path

/-- What a list of values tells about the one location at which all of them stand. -/
def observeAll (values : List Value) : Option Schema :=
  gather join (values.map fun v => some (observe v))

theorem observeAll_append (left right : List Value) :
    observeAll (left ++ right) = joinOptions join (observeAll left) (observeAll right) := by
  rw [observeAll, List.map_append, gather_append join_assoc]
  rfl

theorem observeAll_toList (value : Option Value) : observeAll value.toList = value.map observe := by
  cases value <;> rfl

theorem observeAll_isSome {values : List Value} : (observeAll values).isSome ↔ values ≠ [] := by
  cases values <;> simp [observeAll, gather_isSome]

theorem observeAll_eq_none {values : List Value} : observeAll values = none ↔ values = [] := by
  rw [← Option.not_isSome_iff_eq_none, observeAll_isSome, not_not]

theorem observeAll_filterMap (find : Value → Option Value) (values : List Value) :
    gather join (values.map fun v => (find v).map observe) = observeAll (values.filterMap find) := by
  induction values using List.reverseRecOn with
  | nil => rfl
  | append_singleton values v ih =>
    have own : [v].filterMap find = (find v).toList := by
      cases present : find v <;> simp [present]
    rw [List.map_append, List.map_singleton, gather_concat, ih, List.filterMap_append,
      observeAll_append, own, observeAll_toList]

/-- A field that objects add together is what they have under its name, observed together. -/
theorem get?_gather_elementFields (xs : List Value) (name : String) :
    ((gather joinFields (xs.map elementFields)).bind fun fs => Fields.get? fs name) =
      observeAll (xs.filterMap (Value.field? name)) := by
  have joined (a b : Option (Fields Schema)) :
      ((joinOptions joinFields a b).bind fun fs => Fields.get? fs name) =
        joinOptions join (a.bind fun fs => Fields.get? fs name) (b.bind fun fs => Fields.get? fs name) := by
    cases a <;> cases b <;> simp [get?_joinFields]
  have own (x : Value) :
      ((elementFields x).bind fun fs => Fields.get? fs name) = (x.field? name).map observe := by
    cases x <;> simp [elementFields, Value.field?]
  rw [map_gather (fun fields => fields.bind fun fs => Fields.get? fs name) rfl joined, List.map_map]
  simp only [Function.comp_def, own]
  exact observeAll_filterMap (Value.field? name) xs

end Schema

open Schema

namespace Forest

/-- The schema at a place of a forest; the forest itself is no schema. -/
def at? (forest : Forest) : List String → Option Schema
  | [] => none
  | name :: path => (Fields.get? forest name).bind fun s => s.at? path

theorem add_eq_joinFields {forest : Forest} {d : Value} (known : (Fields.names forest).Nodup)
    (new : d.NamesDistinct) : forest.add d = joinFields forest ((elementFields d).getD []) := by
  cases new with
  | object names _ => exact mergeMembers_eq_joinFields known names
  | _ => exact (joinFields_nil_right forest).symm

/-- A forest has the fields that its documents would add to an array. -/
theorem build_eq_gather {documents : List Value} (distinct : ∀ d ∈ documents, d.NamesDistinct) :
    build documents = (gather joinFields (documents.map elementFields)).getD [] := by
  induction documents using List.reverseRecOn with
  | nil => rfl
  | append_singleton documents d ih =>
    obtain ⟨before, last⟩ := List.forall_mem_append.mp distinct
    have known : (Fields.names (build documents)).Nodup := by
      rw [ih before]
      cases joined : gather joinFields (documents.map elementFields) with
      | none => exact List.nodup_nil
      | some fs =>
        exact (fieldsDistinct_gather_of (fun x member => observe_namesDistinct (before x member))
          fs joined).names
    rw [List.map_append, List.map_singleton, gather_concat, getD_joinOptions_joinFields, ← ih before,
      ← add_eq_joinFields known (last d List.mem_cons_self), build, List.foldl_append]
    rfl

theorem fieldsDistinct_build {documents : List Value}
    (distinct : ∀ d ∈ documents, d.NamesDistinct) : FieldsDistinct (build documents) := by
  rw [build_eq_gather distinct]
  cases joined : gather joinFields (documents.map elementFields) with
  | none => exact ⟨List.nodup_nil, by simp⟩
  | some fs =>
    exact fieldsDistinct_gather_of (fun x member => observe_namesDistinct (distinct x member)) fs joined

/-- The forest of two corpora is the key union of theirs. -/
theorem build_append_eq {left right : List Value} (inLeft : ∀ d ∈ left, d.NamesDistinct)
    (inRight : ∀ d ∈ right, d.NamesDistinct) :
    build (left ++ right) = joinFields (build left) (build right) := by
  rw [build_eq_gather (List.forall_mem_append.mpr ⟨inLeft, inRight⟩), List.map_append,
    gather_append joinFields_assoc, getD_joinOptions_joinFields, build_eq_gather inLeft,
    build_eq_gather inRight]

/-- Adding a document that is in the corpus already changes nothing. -/
theorem build_concat_of_mem {documents : List Value} {d : Value}
    (distinct : ∀ d ∈ documents, d.NamesDistinct) (known : d ∈ documents) :
    build (documents ++ [d]) = build documents := by
  obtain ⟨before, after, rfl⟩ := List.append_of_mem known
  obtain ⟨inBefore, inRest⟩ := List.forall_mem_append.mp distinct
  obtain ⟨own, inAfter⟩ := List.forall_mem_cons.mp inRest
  have single : ∀ e ∈ [d], e.NamesDistinct := List.forall_mem_singleton.mpr own
  -- with the document in front of what follows it, the second copy is absorbed from the left
  have once : build (d :: after) = joinFields (build [d]) (build after) :=
    build_append_eq single inAfter
  have twice : build (d :: after ++ [d]) = build (d :: after) := by
    rw [build_append_eq inRest single, once]
    exact (fieldsDistinct_build single).joinFields_left (build after)
  rw [List.append_assoc, build_append_eq inBefore (List.forall_mem_append.mpr ⟨inRest, single⟩), twice,
    ← build_append_eq inBefore inRest]

theorem build_append_of_subset {documents again : List Value}
    (distinct : ∀ d ∈ documents, d.NamesDistinct) (known : ∀ d ∈ again, d ∈ documents) :
    build (documents ++ again) = build documents := by
  induction again using List.reverseRecOn with
  | nil => rw [List.append_nil]
  | append_singleton again d ih =>
    obtain ⟨before, last⟩ := List.forall_mem_append.mp known
    have inBoth : ∀ e ∈ documents ++ again, e.NamesDistinct :=
      List.forall_mem_append.mpr ⟨distinct, fun e member => distinct e (before e member)⟩
    rw [← List.append_assoc, build_concat_of_mem inBoth
      (List.mem_append_left again (last d List.mem_cons_self)), ih before]

/-- Under a key the forest has what the documents have there, observed together. -/
theorem get?_build {documents : List Value} (distinct : ∀ d ∈ documents, d.NamesDistinct)
    (key : String) :
    Fields.get? (build documents) key = observeAll (documents.filterMap (Value.field? key)) := by
  rw [build_eq_gather distinct, ← get?_gather_elementFields]
  cases gather joinFields (documents.map elementFields) <;> rfl

end Forest

end JsonAssist
