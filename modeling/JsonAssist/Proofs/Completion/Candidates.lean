import Mathlib.Data.List.Basic
import JsonAssist.Completion.Plan
import JsonAssist.Proofs.Json.Fields

namespace JsonAssist.Completion

/-- Dropping repeats loses no text of a literal. -/
theorem mem_labels_dropRepeats {entries : List (String × JsonType)} {label : String} :
    label ∈ (dropRepeats entries).map Prod.fst ↔ label ∈ entries.map Prod.fst := by
  fun_induction dropRepeats entries with
  | case1 a b rest same ih =>
    rw [ih]
    simp [same]
  | case2 a b rest different ih =>
    rw [List.map_cons, List.mem_cons, ih]
    simp
  | case3 => rfl

theorem mem_labels_literals {values : List Value} {label : String} :
    label ∈ (literals values).map Prod.fst ↔ ∃ v ∈ values, v.compact = label := by
  rw [literals, mem_labels_dropRepeats, ((List.mergeSort_perm _ _).map Prod.fst).mem_iff, List.map_map,
    List.mem_map]
  rfl

theorem kind_of_mem_valueCandidates {values : List Value} {replace : Option (Nat × Nat)} {c : Candidate}
    (member : c ∈ valueCandidates values replace) : c.kind = .value := by
  obtain ⟨entry, _, rfl⟩ := List.mem_map.mp member
  rfl

theorem labels_valueCandidates (values : List Value) (replace : Option (Nat × Nat)) :
    (valueCandidates values replace).map Candidate.label = (literals values).map Prod.fst := by
  conv_rhs => rw [← List.zipIdx_map_fst 0 (literals values), List.map_map]
  rw [valueCandidates, List.map_map]
  rfl

/-- The literals that are offered are those known, in their text. -/
theorem mem_labels_valueCandidates {values : List Value} {replace : Option (Nat × Nat)} {label : String} :
    label ∈ (valueCandidates values replace).map Candidate.label ↔ ∃ v ∈ values, v.compact = label := by
  rw [labels_valueCandidates, mem_labels_literals]

theorem exists_propertyCandidate {properties : Fields Schema} {taken : List String}
    {replace : Option (Nat × Nat)} {name : String} (known : name ∈ Fields.names properties)
    (free : name ∉ taken) :
    ∃ c ∈ propertyCandidates properties taken replace, c.kind = .property ∧ c.label = name := by
  obtain ⟨entry, member, rfl⟩ := List.mem_map.mp known
  exact ⟨_, List.mem_map.mpr ⟨entry, List.mem_filter.mpr ⟨member, by simpa using free⟩, rfl⟩, rfl, rfl⟩

theorem plan_of_values {forest : Forest} {context : Cursor.Context} {values : List Value}
    (known : (forest.resolve context.path).values = some values) (notEmpty : values ≠ []) :
    plan forest context = valueCandidates values context.replace := by
  obtain ⟨v, vs, rfl⟩ := List.exists_cons_of_ne_nil notEmpty
  simp [plan, known]

/-- Where no literals are known and a property is being named, the properties are offered. -/
theorem plan_of_no_values {forest : Forest} {context : Cursor.Context}
    (none : (forest.resolve context.path).values.getD [] = []) (slot : context.slot = .property) :
    plan forest context =
      propertyCandidates ((forest.resolve context.path).properties.getD []) context.existing context.replace := by
  rw [plan, slot]
  cases known : (forest.resolve context.path).values with
  | none => cases (forest.resolve context.path).properties <;> rfl
  | some values =>
    obtain rfl : values = [] := by simpa [known] using none
    cases (forest.resolve context.path).properties <;> rfl

theorem plan_of_properties {forest : Forest} {context : Cursor.Context} {properties : Fields Schema}
    (none : (forest.resolve context.path).values = none)
    (known : (forest.resolve context.path).properties = some properties) (slot : context.slot = .property) :
    plan forest context = propertyCandidates properties context.existing context.replace := by
  rw [plan_of_no_values (none ▸ rfl) slot, known, Option.getD_some]

theorem labels_propertyCandidates (properties : Fields Schema) (taken : List String)
    (replace : Option (Nat × Nat)) :
    (propertyCandidates properties taken replace).map Candidate.label =
      (Fields.names properties).filter (· ∉ taken) := by
  rw [propertyCandidates, List.map_map, Fields.names, List.filter_map]
  rfl

theorem kind_of_mem_propertyCandidates {properties : Fields Schema} {taken : List String}
    {replace : Option (Nat × Nat)} {c : Candidate} (member : c ∈ propertyCandidates properties taken replace) :
    c.kind = .property := by
  obtain ⟨entry, _, rfl⟩ := List.mem_map.mp member
  rfl

end JsonAssist.Completion
