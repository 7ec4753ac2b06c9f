import JsonAssist.Proofs.Schema.Observe
import JsonAssist.Proofs.Schema.WrittenForest

namespace JsonAssist

/-- What has been read of the parts has properties: the children all together, and each value. -/
structure Schema.Parts.Hold (P : Fields Schema → Prop) (Q : Value → Prop) (parts : Schema.Parts) : Prop where
  children : ∀ fields, parts.children.join = some fields → P fields
  values : ∀ known, parts.values.join = some known → ∀ v ∈ known, Q v

theorem Schema.Parts.hold_start {P : Fields Schema → Prop} {Q : Value → Prop} : Schema.Parts.start.Hold P Q :=
  ⟨nofun, nofun⟩

theorem Schema.Parts.Hold.namesDistinct {parts : Schema.Parts}
    (distinct : parts.Hold FieldsDistinct Value.NamesDistinct) (type : JsonType) :
    (parts.toSchema type).NamesDistinct :=
  .node (fun fields known => (distinct.children fields known).names)
    (fun fields known => (distinct.children fields known).below) distinct.values

namespace Reader

section Forms

variable {α : Type} {P : α → Prop} {depth : Nat}

theorem yields_wrongType (expected : String) : (wrongType expected : Reader α).Yields P := by
  refine yields_bind fun next => ?_
  cases next with
  | none => exact yields_fail _
  | some c =>
    dsimp only
    split
    · exact yields_bind fun _ => yields_bind fun _ => yields_fail _
    split
    · exact yields_bind fun _ => yields_bind fun _ => yields_fail _
    split
    · exact yields_bind fun _ => yields_bind fun _ => yields_fail _
    split
    · split
      · refine yields_bind fun _ => yields_bind fun n => ?_
        cases n <;> exact yields_fail _
      · refine yields_bind fun n => ?_
        cases n <;> exact yields_fail _
    split
    · exact yields_bind fun _ => yields_fail _
    split
    · exact yields_fail _
    split
    · exact yields_fail _
    · exact yields_failPast _

theorem Yields.mono {r : Reader α} {Q : α → Prop} (own : r.Yields P) (weaker : ∀ x, P x → Q x) : r.Yields Q :=
  fun s x rest read => weaker x (own s x rest read)

theorem yields_failAfterObject (cause : Cause) : (failAfterObject cause : Reader α).Yields P :=
  yields_bind fun _ => yields_fail _

theorem yields_optional {r : Reader α} (own : r.Yields P) :
    (optional r).Yields fun found => ∀ x, found = some x → P x := by
  refine yields_bind fun next => ?_
  split
  · exact yields_bind fun _ => yields_bind fun _ => yields_pure nofun
  · exact own.map fun x holds y same => Option.some.inj same ▸ holds

theorem yields_nested {r : Nat → Reader α} (own : ∀ inner, depth = inner + 1 → (r inner).Yields P) :
    (nested depth r).Yields P := by
  cases depth with
  | zero => exact yields_failPast _
  | succ inner => exact own inner rfl

theorem yields_listOnly {item : Nat → Reader α} (own : ∀ inner, depth = inner + 1 → (item inner).Yields P) :
    (listOnly depth item).Yields fun xs => ∀ x ∈ xs, P x := by
  refine yields_bind fun next => ?_
  split
  · exact yields_nested fun inner same => yields_list (own inner same)
  · exact yields_wrongType _

theorem yields_fieldsOnly {item : Nat → Reader α} (own : ∀ inner, depth = inner + 1 → (item inner).Yields P) :
    (fieldsOnly depth item).Yields fun entries =>
      (Fields.names entries).Nodup ∧ ∀ entry ∈ entries, P entry.2 := by
  refine yields_bind fun next => ?_
  split
  · exact yields_nested fun inner same => yields_fields (own inner same)
  · exact yields_wrongType _

theorem yields_memberValue {r : Reader α} (own : r.Yields P) (name : String) : (memberValue name r).Yields P :=
  yields_bind fun _ => own.within _

end Forms

section Schemas

open Schema

variable {P : Fields Schema → Prop} {Q : Value → Prop} {R : Schema → Prop}
  {types : Reader JsonType} {children : Reader (Option (Fields Schema))} {values : Reader (Option (List Value))}

theorem yields_schemaMember (ofChildren : children.Yields fun c => ∀ fields, c = some fields → P fields)
    (ofValues : values.Yields fun v => ∀ known, v = some known → ∀ x ∈ known, Q x)
    {parts : Parts} (hold : parts.Hold P Q) (name : String) :
    (schemaMember types children values parts name).Yields (Parts.Hold P Q) := by
  unfold schemaMember
  split
  · split
    · exact yields_failAfterObject _
    · exact yields_bind fun _ => yields_pure ⟨hold.children, hold.values⟩
  split
  · split
    · exact yields_failAfterObject _
    · exact (yields_memberValue ofChildren name).bind fun c holds => yields_pure ⟨holds, hold.values⟩
  split
  · split
    · exact yields_failAfterObject _
    · exact (yields_memberValue ofValues name).bind fun v holds => yields_pure ⟨hold.children, holds⟩
  · exact yields_bind fun _ => yields_pure hold

theorem yields_schemaList (whole : ∀ {parts : Parts}, parts.Hold P Q → ∀ type, R (parts.toSchema type))
    (ofChildren : children.Yields fun c => ∀ fields, c = some fields → P fields)
    (ofValues : values.Yields fun v => ∀ known, v = some known → ∀ x ∈ known, Q x) :
    (schemaList types children values).Yields R := by
  have closing (type : JsonType) {parts : Parts} (hold : parts.Hold P Q) :
      Yields (do closeList; pure (parts.toSchema type)) R :=
    yields_bind fun _ => yields_pure (whole hold type)
  have start : Parts.start.Hold P Q := Parts.hold_start
  refine yields_bind fun _ => yields_bind fun more => ?_
  split
  · refine yields_bind fun type => yields_bind fun more => ?_
    dsimp only
    split
    · refine (ofChildren.within _).bind fun c children => yields_bind fun more => ?_
      split
      · refine (ofValues.within _).bind fun v values => ?_
        exact closing type ⟨children, values⟩
      · exact closing type ⟨children, start.values⟩
    · exact closing type start
  · exact yields_bind fun _ => yields_fail _

theorem yields_schemaWith (whole : ∀ {parts : Parts}, parts.Hold P Q → ∀ type, R (parts.toSchema type))
    {fields : Reader (Fields Schema)} (own : fields.Yields P) {depth : Nat}
    (ofValue : ∀ inner, depth = inner + 1 → (value inner).Yields Q) :
    (schema.schemaWith depth fields).Yields R := by
  have ofChildren := yields_optional own
  have ofList : (listOnly depth value).Yields _ := yields_listOnly ofValue
  have ofValues := yields_optional ofList
  refine yields_bind fun next => ?_
  split
  · exact yields_schemaList whole ofChildren ofValues
  · refine yields_bind fun _ => yields_bind fun left => ?_
    refine (yields_membersFrom (fun _ name hold => yields_schemaMember ofChildren ofValues hold name) _ true
      Parts.hold_start).bind fun parts hold => ?_
    split
    · exact yields_bind fun _ => yields_pure (whole hold _)
    · exact yields_failAfterObject _
  · exact yields_wrongType _

/-- A schema that is read has a property if all its parts have it, as its fields are read at less depth. -/
theorem yields_schema_of (whole : ∀ {parts : Parts}, parts.Hold P Q → ∀ type, R (parts.toSchema type))
    (together : ∀ {fields}, (Fields.names fields).Nodup → (∀ entry ∈ fields, R entry.2) → P fields) {limit : Nat}
    (ofValue : ∀ inner < limit, (value inner).Yields Q) (depth : Nat) (within : depth ≤ limit) :
    (schema depth).Yields R := by
  induction depth using Nat.strongRecOn with
  | ind depth ih =>
    cases depth with
    | zero =>
      refine yields_bind fun next => ?_
      split
      · exact yields_failPast _
      · exact yields_failPast _
      · exact yields_wrongType _
    | succ depth =>
      rw [schema_succ]
      have ofFields : (fieldsOnly depth schema).Yields P :=
        (yields_fieldsOnly fun inner same => ih inner (by omega) (by omega)).mono fun _ ⟨names, below⟩ =>
          together names below
      exact yields_schemaWith whole ofFields fun inner same => ofValue inner (by omega)

/-- A schema that is read writes no name twice. -/
theorem yields_schema (depth : Nat) : (schema depth).Yields Schema.NamesDistinct :=
  yields_schema_of Parts.Hold.namesDistinct FieldsDistinct.mk (fun inner _ => yields_value inner) depth (Nat.le_refl _)

theorem yields_schemas {depth : Nat} (own : ∀ inner, inner < depth → (schema inner).Yields Schema.NamesDistinct) :
    (fieldsOnly depth schema).Yields FieldsDistinct :=
  (yields_fieldsOnly fun inner same => own inner (by omega)).mono fun _ ⟨names, below⟩ => ⟨names, below⟩

end Schemas

end Reader

namespace Schema

theorem namesDistinct_of_load {text : String} {s : Schema} (loaded : load text = .ok s) : s.NamesDistinct :=
  (Reader.yields_schema _).of_load loaded

/-- Joining is associative, and a schema that knows nothing is its unit. Of schemas that write no name
twice it is idempotent, and what one of two schemas tells already adds nothing to their join. All that
holds in every order of fields and values. Such are the schemas that are loaded, those observed of values
that are loaded, and the joins of such. -/
theorem join_left_regular_band (s t u : Schema) :
    (s.join t).join u = s.join (t.join u) ∧
      s.join (.node .null none none) = s ∧ (node .null none none).join s = s ∧
      (s.NamesDistinct → t.NamesDistinct →
        s.join s = s ∧ (s.join t).join t = s.join t ∧ (s.join t).join s = s.join t ∧ (s.join t).NamesDistinct) ∧
      (∀ text, load text = .ok s → s.NamesDistinct) ∧
      ∀ text v, Value.load text = .ok v → (observe v).NamesDistinct := by
  refine ⟨join_assoc s t u, join_unknown s, unknown_join s, fun left right => ?_, fun _ => namesDistinct_of_load,
    fun _ _ loaded => observe_namesDistinct (Value.namesDistinct_of_load loaded)⟩
  have again : (s.join t).join t = s.join t := by rw [join_assoc, right.join_self]
  exact ⟨left.join_self, again, left.join_join_left t, left.join right⟩

/-- Of equal literals the first one stays: here the zero without a sign. -/
theorem join_left_regular_band_of_zeros :
    let zero (negative : Bool) : Value := .number (.real (.zero negative))
    let s : Schema := .node .number none (some [zero false, zero true])
    let t : Schema := .node .object (some [("a", .node .null none none)]) (some [zero true, .string "x"])
    let u : Schema := .node .array (some [("b", .node .null none none), ("a", s)]) none
    let joined : Schema := .node .object (some [("a", s), ("b", .node .null none none)])
      (some [zero false, zero true, .string "x"])
    s.NamesDistinct ∧ t.NamesDistinct ∧ (s.join t).join u = joined ∧ s.join (t.join u) = joined ∧
      s.join s = s ∧ (s.join t).join t = s.join t ∧ (s.join t).join s = s.join t := by
  intro zero s t u joined
  have left : s.NamesDistinct := by
    simp [s, zero, namesDistinct_node, Value.NamesDistinct.number]
  have right : t.NamesDistinct := by
    simp [t, zero, namesDistinct_node, Value.NamesDistinct.number, Value.NamesDistinct.string]
  obtain ⟨assoc, _, _, absorbs, _, _⟩ := join_left_regular_band s t u
  obtain ⟨self, again, back, _⟩ := absorbs left right
  exact ⟨left, right, rfl, assoc.symm, self, again, back⟩

end Schema

theorem Forest.fieldsDistinct_of_load {text : String} {forest : Forest} (loaded : Forest.load text = .ok forest) :
    Schema.FieldsDistinct forest := (Reader.yields_schemas fun inner _ => Reader.yields_schema inner).of_load loaded

end JsonAssist
