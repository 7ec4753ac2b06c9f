import JsonAssist.Proofs.Schema.Join

namespace JsonAssist.Schema

/-- No schema below this one has two fields of one name, and no value it knows writes a name twice. -/
inductive NamesDistinct : Schema → Prop
  | node {t : JsonType} {c : Option (Fields Schema)} {v : Option (List Value)}
      (names : ∀ fields, c = some fields → (Fields.names fields).Nodup)
      (below : ∀ fields, c = some fields → ∀ entry ∈ fields, NamesDistinct entry.2)
      (values : ∀ known, v = some known → ∀ value ∈ known, value.NamesDistinct) :
      NamesDistinct (.node t c v)

theorem namesDistinct_node {t : JsonType} {c : Option (Fields Schema)} {v : Option (List Value)} :
    (node t c v).NamesDistinct ↔ (∀ fields, c = some fields → (Fields.names fields).Nodup) ∧
      (∀ fields, c = some fields → ∀ entry ∈ fields, entry.2.NamesDistinct) ∧
        ∀ known, v = some known → ∀ value ∈ known, value.NamesDistinct :=
  ⟨fun | .node names below values => ⟨names, below, values⟩, fun ⟨names, below, values⟩ => .node names below values⟩

/-- A schema that knows nothing changes nothing. -/
theorem join_unknown (s : Schema) : s.join (.node .null none none) = s :=
  ext (by simp) (by simp) (by simp)

theorem unknown_join (s : Schema) : (node .null none none).join s = s :=
  ext (by simp) (by simp) (by simp)

theorem joinFields_joinFields_left_of {a : Fields Schema} (names : (Fields.names a).Nodup)
    (absorb : ∀ entry ∈ a, ∀ t, (entry.2.join t).join entry.2 = entry.2.join t) (b : Fields Schema) :
    joinFields (joinFields a b) a = joinFields a b := by
  have none_new : (a.filter fun entry => entry.1 ∉ Fields.names (joinFields a b)) = [] := by
    refine List.filter_eq_nil_iff.mpr fun entry member => ?_
    simp [mem_names_joinFields, Fields.mem_names_of_mem member]
  rw [joinFields.eq_def (joinFields a b) a, none_new, List.append_nil, joinFields, List.map_append,
    List.map_map]
  refine congrArg₂ (· ++ ·) (List.map_congr_left fun entry member => ?_) ?_
  · have again : entry.2.join entry.2 = entry.2 := by
      simpa only [join_unknown] using absorb entry member (.node .null none none)
    simp only [Function.comp_apply, joinAt, Fields.get?_of_mem names member, Option.elim_some]
    cases Fields.get? b entry.1 <;> simp [absorb entry member, again]
  · refine (List.map_congr_left fun entry member => ?_).trans (List.map_id _)
    have fresh : entry.1 ∉ Fields.names a := by simpa using (List.mem_filter.mp member).2
    simp [joinAt, Fields.get?_eq_none.mpr fresh]

/-- What is known already adds nothing again, not even in another order. -/
theorem NamesDistinct.join_join_left {s : Schema} (distinct : s.NamesDistinct) (t : Schema) :
    (s.join t).join s = s.join t := by
  induction distinct generalizing t with
  | @node type children values names _ known ih =>
    refine ext ?_ ?_ ?_
    · simpa using JsonType.max_max_left ..
    · simp only [children_join]
      cases children with
      | none => simp
      | some fields =>
        have once := joinFields_joinFields_left_of (names fields rfl) (ih fields rfl)
        have twice : joinFields fields fields = fields := by simpa using once []
        cases t.children <;> simp [once, twice]
    · simp only [values_join]
      cases values with
      | none => simp
      | some own =>
        have once := fun b => joinValues_joinValues_left b (known own rfl)
        have twice : joinValues own own = own := once []
        cases t.values <;> simp [once, twice]

theorem NamesDistinct.join_self {s : Schema} (distinct : s.NamesDistinct) : s.join s = s := by
  simpa only [join_unknown] using distinct.join_join_left (.node .null none none)

theorem mem_joinValues {v : Value} {a b : List Value} (member : v ∈ joinValues a b) :
    v ∈ a ∨ v ∈ b := by
  induction b using List.reverseRecOn with
  | nil => exact Or.inl member
  | append_singleton b w ih =>
    rw [joinValues_concat, pushUnique] at member
    split at member
    · exact (ih member).imp_right (List.mem_append_left [w])
    · rcases List.mem_append.mp member with old | new
      · exact (ih old).imp_right (List.mem_append_left [w])
      · exact Or.inr (List.mem_append_right b new)

theorem mem_joinFields {entry : String × Schema} {a b : Fields Schema}
    (member : entry ∈ joinFields a b) :
    (∃ s, (entry.1, s) ∈ a ∧ entry.2 = joinAt b entry.1 s) ∨ entry ∈ b := by
  rcases List.mem_append.mp member with old | new
  · obtain ⟨shared, inLeft, rfl⟩ := List.mem_map.mp old
    exact Or.inl ⟨shared.2, inLeft, rfl⟩
  · exact Or.inr (List.mem_filter.mp new).1

theorem NamesDistinct.join {s t : Schema} (left : s.NamesDistinct) (right : t.NamesDistinct) :
    (s.join t).NamesDistinct := by
  induction left generalizing t with
  | @node type children values names below known ih =>
    cases right with
    | @node type' children' values' names' below' known' =>
      rw [Schema.join, joinChildren_eq]
      refine .node ?_ ?_ ?_
      · exact joinOptions_forall names names' fun a b inLeft inRight =>
          nodup_names_joinFields (names a inLeft) (names' b inRight)
      · refine joinOptions_forall below below' fun a b inLeft inRight entry member => ?_
        rcases mem_joinFields member with ⟨s, shared, joined⟩ | new
        · rw [joined, joinAt]
          cases found : Fields.get? b entry.1 with
          | none => exact below a inLeft _ shared
          | some t => exact ih a inLeft _ shared (below' b inRight _ (Fields.mem_of_get? found))
        · exact below' b inRight entry new
      · exact joinOptions_forall known known' fun a b inLeft inRight value member =>
          (mem_joinValues member).elim (known a inLeft value) (known' b inRight value)

/-- Fields of different names, in all of which no name is written twice. -/
structure FieldsDistinct (fields : Fields Schema) : Prop where
  names : (Fields.names fields).Nodup
  below : ∀ entry ∈ fields, entry.2.NamesDistinct

theorem NamesDistinct.fields {s : Schema} (distinct : s.NamesDistinct) {fields : Fields Schema}
    (known : s.children = some fields) : FieldsDistinct fields := by
  cases distinct with
  | node names below _ => exact ⟨names fields known, below fields known⟩

theorem FieldsDistinct.join {a b : Fields Schema} (left : FieldsDistinct a)
    (right : FieldsDistinct b) : FieldsDistinct (joinFields a b) where
  names := nodup_names_joinFields left.names right.names
  below entry member := by
    rcases mem_joinFields member with ⟨s, shared, joined⟩ | new
    · rw [joined, joinAt]
      cases found : Fields.get? b entry.1 with
      | none => exact left.below _ shared
      | some t => exact (left.below _ shared).join (right.below _ (Fields.mem_of_get? found))
    · exact right.below entry new

theorem FieldsDistinct.joinFields_left {a : Fields Schema} (distinct : FieldsDistinct a)
    (b : Fields Schema) : joinFields (joinFields a b) a = joinFields a b :=
  joinFields_joinFields_left_of distinct.names
    (fun entry member => (distinct.below entry member).join_join_left) b

end JsonAssist.Schema
