import JsonAssist.Proofs.Schema.WellFormed

namespace JsonAssist

namespace Value

theorem isScalar_of_same {v w : Value} (scalar : v.isScalar) (equal : v.same w) : w.isScalar := by
  cases v <;> cases w <;> simp_all [isScalar, same]

theorem same_symm_of_isScalar {v w : Value} (scalar : v.isScalar) (equal : v.same w) : w.same v :=
  same_symm (namesDistinct_of_isScalar scalar) (namesDistinct_of_isScalar (isScalar_of_same scalar equal)) equal

/-- The same values in some order, up to equality. -/
def Reordered (left right : List Value) : Prop :=
  ∃ values : List Value, values.Perm left ∧ sameElements values right

/-- Who has an equal in a list keeps it when a value is taken out that is no equal. -/
theorem isIn_of_isIn_cons {u v : Value} {before after : List Value} (known : u.isIn (before ++ v :: after))
    (other : ¬v.same u) : u.isIn (before ++ after) := by
  obtain ⟨w, member, equal⟩ := isIn_iff.mp known
  refine isIn_iff.mpr ⟨w, ?_, equal⟩
  rcases List.mem_append.mp member with inBefore | inRest
  · exact List.mem_append_left after inBefore
  · rcases List.mem_cons.mp inRest with rfl | inAfter
    · exact absurd equal other
    · exact List.mem_append_right before inAfter

/-- Of literals that differ from one another it is enough that each list has an equal of what is in the other. -/
theorem reordered_of_isIn {left right : List Value} (scalars : ∀ v ∈ left, v.isScalar)
    (different : left.Pairwise fun v w => ¬v.same w) (different' : right.Pairwise fun v w => ¬v.same w)
    (toRight : ∀ v ∈ left, v.isIn right) (toLeft : ∀ v ∈ right, v.isIn left) : Reordered left right := by
  induction right generalizing left with
  | nil =>
    cases left with
    | nil => exact ⟨[], .nil, rfl⟩
    | cons v _ => exact absurd (toRight v List.mem_cons_self) Bool.false_ne_true
  | cons w right ih =>
    -- the equal of `w` is taken out on the left, and what is left there has its equals in the rest
    obtain ⟨v, member, equal⟩ := isIn_iff.mp (toLeft w List.mem_cons_self)
    obtain ⟨before, after, rfl⟩ := List.append_of_mem member
    have back := same_symm_of_isScalar (scalars v member) equal
    have fewer : (before ++ after).Sublist (before ++ v :: after) := (List.sublist_cons_self v after).append_left before
    obtain ⟨apartRight, different'⟩ := List.pairwise_cons.mp different'
    have apart : ∀ u ∈ before ++ after, ¬v.same u := by
      intro u inRest same
      obtain ⟨_, apartAfter, apartBefore⟩ := List.pairwise_append.mp different
      rcases List.mem_append.mp inRest with inBefore | inAfter
      · exact apartBefore u inBefore v List.mem_cons_self (same_symm_of_isScalar (scalars v member) same)
      · exact (List.pairwise_cons.mp apartAfter).1 u inAfter same
    obtain ⟨values, order, same⟩ := ih (fun u inRest => scalars u (fewer.subset inRest))
      (different.sublist fewer) different'
      (fun u inRest => @isIn_of_isIn_cons u w [] right (toRight u (fewer.subset inRest)) fun same =>
        apart u inRest (same_trans equal same))
      (fun u inRight => isIn_of_isIn_cons (toLeft u (List.mem_cons_of_mem w inRight)) fun same =>
        apartRight u inRight (same_trans back same))
    refine ⟨v :: values, (order.cons v).trans List.perm_middle.symm, ?_⟩
    simp only [sameElements, equal, same, Bool.and_self]

end Value

namespace Schema

/-- Schemas that differ in the order of fields and of values only, at every depth. -/
inductive Reordered : Schema → Schema → Prop
  | node {s t : Schema} (type : s.type = t.type) (children : s.children.isSome ↔ t.children.isSome)
      (names : (Fields.names (s.children.getD [])).Perm (Fields.names (t.children.getD [])))
      (fields : ∀ name u v, s.child? name = some u → t.child? name = some v → Reordered u v)
      (values : s.values.isSome ↔ t.values.isSome)
      (literals : Value.Reordered (s.values.getD []) (t.values.getD [])) : Reordered s t

section Reordered

variable {s t : Schema}

theorem NamesDistinct.nodup_names (distinct : s.NamesDistinct) : (Fields.names (s.children.getD [])).Nodup := by
  cases known : s.children with
  | none => exact List.nodup_nil
  | some fields => exact (distinct.fields known).names

theorem WellFormed.child {name : String} (sound : s.WellFormed) (found : s.child? name = some t) : t.WellFormed :=
  sound.at? (by rw [Schema.at?, found, Option.bind_some, Schema.at?] : s.at? [name] = some t)

theorem WellFormed.different (sound : s.WellFormed) : (s.values.getD []).Pairwise fun v w => ¬v.same w := by
  cases sound with
  | node here _ =>
    cases known : s.values with
    | none => exact .nil
    | some vs => exact (here.literals vs known).different

theorem WellFormed.scalars (sound : s.WellFormed) : ∀ v ∈ s.values.getD [], v.isScalar := by
  cases sound with
  | node here _ => exact here.scalars

/-- Well-formed schemas that are alike at every place below them have the same fields and values, each once. -/
theorem Reordered.of_alike (sound : s.WellFormed) (sound' : t.WellFormed) (distinct : s.NamesDistinct)
    (distinct' : t.NamesDistinct) (alike : ∀ path, Option.Rel AlikeHere (s.at? path) (t.at? path)) :
    Reordered s t := by
  induction s using induction_on_child generalizing t with
  | node s ih =>
    have here : AlikeHere s t := by
      cases alike [] with
      | some here => exact here
    refine .node here.type here.children ?_ (fun name u v found found' => ?_) here.values ?_
    · exact (List.perm_ext_iff_of_nodup distinct.nodup_names distinct'.nodup_names).mpr here.names
    · refine ih name u found (sound.child found) (sound'.child found') (distinct.child found)
        (distinct'.child found') fun path => ?_
      simpa only [at?, found, found', Option.bind_some] using alike (name :: path)
    · exact Value.reordered_of_isIn sound.scalars sound.different sound'.different
        (fun v member => (here.literals v).mp (distinct.isIn_values member))
        fun v member => (here.literals v).mpr (distinct'.isIn_values member)

end Reordered

section Elements

variable {xs ys : List Value}

/-- Parts that are joined before they make an array give the join of two arrays, unless one side has literals
only and the other one nothing, which then reads as a container. -/
theorem arrayNode_join_iff {f g : Option (Fields Schema)} {v w : Option (List Value)} :
    arrayNode (joinOptions joinFields f g) (joinOptions joinValues v w) = (arrayNode f v).join (arrayNode g w) ↔
      f.isSome ∨ g.isSome ∨ (v.isSome ↔ w.isSome) := by
  cases f <;> cases g <;> cases v <;> cases w <;>
    simp [arrayNode, join, joinChildren_eq, JsonType.max, joinFields_nil_left]

theorem gather_elementValues_isSome :
    (gather joinValues (xs.map elementValues)).isSome ↔ xs.any Value.isScalar := by
  simp [gather_elementValues, Value.firstSeen?]

theorem observe_append_iff (distinct : ∀ x ∈ xs ++ ys, x.NamesDistinct) :
    observe (.array (xs ++ ys)) = (observe (.array xs)).join (observe (.array ys)) ↔
      xs.any Value.isObject ∨ ys.any Value.isObject ∨ (xs.any Value.isScalar ↔ ys.any Value.isScalar) := by
  obtain ⟨inLeft, inRight⟩ := List.forall_mem_append.mp distinct
  rw [observe_array distinct, observe_array inLeft, observe_array inRight, List.map_append, List.map_append,
    gather_append joinFields_assoc, gather_append joinValues_assoc, arrayNode_join_iff,
    gather_elementFields_isSome, gather_elementFields_isSome, gather_elementValues_isSome,
    gather_elementValues_isSome]

theorem alikeHere_of_perm (distinct : ∀ x ∈ xs, x.NamesDistinct) (order : ys.Perm xs) :
    AlikeHere (observe (.array ys)) (observe (.array xs)) := by
  have distinct' : ∀ y ∈ ys, y.NamesDistinct := fun y member => distinct y (order.subset member)
  have type {zs : List Value} (elements : ∀ z ∈ zs, z.NamesDistinct) : (observe (.array zs)).type = .array := by
    rw [observe_array elements, type_arrayNode]
  refine (collects_observe (.array distinct')).alikeHere_of (collects_observe (.array distinct))
    ((type distinct').trans (type distinct).symm) ?_ (fun name => ?_) fun v => ?_
  · simp [Value.isContainer, order.mem_iff]
  · simpa [Value.namesUnder] using (order.flatMap_right Value.memberNames).mem_iff
  · simp [Value.literals, order.mem_iff]

theorem alike_of_perm (distinct : ∀ x ∈ xs, x.NamesDistinct) (order : ys.Perm xs) (path : List String) :
    Option.Rel AlikeHere ((observe (.array ys)).at? path) ((observe (.array xs)).at? path) := by
  have distinct' : ∀ y ∈ ys, y.NamesDistinct := fun y member => distinct y (order.subset member)
  cases path with
  | nil => exact .some (alikeHere_of_perm distinct order)
  | cons name path =>
    -- below the array stand the fields of its elements, which are reordered with them
    have fields {zs : List Value} (elements : ∀ z ∈ zs, z.NamesDistinct) :
        (observe (.array zs)).at? (name :: path) = observeAll (reached (zs.filterMap (Value.field? name)) path) := by
      rw [at?, child?_observe (.array elements), at?_observeAll fun v => (Value.NamesDistinct.array elements).under]
      rfl
    rw [fields distinct', fields distinct]
    have own {zs : List Value} (elements : ∀ z ∈ zs, z.NamesDistinct) :=
      namesDistinct_reached (namesDistinct_filterMap_field elements name) path
    exact observeAll_alike (own distinct') (own distinct) (reached_perm (order.filterMap (Value.field? name)) path)

/-- One array tells exactly what two arrays of its elements tell together, in every order of fields and values,
where each of the two holds an object or a literal; and in another order of its elements the same up to the
order of fields and values. -/
theorem observe_elements (xs ys : List Value) (distinct : ∀ x ∈ xs ++ ys, x.NamesDistinct) :
    ((∃ x ∈ xs, x.isObject ∨ x.isScalar) → (∃ y ∈ ys, y.isObject ∨ y.isScalar) →
        observe (.array (xs ++ ys)) = (observe (.array xs)).join (observe (.array ys))) ∧
      ∀ zs : List Value, zs.Perm xs → Reordered (observe (.array zs)) (observe (.array xs)) := by
  refine ⟨fun inLeft inRight => (observe_append_iff distinct).mpr ?_, fun zs order => ?_⟩
  · obtain ⟨x, member, kind⟩ := inLeft
    obtain ⟨y, member', kind'⟩ := inRight
    simp only [List.any_eq_true]
    rcases kind with object | scalar
    · exact Or.inl ⟨x, member, object⟩
    · rcases kind' with object' | scalar'
      · exact Or.inr (Or.inl ⟨y, member', object'⟩)
      · exact Or.inr (Or.inr (iff_of_true ⟨x, member, scalar⟩ ⟨y, member', scalar'⟩))
  · have elements : ∀ x ∈ xs, x.NamesDistinct := fun x member => distinct x (List.mem_append_left ys member)
    have elements' : ∀ z ∈ zs, z.NamesDistinct := fun z member => elements z (order.subset member)
    exact .of_alike (wellFormed_observe _) (wellFormed_observe _) (observe_namesDistinct (.array elements'))
      (observe_namesDistinct (.array elements)) (alike_of_perm elements order)

/-- Elements of every kind on both sides, with fields that are arrays themselves. -/
theorem observe_elements_of_mixed :
    let xs : List Value := [.null, .object [("a", .array [.string "x"])], .array [.boolean true], .string "x"]
    let ys : List Value := [.object [("b", .null), ("a", .array [.object []])], .number (.integer 1), .string "x"]
    let a : Schema := .node .array (some []) (some [.string "x"])
    (∀ x ∈ xs ++ ys, x.NamesDistinct) ∧ (∃ x ∈ xs, x.isObject ∨ x.isScalar) ∧
      (∃ y ∈ ys, y.isObject ∨ y.isScalar) ∧
      (observe (.array xs)).join (observe (.array ys)) = observe (.array (xs ++ ys)) ∧
      observe (.array (xs ++ ys)) = .node .array (some [("a", a), ("b", .node .null none none)])
        (some [.string "x", .number (.integer 1)]) ∧
      Reordered (observe (.array xs.reverse)) (observe (.array xs)) := by
  intro xs ys a
  have distinct : ∀ x ∈ xs ++ ys, x.NamesDistinct := by
    simp [xs, ys, or_imp, forall_and, Value.namesDistinct_array, Value.namesDistinct_object, Value.NamesDistinct.null,
      Value.NamesDistinct.boolean, Value.NamesDistinct.number, Value.NamesDistinct.string]
  have inLeft : ∃ x ∈ xs, x.isObject ∨ x.isScalar := ⟨.string "x", by simp [xs], Or.inr rfl⟩
  have inRight : ∃ y ∈ ys, y.isObject ∨ y.isScalar := ⟨.string "x", by simp [ys], Or.inr rfl⟩
  obtain ⟨joined, reordered⟩ := observe_elements xs ys distinct
  exact ⟨distinct, inLeft, inRight, (joined inLeft inRight).symm, rfl, reordered _ xs.reverse_perm⟩

end Elements

end Schema

end JsonAssist
