import Mathlib.Data.List.Induction
import JsonAssist.Proofs.Json.Equality
import JsonAssist.Schema.Join

namespace JsonAssist

namespace JsonType

theorem rank_injective {a b : JsonType} (same : a.rank = b.rank) : a = b := by
  cases a <;> cases b <;> simp_all [rank]

theorem rank_max (a b : JsonType) : (a.max b).rank = Nat.max a.rank b.rank := by
  unfold max
  split <;> simp only [Nat.max_def] <;> split <;> omega

theorem max_assoc (a b c : JsonType) : (a.max b).max c = a.max (b.max c) :=
  rank_injective (by simp only [rank_max]; exact Nat.max_assoc ..)

theorem max_max_left (a b : JsonType) : (a.max b).max a = a.max b :=
  rank_injective (by simp only [rank_max, Nat.max_def]; split <;> split <;> omega)

@[simp] theorem max_null (a : JsonType) : a.max .null = a :=
  rank_injective (by rw [rank_max]; exact Nat.max_zero _)

@[simp] theorem null_max (a : JsonType) : JsonType.null.max a = a :=
  rank_injective (by rw [rank_max]; exact Nat.zero_max _)

end JsonType

section Values

theorem Value.isIn_iff {v : Value} {values : List Value} :
    v.isIn values ↔ ∃ w ∈ values, w.same v := by
  simp [Value.isIn]

theorem pushUnique_of_isIn {v : Value} {values : List Value} (known : v.isIn values) :
    pushUnique values v = values := by
  simp [pushUnique, known]

theorem Value.isIn_pushUnique {v w : Value} {values : List Value} :
    v.isIn (pushUnique values w) ↔ v.isIn values ∨ w.same v := by
  by_cases known : w.isIn values
  · rw [pushUnique_of_isIn known]
    refine ⟨Or.inl, fun either => either.elim id fun equal => ?_⟩
    obtain ⟨u, member, equal'⟩ := isIn_iff.mp known
    exact isIn_iff.mpr ⟨u, member, same_trans equal' equal⟩
  · simp only [pushUnique, known, isIn_iff]
    simp [or_and_right, exists_or]

theorem joinValues_append (a b c : List Value) :
    joinValues a (b ++ c) = joinValues (joinValues a b) c := List.foldl_append

theorem joinValues_concat (a b : List Value) (v : Value) :
    joinValues a (b ++ [v]) = pushUnique (joinValues a b) v := joinValues_append a b [v]

theorem Value.isIn_joinValues {v : Value} {a b : List Value} :
    v.isIn (joinValues a b) ↔ v.isIn a ∨ v.isIn b := by
  induction b using List.reverseRecOn with
  | nil => simp [joinValues, isIn]
  | append_singleton b w ih =>
    rw [joinValues_concat, isIn_pushUnique, ih, or_assoc]
    simp [isIn]

/-- A value whose equal is in the middle list is not added behind it, and then neither behind the
left one. This is where equality has to be transitive. -/
theorem joinValues_assoc (a b c : List Value) :
    joinValues (joinValues a b) c = joinValues a (joinValues b c) := by
  induction c using List.reverseRecOn with
  | nil => rfl
  | append_singleton c v ih =>
    rw [joinValues_concat, joinValues_concat, ih]
    by_cases known : v.isIn (joinValues b c)
    · rw [pushUnique_of_isIn known,
        pushUnique_of_isIn (Value.isIn_joinValues.mpr (Or.inr known))]
    · rw [← joinValues_concat a]
      simp [pushUnique, known]

theorem joinValues_of_isIn {a b : List Value} (known : ∀ v ∈ b, v.isIn a) : joinValues a b = a := by
  induction b with
  | nil => rfl
  | cons v b ih =>
    obtain ⟨first, others⟩ := List.forall_mem_cons.mp known
    simpa [joinValues, pushUnique_of_isIn first] using ih others

theorem Value.isIn_of_mem {v : Value} {values : List Value} (distinct : v.NamesDistinct)
    (member : v ∈ values) : v.isIn values :=
  isIn_iff.mpr ⟨v, member, same_refl distinct⟩

theorem joinValues_joinValues_left {a : List Value} (b : List Value)
    (distinct : ∀ v ∈ a, v.NamesDistinct) : joinValues (joinValues a b) a = joinValues a b :=
  joinValues_of_isIn fun v member =>
    Value.isIn_joinValues.mpr (Or.inl (Value.isIn_of_mem (distinct v member) member))

end Values

namespace Schema

section Parts

variable {α β : Type} {both : α → α → α}

@[simp] theorem joinOptions_none_left (a : Option α) : joinOptions both none a = a := rfl

@[simp] theorem joinOptions_none_right (a : Option α) : joinOptions both a none = a := by
  cases a <;> rfl

@[simp] theorem joinOptions_some (a b : α) :
    joinOptions both (some a) (some b) = some (both a b) := rfl

theorem joinOptions_isSome {a b : Option α} :
    (joinOptions both a b).isSome ↔ a.isSome ∨ b.isSome := by
  cases a <;> cases b <;> simp

/-- A join of parts is the one part there is, or the join of both. -/
theorem joinOptions_forall {P : α → Prop} {a b : Option α} (left : ∀ x, a = some x → P x)
    (right : ∀ y, b = some y → P y) (join : ∀ x y, a = some x → b = some y → P (both x y)) :
    ∀ z, joinOptions both a b = some z → P z := by
  cases a <;> cases b <;> simp_all

theorem joinOptions_assoc (assoc : ∀ a b c, both (both a b) c = both a (both b c))
    (x y z : Option α) :
    joinOptions both (joinOptions both x y) z = joinOptions both x (joinOptions both y z) := by
  cases x <;> cases y <;> cases z <;> simp [assoc]

/-- The join of parts of which any may be absent. -/
def gather (both : α → α → α) (parts : List (Option α)) : Option α :=
  parts.foldl (joinOptions both) none

@[simp] theorem gather_nil : gather both [] = none := rfl

theorem gather_concat (parts : List (Option α)) (last : Option α) :
    gather both (parts ++ [last]) = joinOptions both (gather both parts) last := by
  simp [gather, List.foldl_append]

theorem gather_append (assoc : ∀ a b c, both (both a b) c = both a (both b c))
    (left right : List (Option α)) :
    gather both (left ++ right) = joinOptions both (gather both left) (gather both right) := by
  induction right using List.reverseRecOn with
  | nil => simp
  | append_singleton right last ih =>
    rw [← List.append_assoc, gather_concat, gather_concat, ih, joinOptions_assoc assoc]

/-- What a part says of itself, it says of a join of parts if it says so of two. -/
theorem map_gather {both' : β → β → β} (view : Option α → Option β) (none : view none = none)
    (join : ∀ x y, view (joinOptions both x y) = joinOptions both' (view x) (view y))
    (parts : List (Option α)) : view (gather both parts) = gather both' (parts.map view) := by
  induction parts using List.reverseRecOn with
  | nil => exact none
  | append_singleton parts last ih =>
    rw [List.map_append, List.map_singleton, gather_concat, gather_concat, join, ih]

theorem gather_isSome {parts : List (Option α)} :
    (gather both parts).isSome ↔ ∃ part ∈ parts, part.isSome := by
  induction parts using List.reverseRecOn with
  | nil => simp
  | append_singleton parts last ih =>
    rw [gather_concat, joinOptions_isSome, ih]
    simp [or_and_right, exists_or]

theorem gather_forall {P : α → Prop} {parts : List (Option α)}
    (own : ∀ part ∈ parts, ∀ x, part = some x → P x) (join : ∀ x y, P x → P y → P (both x y)) :
    ∀ z, gather both parts = some z → P z := by
  induction parts using List.reverseRecOn with
  | nil => simp
  | append_singleton parts last ih =>
    rw [gather_concat]
    have before := ih fun part member => own part (List.mem_append_left [last] member)
    have new := own last (List.mem_append_right parts List.mem_cons_self)
    exact joinOptions_forall before new fun x y atX atY => join x y (before x atX) (new y atY)

end Parts

@[simp] theorem type_node (t c v) : (node t c v).type = t := rfl

@[simp] theorem children_node (t c v) : (node t c v).children = c := rfl

@[simp] theorem values_node (t c v) : (node t c v).values = v := rfl

/-- Every schema holds if those below it do. -/
theorem induction {P : Schema → Prop}
    (node : ∀ t c v, (∀ fields, c = some fields → ∀ entry ∈ fields, P entry.2) → P (.node t c v)) :
    ∀ s, P s
  | .node t none v => node t none v nofun
  | .node t (some fields) v => node t (some fields) v fun _ same entry member =>
    have : entry ∈ fields := Option.some.inj same ▸ member
    induction node entry.2
termination_by s => sizeOf s
decreasing_by
  have := List.sizeOf_lt_of_mem this
  have : sizeOf entry = 1 + sizeOf entry.1 + sizeOf entry.2 := rfl
  simp only [Schema.node.sizeOf_spec, Option.some.sizeOf_spec]
  omega

/-- A schema joined with the field of a name, if there is one. -/
def joinAt (b : Fields Schema) (name : String) (s : Schema) : Schema :=
  (Fields.get? b name).elim s s.join

/-- The key union of two lists of fields: those on the left first, each joined with the field of its
name on the right, then the others on the right. -/
def joinFields (a b : Fields Schema) : Fields Schema :=
  (a.map fun entry => (entry.1, joinAt b entry.1 entry.2)) ++
    b.filter fun entry => entry.1 ∉ Fields.names a

theorem joinShared_eq_map (a b : Fields Schema) :
    joinShared a b = a.map fun entry => (entry.1, joinAt b entry.1 entry.2) := by
  induction a with
  | nil => rfl
  | cons entry rest ih =>
    simp only [joinShared, List.map_cons, ih, joinAt]
    cases Fields.get? b entry.1 <;> rfl

theorem newFields_eq_filter (a b : Fields Schema) :
    newFields a b = b.filter fun entry => entry.1 ∉ Fields.names a :=
  List.filter_congr fun entry _ => by
    simp [← Fields.has_iff]

theorem joinChildren_eq (a b : Option (Fields Schema)) :
    joinChildren a b = joinOptions joinFields a b := by
  cases a <;> cases b <;> simp [joinChildren, joinFields, joinShared_eq_map, newFields_eq_filter]

@[simp] theorem type_join (s t : Schema) : (s.join t).type = s.type.max t.type := by
  cases s; cases t; rfl

@[simp] theorem children_join (s t : Schema) :
    (s.join t).children = joinOptions joinFields s.children t.children := by
  cases s; cases t; exact joinChildren_eq ..

@[simp] theorem values_join (s t : Schema) :
    (s.join t).values = joinOptions joinValues s.values t.values := by
  cases s; cases t; rfl

theorem ext {s t : Schema} (type : s.type = t.type) (children : s.children = t.children)
    (values : s.values = t.values) : s = t := by
  cases s; cases t; simp_all

theorem names_joinFields (a b : Fields Schema) :
    Fields.names (joinFields a b) =
      Fields.names a ++ (Fields.names b).filter fun name => name ∉ Fields.names a := by
  rw [joinFields, Fields.names_append, Fields.names_map (joinAt b),
    Fields.names_filter fun name => name ∉ Fields.names a]

theorem mem_names_joinFields {a b : Fields Schema} {name : String} :
    name ∈ Fields.names (joinFields a b) ↔ name ∈ Fields.names a ∨ name ∈ Fields.names b := by
  rw [names_joinFields]
  by_cases known : name ∈ Fields.names a <;> simp [known]

theorem get?_joinFields (a b : Fields Schema) (name : String) :
    Fields.get? (joinFields a b) name =
      joinOptions join (Fields.get? a name) (Fields.get? b name) := by
  rw [joinFields, Fields.get?_append, Fields.get?_map (joinAt b),
    Fields.get?_filter fun name => name ∉ Fields.names a]
  cases known : Fields.get? a name with
  | none => simp [Fields.get?_eq_none.mp known]
  | some s => cases found : Fields.get? b name <;> simp [joinAt, found]

theorem nodup_names_joinFields {a b : Fields Schema} (left : (Fields.names a).Nodup)
    (right : (Fields.names b).Nodup) : (Fields.names (joinFields a b)).Nodup := by
  rw [names_joinFields]
  exact left.append (right.filter _) fun name inLeft inNew => by
    simp [inLeft] at inNew

@[simp] theorem joinFields_nil_left (b : Fields Schema) : joinFields [] b = b := by
  simp [joinFields]

@[simp] theorem joinFields_nil_right (a : Fields Schema) : joinFields a [] = a := by
  simp [joinFields, joinAt, Fields.get?]

theorem getD_joinOptions_joinFields (a b : Option (Fields Schema)) :
    (joinOptions joinFields a b).getD [] = joinFields (a.getD []) (b.getD []) := by
  cases a <;> cases b <;> simp

theorem child?_join (s t : Schema) (name : String) :
    (s.join t).child? name = joinOptions join (s.child? name) (t.child? name) := by
  simp only [child?, children_join]
  cases s.children <;> cases t.children <;> simp [get?_joinFields]

/-- Joining fields is associative where joining the leftmost schemas is. The rightmost fields that are
new to the other two come last either way. -/
theorem joinFields_assoc_of {a : Fields Schema}
    (assoc : ∀ entry ∈ a, ∀ t u, (entry.2.join t).join u = entry.2.join (t.join u))
    (b c : Fields Schema) : joinFields (joinFields a b) c = joinFields a (joinFields b c) := by
  have shared : ((a.map fun entry => (entry.1, joinAt b entry.1 entry.2)).map
        fun entry => (entry.1, joinAt c entry.1 entry.2)) =
      a.map fun entry => (entry.1, joinAt (joinFields b c) entry.1 entry.2) := by
    rw [List.map_map]
    refine List.map_congr_left fun entry member => ?_
    simp only [Function.comp_apply, joinAt, get?_joinFields]
    cases Fields.get? b entry.1 <;> cases Fields.get? c entry.1 <;> simp [assoc entry member]
  have fresh : (c.filter fun entry => entry.1 ∉ Fields.names (joinFields a b)) =
      (c.filter fun entry => entry.1 ∉ Fields.names b).filter fun entry => entry.1 ∉ Fields.names a := by
    rw [List.filter_filter]
    exact List.filter_congr fun entry _ => by simp [mem_names_joinFields]
  rw [joinFields, joinFields.eq_def a (joinFields b c), ← shared, fresh]
  conv_lhs => rw [joinFields, List.map_append, List.append_assoc]
  conv_rhs => rw [joinFields, List.filter_append, List.filter_map]
  rfl

/-- Joining is associative, in every order of fields and values. -/
theorem join_assoc (s t u : Schema) : (s.join t).join u = s.join (t.join u) := by
  induction s using Schema.induction generalizing t u with
  | node type children values ih =>
    refine ext ?_ ?_ ?_
    · simpa using JsonType.max_assoc ..
    · simp only [children_join]
      cases children with
      | none => simp
      | some fields =>
        cases t.children <;> cases u.children <;> simp [joinFields_assoc_of (ih fields rfl)]
    · simpa using joinOptions_assoc joinValues_assoc ..

theorem joinFields_assoc (a b c : Fields Schema) :
    joinFields (joinFields a b) c = joinFields a (joinFields b c) :=
  joinFields_assoc_of (fun entry _ => entry.2.join_assoc) b c

end Schema

end JsonAssist
