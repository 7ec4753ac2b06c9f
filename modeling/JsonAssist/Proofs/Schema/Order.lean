import JsonAssist.Proofs.Schema.Corpus

namespace JsonAssist

namespace JsonType

theorem rank_le_max_left (a b : JsonType) : a.rank ≤ (a.max b).rank :=
  Nat.le_trans (Nat.le_max_left ..) (Nat.le_of_eq (rank_max a b).symm)

theorem rank_le_max_right (a b : JsonType) : b.rank ≤ (a.max b).rank :=
  Nat.le_trans (Nat.le_max_right ..) (Nat.le_of_eq (rank_max a b).symm)

theorem rank_max_le {a b c : JsonType} (left : a.rank ≤ c.rank) (right : b.rank ≤ c.rank) :
    (a.max b).rank ≤ c.rank :=
  Nat.le_trans (Nat.le_of_eq (rank_max a b)) (Nat.max_le.mpr ⟨left, right⟩)

end JsonType

namespace Schema

/-- The second schema tells at least what the first one tells: its type is no less dominant; it has the
parts that the first one has; among its fields is each of the first one's, and tells at least as much;
and among its values is an equal of each of the first one's. -/
inductive Below : Schema → Schema → Prop
  | node {s t : Schema} (type : s.type.rank ≤ t.type.rank)
      (children : s.children.isSome → t.children.isSome)
      (names : ∀ name, (s.child? name).isSome → (t.child? name).isSome)
      (fields : ∀ name u v, s.child? name = some u → t.child? name = some v → Below u v)
      (values : s.values.isSome → t.values.isSome)
      (literals : ∀ v ∈ s.values.getD [], v.isIn (t.values.getD [])) : Below s t

section Parts

variable {s t : Schema} {name : String}

theorem child?_isSome : (s.child? name).isSome ↔ name ∈ Fields.names (s.children.getD []) := by
  rw [← Fields.get?_isSome, child?]
  cases s.children <;> simp [Fields.get?]

/-- A field that one side has is joined with the other side's, or with nothing. -/
theorem child?_join_left {u : Schema} (found : s.child? name = some u) :
    (s.join t).child? name = some (u.join ((t.child? name).getD (node .null none none))) := by
  rw [child?_join, found]
  cases t.child? name <;> simp [join_unknown]

theorem child?_join_right {u : Schema} (found : t.child? name = some u) :
    (s.join t).child? name = some (((s.child? name).getD (node .null none none)).join u) := by
  rw [child?_join, found]
  cases s.child? name <;> simp [unknown_join]

/-- Every schema holds if its fields do. -/
theorem induction_on_child {P : Schema → Prop} (s : Schema)
    (node : ∀ s, (∀ name u, s.child? name = some u → P u) → P s) : P s := by
  induction s using Schema.induction with
  | node type children values ih =>
    refine node _ fun name u found => ?_
    obtain ⟨fields, known, found⟩ := Option.bind_eq_some_iff.mp found
    exact ih fields known _ (Fields.mem_of_get? found)

theorem NamesDistinct.child (distinct : s.NamesDistinct) (found : s.child? name = some t) :
    t.NamesDistinct := by
  obtain ⟨fields, known, found⟩ := Option.bind_eq_some_iff.mp found
  exact (distinct.fields known).below _ (Fields.mem_of_get? found)

theorem NamesDistinct.isIn_values (distinct : s.NamesDistinct) {v : Value} (member : v ∈ s.values.getD []) :
    v.isIn (s.values.getD []) := by
  cases distinct with
  | @node type children values names below known =>
    cases values with
    | none => simp at member
    | some own => exact Value.isIn_of_mem (known own rfl v member) member

/-- Values that may be absent, joined, hold the equals that either side holds. -/
theorem isIn_joinOptions {v : Value} {a b : Option (List Value)} :
    v.isIn ((joinOptions joinValues a b).getD []) ↔ v.isIn (a.getD []) ∨ v.isIn (b.getD []) := by
  have none (v : Value) : ¬v.isIn [] := Bool.false_ne_true
  cases a with
  | none => simp [none]
  | some a =>
    cases b with
    | none => simp [none]
    | some b => exact Value.isIn_joinValues

theorem mem_joinOptions {v : Value} {a b : Option (List Value)}
    (member : v ∈ (joinOptions joinValues a b).getD []) : v ∈ a.getD [] ∨ v ∈ b.getD [] := by
  cases a with
  | none => exact Or.inr member
  | some a =>
    cases b with
    | none => exact Or.inl member
    | some b => exact mem_joinValues member

end Parts

section Join

variable {s t u : Schema}

/-- What tells of a schema its type, its parts, its fields and its values tells all of it. -/
theorem NamesDistinct.below_of_parts (distinct : s.NamesDistinct) (type : s.type.rank ≤ t.type.rank)
    (children : s.children.isSome → t.children.isSome) (values : s.values.isSome → t.values.isSome)
    (fields : ∀ name u, s.child? name = some u → ∃ v, t.child? name = some v ∧ Below u v)
    (literals : ∀ v : Value, v.isIn (s.values.getD []) → v.isIn (t.values.getD [])) : Below s t := by
  refine .node type children (fun name present => ?_) (fun name u v found found' => ?_) values
    fun v member => literals v (distinct.isIn_values member)
  · obtain ⟨u, found⟩ := Option.isSome_iff_exists.mp present
    obtain ⟨v, found', _⟩ := fields name u found
    exact Option.isSome_of_eq_some found'
  · obtain ⟨w, found'', below⟩ := fields name u found
    exact Option.some.inj (found''.symm.trans found') ▸ below

theorem below_join_left (distinct : s.NamesDistinct) (t : Schema) : Below s (s.join t) := by
  induction s using induction_on_child generalizing t with
  | node s ih =>
    refine distinct.below_of_parts ?_ ?_ ?_ ?_ ?_
    · exact type_join s t ▸ JsonType.rank_le_max_left ..
    · exact fun present => children_join s t ▸ joinOptions_isSome.mpr (Or.inl present)
    · exact fun present => values_join s t ▸ joinOptions_isSome.mpr (Or.inl present)
    · exact fun name u found => ⟨_, child?_join_left found, ih name u found (distinct.child found) _⟩
    · exact fun v known => values_join s t ▸ isIn_joinOptions.mpr (Or.inl known)

theorem below_join_right (s : Schema) (distinct : t.NamesDistinct) : Below t (s.join t) := by
  induction t using induction_on_child generalizing s with
  | node t ih =>
    refine distinct.below_of_parts ?_ ?_ ?_ ?_ ?_
    · exact type_join s t ▸ JsonType.rank_le_max_right ..
    · exact fun present => children_join s t ▸ joinOptions_isSome.mpr (Or.inr present)
    · exact fun present => values_join s t ▸ joinOptions_isSome.mpr (Or.inr present)
    · exact fun name u found => ⟨_, child?_join_right found, ih name u found _ (distinct.child found)⟩
    · exact fun v known => values_join s t ▸ isIn_joinOptions.mpr (Or.inr known)

/-- What tells all that both sides tell, tells all that their join tells. -/
theorem join_below (left : Below s u) (right : Below t u) : Below (s.join t) u := by
  induction left generalizing t with
  | @node s u type children names fields values literals ih =>
    cases right with
    | node type' children' names' fields' values' literals' =>
      refine .node ?_ ?_ ?_ ?_ ?_ ?_
      · exact type_join s t ▸ JsonType.rank_max_le type type'
      · rw [children_join, joinOptions_isSome]
        exact fun present => present.elim children children'
      · intro name present
        rw [child?_join, joinOptions_isSome] at present
        exact present.elim (names name) (names' name)
      · intro name x v joined found
        rw [child?_join] at joined
        exact joinOptions_forall (fun a inLeft => fields name a v inLeft found)
          (fun b inRight => fields' name b v inRight found)
          (fun a b inLeft inRight => ih name a v inLeft found (fields' name b v inRight found)) x joined
      · rw [values_join, joinOptions_isSome]
        exact fun present => present.elim values values'
      · intro v member
        rw [values_join] at member
        exact (mem_joinOptions member).elim (literals v) (literals' v)

end Join

section Order

variable {s t : Schema}

theorem Below.isIn (below : Below s t) {v : Value} (known : v.isIn (s.values.getD [])) :
    v.isIn (t.values.getD []) := by
  cases below with
  | node _ _ _ _ _ literals =>
    obtain ⟨w, member, same⟩ := Value.isIn_iff.mp known
    obtain ⟨x, member', same'⟩ := Value.isIn_iff.mp (literals w member)
    exact Value.isIn_iff.mpr ⟨x, member', Value.same_trans same' same⟩

theorem Below.alikeHere (below : Below s t) (above : Below t s) : AlikeHere s t := by
  have literals (v : Value) := Iff.intro (below.isIn (v := v)) above.isIn
  cases below with
  | node type children names _ values _ =>
    cases above with
    | node type' children' names' _ values' _ =>
      exact {
        type := JsonType.rank_injective (Nat.le_antisymm type type')
        children := ⟨children, children'⟩
        names := fun name => by
          rw [← child?_isSome, ← child?_isSome]
          exact ⟨names name, names' name⟩
        values := ⟨values, values'⟩
        literals }

/-- Schemas that tell each at least what the other one tells are alike at every place below them. -/
theorem Below.alike (below : Below s t) (above : Below t s) (path : List String) :
    Option.Rel AlikeHere (s.at? path) (t.at? path) := by
  induction path generalizing s t with
  | nil => exact .some (below.alikeHere above)
  | cons name path ih =>
    cases below with
    | node _ _ names fields =>
      cases above with
      | node _ _ names' fields' =>
        rw [at?, at?]
        cases inLeft : s.child? name with
        | none =>
          have absent : t.child? name = none := by
            simpa [inLeft] using names' name
          rw [absent]
          exact .none
        | some u =>
          obtain ⟨v, inRight⟩ := Option.isSome_iff_exists.mp (names name (Option.isSome_of_eq_some inLeft))
          rw [inRight]
          exact ih (fields name u v inLeft inRight) (fields' name v u inRight inLeft)

end Order

/-- The join of two schemas is the least one that tells what both tell. So in which order two schemas are
joined makes a difference to the order of fields and values only. -/
theorem join_least (s t : Schema) (left : s.NamesDistinct) (right : t.NamesDistinct) :
    Below s (s.join t) ∧ Below t (s.join t) ∧ (∀ u, Below s u → Below t u → Below (s.join t) u) ∧
      ∀ path, Option.Rel AlikeHere ((s.join t).at? path) ((t.join s).at? path) := by
  have upper : Below (s.join t) (t.join s) := join_below (below_join_right t left) (below_join_left right s)
  have lower : Below (t.join s) (s.join t) := join_below (below_join_right s right) (below_join_left left t)
  exact ⟨below_join_left left t, below_join_right s right, fun u => join_below, upper.alike lower⟩

/-- A value that is known twice, a name on both sides, and values on one side of which the other has none. -/
theorem join_least_of_mixed :
    let one : Value := .number (.integer 1)
    let s : Schema := .node .array (some [("a", .node .number none (some [one, one]))])
      (some [.array [one], .array [one]])
    let t : Schema := .node .string
      (some [("b", .node .null none none), ("a", .node .string none (some [.string "x", one]))]) (some [])
    let joined : Schema := .node .array (some [("a", .node .string none (some [one, one, .string "x"])),
      ("b", .node .null none none)]) (some [.array [one], .array [one]])
    s.NamesDistinct ∧ t.NamesDistinct ∧ s.join t = joined ∧ Below s joined ∧ Below t joined ∧
      (∀ u, Below s u → Below t u → Below joined u) ∧
      ∀ path, Option.Rel AlikeHere (joined.at? path) ((t.join s).at? path) := by
  intro one s t joined
  have left : s.NamesDistinct := by
    simp [s, one, namesDistinct_node, Value.namesDistinct_array, Value.NamesDistinct.number]
  have right : t.NamesDistinct := by
    simp [t, one, namesDistinct_node, or_imp, forall_and, Value.NamesDistinct.string, Value.NamesDistinct.number]
  exact ⟨left, right, rfl, join_least s t left right⟩

end Schema

end JsonAssist
