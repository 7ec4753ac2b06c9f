import JsonAssist.Proofs.Schema.Order

namespace JsonAssist

namespace JsonType

/-- The types of literals. -/
def isScalar : JsonType → Bool
  | .boolean | .number | .string => true
  | _ => false

theorem max_cases (a b : JsonType) : a.max b = a ∨ a.max b = b := by
  unfold max
  split
  · exact Or.inr rfl
  · exact Or.inl rfl

theorem max_eq_null {a b : JsonType} : a.max b = .null ↔ a = .null ∧ b = .null := by
  cases a <;> cases b <;> decide

/-- A container among two types dominates a literal's. -/
theorem isScalar_of_max {a b : JsonType} (scalar : (a.max b).isScalar) :
    (a = .null ∨ a.isScalar) ∧ (b = .null ∨ b.isScalar) := by
  cases a <;> cases b <;> revert scalar <;> decide

end JsonType

theorem Value.rank_le_array {v : Value} (scalar : v.isScalar) : v.type.rank ≤ JsonType.array.rank := by
  cases v <;> simp_all [isScalar, type, JsonType.rank]

theorem Value.type_of_same {v w : Value} (equal : v.same w) : v.type = w.type := by
  cases v <;> cases w <;> simp_all [same, type]

namespace Schema

/-- Literals as a schema of a type keeps them: one or more, no two of them equal, and none of a more dominant
type. -/
structure Recorded (t : JsonType) (literals : List Value) : Prop where
  nonempty : literals ≠ []
  scalars : ∀ v ∈ literals, v.isScalar
  different : literals.Pairwise fun v w => ¬v.same w
  dominated : ∀ v ∈ literals, v.type.rank ≤ t.rank

/-- The type of a schema agrees with its parts: it is `null` where nothing else is known; a literal's type is the
dominant one among the values, and leaves no room for fields; an array has one of the two parts, and an object
has fields. -/
structure Agrees (s : Schema) : Prop where
  literals : ∀ known, s.values = some known → Recorded s.type known
  null : s.type = .null ↔ s.children = none ∧ s.values = none
  scalar : s.type.isScalar → s.children = none ∧ s.values.isSome ∧ ∃ v ∈ s.values.getD [], v.type = s.type
  array : s.type = .array → s.children.isSome ∨ s.values.isSome
  object : s.type = .object → s.children.isSome

/-- A schema whose type agrees with its parts, at every place below it too. -/
inductive WellFormed : Schema → Prop
  | node {s : Schema} (here : s.Agrees)
      (below : ∀ fields, s.children = some fields → ∀ entry ∈ fields, WellFormed entry.2) : WellFormed s

section Literals

variable {t u : JsonType} {a b : List Value}

theorem Recorded.mono (known : Recorded t a) (dominant : t.rank ≤ u.rank) : Recorded u a :=
  { known with dominated := fun v member => Nat.le_trans (known.dominated v member) dominant }

theorem Recorded.singleton {v : Value} (scalar : v.isScalar) (dominant : v.type.rank ≤ t.rank) :
    Recorded t [v] where
  nonempty := List.cons_ne_nil v []
  scalars := List.forall_mem_singleton.mpr scalar
  different := List.pairwise_singleton ..
  dominated := List.forall_mem_singleton.mpr dominant

theorem joinValues_ne_nil (nonempty : a ≠ []) : joinValues a b ≠ [] := by
  induction b using List.reverseRecOn with
  | nil => exact nonempty
  | append_singleton b v ih =>
    rw [joinValues_concat, pushUnique]
    split
    · exact ih
    · exact List.append_ne_nil_of_left_ne_nil ih [v]

/-- What is pushed is equal to nothing that stands before it. -/
theorem pairwise_joinValues (different : a.Pairwise fun v w => ¬v.same w) :
    (joinValues a b).Pairwise fun v w => ¬v.same w := by
  induction b using List.reverseRecOn with
  | nil => exact different
  | append_singleton b v ih =>
    rw [joinValues_concat, pushUnique]
    split
    next => exact ih
    next fresh =>
      refine List.pairwise_append.mpr ⟨ih, List.pairwise_singleton .., fun w before w' last equal => ?_⟩
      rw [List.mem_singleton.mp last] at equal
      exact fresh (Value.isIn_iff.mpr ⟨w, before, equal⟩)

theorem Recorded.join (left : Recorded t a) (right : Recorded t b) : Recorded t (joinValues a b) where
  nonempty := joinValues_ne_nil left.nonempty
  scalars v member := (mem_joinValues member).elim (left.scalars v) (right.scalars v)
  different := pairwise_joinValues left.different
  dominated v member := (mem_joinValues member).elim (left.dominated v) (right.dominated v)

/-- A literal on either side has one of its type in the join, though it may be an equal that is kept. -/
theorem exists_type_of_joinOptions {a b : Option (List Value)} {v : Value} (scalar : v.isScalar)
    (member : v ∈ a.getD [] ∨ v ∈ b.getD []) :
    ∃ w ∈ (joinOptions joinValues a b).getD [], w.type = v.type := by
  have own := Value.namesDistinct_of_isScalar scalar
  have known : v.isIn ((joinOptions joinValues a b).getD []) :=
    isIn_joinOptions.mpr (member.imp (Value.isIn_of_mem own) (Value.isIn_of_mem own))
  obtain ⟨w, inJoin, equal⟩ := Value.isIn_iff.mp known
  exact ⟨w, inJoin, Value.type_of_same equal⟩

end Literals

section Join

variable {s t : Schema}

theorem joinOptions_eq_none {α : Type} {both : α → α → α} {a b : Option α} :
    joinOptions both a b = none ↔ a = none ∧ b = none := by
  cases a <;> cases b <;> simp

theorem Agrees.scalars (here : s.Agrees) : ∀ v ∈ s.values.getD [], v.isScalar := by
  cases known : s.values with
  | none => simp
  | some vs => exact (here.literals vs known).scalars

theorem Agrees.children_eq_none (here : s.Agrees) (type : s.type = .null ∨ s.type.isScalar) :
    s.children = none :=
  type.elim (fun type => (here.null.mp type).1) fun type => (here.scalar type).1

/-- The dominant type is one of the two, and what it asks for is on its side. -/
theorem Agrees.join (left : s.Agrees) (right : t.Agrees) : (s.join t).Agrees where
  literals := by
    rw [values_join, type_join]
    have inLeft := fun a known => (left.literals a known).mono (JsonType.rank_le_max_left s.type t.type)
    have inRight := fun b known => (right.literals b known).mono (JsonType.rank_le_max_right s.type t.type)
    exact joinOptions_forall inLeft inRight fun a b known known' => (inLeft a known).join (inRight b known')
  null := by
    rw [type_join, children_join, values_join, JsonType.max_eq_null, left.null, right.null,
      joinOptions_eq_none, joinOptions_eq_none, and_and_and_comm]
  scalar := by
    rw [type_join, children_join, values_join, joinOptions_eq_none, joinOptions_isSome]
    intro dominant
    obtain ⟨type, type'⟩ := JsonType.isScalar_of_max dominant
    refine ⟨⟨left.children_eq_none type, right.children_eq_none type'⟩, ?_⟩
    rcases JsonType.max_cases s.type t.type with same | same
    · rw [same] at dominant ⊢
      obtain ⟨_, present, v, member, atType⟩ := left.scalar dominant
      exact ⟨Or.inl present, atType ▸ exists_type_of_joinOptions (left.scalars v member) (Or.inl member)⟩
    · rw [same] at dominant ⊢
      obtain ⟨_, present, v, member, atType⟩ := right.scalar dominant
      exact ⟨Or.inr present, atType ▸ exists_type_of_joinOptions (right.scalars v member) (Or.inr member)⟩
  array := by
    rw [type_join, children_join, values_join, joinOptions_isSome, joinOptions_isSome]
    intro dominant
    rcases JsonType.max_cases s.type t.type with same | same
    · exact (left.array (same ▸ dominant)).imp Or.inl Or.inl
    · exact (right.array (same ▸ dominant)).imp Or.inr Or.inr
  object := by
    rw [type_join, children_join, joinOptions_isSome]
    intro dominant
    rcases JsonType.max_cases s.type t.type with same | same
    · exact Or.inl (left.object (same ▸ dominant))
    · exact Or.inr (right.object (same ▸ dominant))

theorem WellFormed.join (left : s.WellFormed) (right : t.WellFormed) : (s.join t).WellFormed := by
  induction left generalizing t with
  | node here below ih =>
    cases right with
    | node here' below' =>
      refine .node (here.join here') ?_
      rw [children_join]
      refine joinOptions_forall below below' fun a b inLeft inRight entry member => ?_
      rcases mem_joinFields member with ⟨u, shared, joined⟩ | new
      · rw [joined, joinAt]
        cases found : Fields.get? b entry.1 with
        | none => exact below a inLeft _ shared
        | some _ => exact ih a inLeft _ shared (below' b inRight _ (Fields.mem_of_get? found))
      · exact below' b inRight entry new

end Join

section Observe

theorem agrees_null : (node .null none none).Agrees where
  literals := nofun
  null := by simp
  scalar := nofun
  array := nofun
  object := nofun

theorem agrees_scalar {v : Value} (scalar : v.isScalar) : (node v.type none (some [v])).Agrees where
  literals := by
    rintro _ ⟨⟩
    exact .singleton scalar (Nat.le_refl _)
  null := by cases v <;> simp_all [Value.isScalar, Value.type]
  scalar _ := ⟨rfl, rfl, v, List.mem_cons_self, rfl⟩
  array := by cases v <;> simp_all [Value.isScalar, Value.type]
  object := by cases v <;> simp_all [Value.isScalar, Value.type]

theorem agrees_object (fields : Fields Schema) : (node .object (some fields) none).Agrees where
  literals := nofun
  null := by simp
  scalar := nofun
  array := nofun
  object _ := rfl

theorem agrees_array {fields : Option (Fields Schema)} {values : Option (List Value)}
    (part : fields.isSome ∨ values.isSome) (literals : ∀ known, values = some known → Recorded .array known) :
    (node .array fields values).Agrees where
  literals := literals
  null := by cases fields <;> cases values <;> simp_all
  scalar := nofun
  array _ := part
  object := nofun

/-- An object is well formed if all that its members tell is. -/
theorem wellFormed_observe_object {ms : List (String × Value)} :
    (observe (.object ms)).WellFormed ↔ ∀ m ∈ ms, (observe m.2).WellFormed := by
  rw [observe, observeMembers_eq_map]
  constructor
  · rintro ⟨_, below⟩ m member
    exact below _ rfl (m.1, observe m.2) (List.mem_map.mpr ⟨m, member, rfl⟩)
  · intro members
    refine .node (agrees_object _) ?_
    rintro _ ⟨⟩
    exact List.forall_mem_map.mpr members

theorem WellFormed.joinOnto {known : Option Schema} {s : Schema} (before : ∀ t, known = some t → t.WellFormed)
    (sample : s.WellFormed) : (joinOnto known s).WellFormed := by
  cases known with
  | none => exact sample
  | some t => exact (before t rfl).join sample

/-- Members that are joined one by one onto fields leave them well formed. -/
theorem wellFormed_mergeMembers {fields : Fields Schema} {ms : List (String × Value)}
    (known : ∀ entry ∈ fields, entry.2.WellFormed) (new : ∀ m ∈ ms, (observe m.2).WellFormed) :
    ∀ entry ∈ mergeMembers fields ms, entry.2.WellFormed := by
  induction ms generalizing fields with
  | nil => exact known
  | cons m rest ih =>
    obtain ⟨first, others⟩ := List.forall_mem_cons.mp new
    refine ih (fun entry member => ?_) others
    rcases Fields.mem_insert member with old | rfl
    · exact known entry old
    · exact first.joinOnto fun t found => known _ (Fields.mem_of_get? found)

/-- What one element adds to the parts of its array keeps them well formed, and so do all of them. -/
theorem wellFormed_observeElements {fields : Option (Fields Schema)} {values : Option (List Value)}
    {xs : List Value} (known : ∀ fs, fields = some fs → ∀ entry ∈ fs, entry.2.WellFormed)
    (literals : ∀ vs, values = some vs → Recorded .array vs) (new : ∀ x ∈ xs, (observe x).WellFormed) :
    (observeElements fields values xs).WellFormed := by
  induction xs generalizing fields values with
  | nil =>
    cases fields with
    | some fs => exact .node (agrees_array (Or.inl rfl) literals) known
    | none =>
      cases values with
      | some vs => exact .node (agrees_array (Or.inr rfl) literals) nofun
      | none =>
        refine .node (agrees_array (Or.inl rfl) nofun) ?_
        rintro _ ⟨⟩
        exact nofun
  | cons x rest ih =>
    obtain ⟨first, others⟩ := List.forall_mem_cons.mp new
    have push {v : Value} (scalar : v.isScalar) :
        ∀ vs, some (pushUnique (values.getD []) v) = some vs → Recorded .array vs := by
      have own : ∀ vs, some [v] = some vs → Recorded .array vs := by
        rintro _ ⟨⟩
        exact .singleton scalar (Value.rank_le_array scalar)
      rw [pushUnique_getD]
      exact joinOptions_forall literals own fun a b inLeft inRight => (literals a inLeft).join (own b inRight)
    cases x with
    | null | array _ => exact ih known literals others
    | boolean _ | number _ | string _ => exact ih known (push rfl) others
    | object ms =>
      refine ih ?_ literals others
      rintro _ ⟨⟩
      refine wellFormed_mergeMembers ?_ (wellFormed_observe_object.mp first)
      cases fields with
      | none => exact nofun
      | some fs => exact known fs rfl

theorem wellFormed_observe (v : Value) : (observe v).WellFormed := by
  induction v using Value.induction with
  | null => exact .node agrees_null nofun
  | boolean b => exact .node (agrees_scalar (v := .boolean b) rfl) nofun
  | number n => exact .node (agrees_scalar (v := .number n) rfl) nofun
  | string s => exact .node (agrees_scalar (v := .string s) rfl) nofun
  | array xs ih => exact wellFormed_observeElements nofun nofun ih
  | object ms ih => exact wellFormed_observe_object.mpr ih

end Observe

theorem WellFormed.at? {s t : Schema} (sound : s.WellFormed) {path : List String}
    (reached : s.at? path = some t) : t.WellFormed := by
  induction path generalizing s with
  | nil => exact Option.some.inj reached ▸ sound
  | cons name path ih =>
    obtain ⟨u, child, reached⟩ := Option.bind_eq_some_iff.mp reached
    obtain ⟨fields, known, found⟩ := Option.bind_eq_some_iff.mp child
    cases sound with
    | node _ below => exact ih (below fields known _ (Fields.mem_of_get? found)) reached

end Schema

open Schema

namespace Forest

theorem wellFormed_add {forest : Forest} (known : ∀ entry ∈ forest, entry.2.WellFormed) (d : Value) :
    ∀ entry ∈ forest.add d, entry.2.WellFormed := by
  cases d with
  | object ms => exact wellFormed_mergeMembers known fun m _ => wellFormed_observe m.2
  | _ => exact known

theorem wellFormed_build (documents : List Value) : ∀ entry ∈ build documents, entry.2.WellFormed := by
  induction documents using List.reverseRecOn with
  | nil => exact nofun
  | append_singleton documents d ih =>
    rw [build, List.foldl_append]
    exact wellFormed_add ih d

end Forest

namespace Schema

/-- Every operation keeps schemas well formed: observing a value, joining, joining a value onto what was known,
and folding a corpus into a forest. -/
theorem wellFormed_throughout :
    (∀ v, (observe v).WellFormed) ∧
      (∀ s t : Schema, s.WellFormed → t.WellFormed → (s.join t).WellFormed) ∧
      (∀ known v, (∀ s, known = some s → s.WellFormed) → (merge known v).WellFormed) ∧
      ∀ documents path s, (Forest.build documents).at? path = some s → s.WellFormed := by
  refine ⟨wellFormed_observe, fun s t => .join, fun known v before => ?_, fun documents path s reached => ?_⟩
  · exact (wellFormed_observe v).joinOnto before
  · cases path with
    | nil => exact nomatch reached
    | cons key path =>
      obtain ⟨root, found, reached⟩ := Option.bind_eq_some_iff.mp reached
      exact (Forest.wellFormed_build documents _ (Fields.mem_of_get? found)).at? reached

/-- A place that held an array in one document, a literal in another, and an object in a third. -/
theorem wellFormed_throughout_of_disagreeing :
    let s : Schema := .node .array (some [("a", .node .null none none)]) (some [.boolean true])
    let t : Schema := .node .string none (some [.string "x", .number (.integer 1)])
    let v : Value := .object [("a", .string "x")]
    s.WellFormed ∧ t.WellFormed ∧ (s.join t).WellFormed ∧ (merge (some (s.join t)) v).WellFormed ∧
      merge (some (s.join t)) v = .node .object (some [("a", .node .string none (some [.string "x"]))])
        (some [.boolean true, .string "x", .number (.integer 1)]) := by
  intro s t v
  have left : s.WellFormed := by
    refine .node (agrees_array (Or.inl rfl) ?_) ?_
    · rintro _ ⟨⟩
      exact .singleton rfl (by decide)
    · rintro _ ⟨⟩
      exact List.forall_mem_singleton.mpr (.node agrees_null nofun)
  -- A string and a number at one place are such a join already.
  have right : t.WellFormed := (wellFormed_observe (.string "x")).join (wellFormed_observe (.number (.integer 1)))
  obtain ⟨_, join, merge, _⟩ := wellFormed_throughout
  refine ⟨left, right, join s t left right, merge _ v ?_, rfl⟩
  rintro _ ⟨⟩
  exact join s t left right

end Schema

end JsonAssist
