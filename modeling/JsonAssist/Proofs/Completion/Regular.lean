import JsonAssist.Proofs.Completion.Candidates
import JsonAssist.Proofs.Schema.Collected

namespace JsonAssist

/-- The value at the end of a path. -/
def Value.at? : Value → Path → Option Value
  | v, [] => some v
  | .object ms, .key name :: path => (Fields.get? ms name).bind fun v => at? v path
  | .array xs, .index i :: path => xs[i]?.bind fun v => at? v path
  | _, _ => none

/-- Whether a path has no empty name and goes from no array directly into another. -/
def Path.isPlain : Path → Bool
  | [] => true
  | .key name :: path => name != "" && isPlain path
  | .index _ :: .index _ :: _ => false
  | .index _ :: path => isPlain path

/-- Values that agree as far as completion needs it: none but `null` has another type, and no two
arrays have an object in the one and a literal in the other. -/
structure Uniform (values : List Value) : Prop where
  types : ∀ v ∈ values, ∀ w ∈ values, v ≠ .null → w ≠ .null → v.type = w.type
  elements : ∀ xs ys, .array xs ∈ values → .array ys ∈ values → xs.any Value.isObject →
    ¬ys.any Value.isScalar

/-- A corpus whose documents agree at every place. -/
def Regular (documents : List Value) : Prop := ∀ key path, Uniform (found documents key path)

/-- Nothing stands below literals. -/
theorem reached_of_literals {values : List Value} (literals : ∀ v ∈ values, v.isScalar) (path : List String) :
    reached values path = values ∨ reached values path = [] := by
  cases path with
  | nil => exact Or.inl rfl
  | cons name path =>
    have below : values.flatMap (Value.under name) = [] := List.flatMap_eq_nil_iff.mpr fun v member => by
      have literal := literals v member
      cases v <;> simp_all [Value.isScalar, Value.under]
    right
    rw [reached, List.foldl_cons, below, ← reached]
    induction path with
    | nil => rfl
    | cons name path ih => exact ih

theorem uniform_reached_of_literals {values : List Value} {t : JsonType} (literals : ∀ v ∈ values, v.isScalar)
    (types : ∀ v ∈ values, v.type = t) (path : List String) : Uniform (reached values path) := by
  rcases reached_of_literals literals path with same | none
  · rw [same]
    refine ⟨fun v member w member' _ _ => (types v member).trans (types w member').symm, ?_⟩
    intro xs _ member
    exact absurd (literals _ member) Bool.false_ne_true
  · rw [none]
    exact ⟨by simp, by simp⟩

namespace Uniform

variable {values : List Value} {s : Schema}

theorem null_or_type (uniform : Uniform values) {v w : Value} (member : v ∈ values) (notNull : v ≠ .null)
    (other : w ∈ values) : w = .null ∨ w.type = v.type := by
  by_cases null : w = .null
  · exact Or.inl null
  · exact Or.inr (uniform.types w other v member null notNull)

/-- Where objects stand no literals are known. -/
theorem values_of_object (uniform : Uniform values) (collects : s.Collects values)
    {ms : List (String × Value)} (member : .object ms ∈ values) : s.values = none := by
  have noLiterals : values.flatMap Value.literals = [] := List.flatMap_eq_nil_iff.mpr fun v other => by
    rcases uniform.null_or_type member nofun other with rfl | type
    · rfl
    · cases v <;> simp_all [Value.type, Value.literals, Value.isScalar]
  rw [collects.literals, noLiterals]
  rfl

/-- Where arrays with objects stand no literals are known. -/
theorem values_of_array (uniform : Uniform values) (collects : s.Collects values) {xs : List Value}
    (member : .array xs ∈ values) (holds : xs.any Value.isObject) : s.values = none := by
  have noLiterals : values.flatMap Value.literals = [] := List.flatMap_eq_nil_iff.mpr fun v other => by
    rcases uniform.null_or_type member nofun other with rfl | type
    · rfl
    · cases v with
      | array ys => exact List.filter_eq_nil_iff.mpr (by simpa using uniform.elements xs ys member other holds)
      | _ => simp [Value.type] at type
  rw [collects.literals, noLiterals]
  rfl

theorem type_of_array (uniform : Uniform values) (collects : s.Collects values) {xs : List Value}
    (member : .array xs ∈ values) : s.type = .array := by
  obtain ⟨v, other, type⟩ := collects.typeFound
  have dominant := collects.dominant _ member
  rcases uniform.null_or_type member nofun other with rfl | same
  · simp [type, Value.type, JsonType.rank] at dominant
  · exact type.trans same

end Uniform

namespace Schema.Collects

variable {values : List Value} {s : Schema}

theorem exists_values (collects : s.Collects values) {v w : Value} (member : v ∈ values)
    (literal : w ∈ v.literals) : ∃ known, s.values = some known ∧ w.isIn known := by
  have inLiterals : w ∈ values.flatMap Value.literals := List.mem_flatMap.mpr ⟨v, member, literal⟩
  have notEmpty : values.flatMap Value.literals ≠ [] := List.ne_nil_of_mem inLiterals
  have scalars := Value.forall_isScalar_flatMap_literals values
  refine ⟨_, by rw [collects.literals, Value.firstSeen?, if_neg notEmpty], ?_⟩
  rw [← Value.joinValues_nil_eq_eraseDupsBy scalars, Value.isIn_joinValues]
  exact Or.inr (Value.isIn_of_mem (Value.namesDistinct_of_isScalar (scalars w inLiterals)) inLiterals)

theorem exists_children (collects : s.Collects values) {v : Value} (member : v ∈ values)
    (container : v.isContainer) :
    ∃ fields, s.children = some fields ∧ ∀ name ∈ v.namesUnder, name ∈ Fields.names fields := by
  obtain ⟨fields, known⟩ := Option.isSome_iff_exists.mp (collects.container.mpr ⟨v, member, container⟩)
  refine ⟨fields, known, fun name inNames => ?_⟩
  have names := collects.names
  rw [known, Option.getD_some] at names
  rw [names, List.mem_eraseDups]
  exact List.mem_flatMap.mpr ⟨v, member, inNames⟩

end Schema.Collects

/-- A place that is found in a forest offers what stands there: an equal literal, or the names of an
object and no literals. -/
structure Resolved.Offers (here : Resolved) (v : Value) : Prop where
  literal : v.isScalar → ∃ known, here.values = some known ∧ v.isIn known
  names : ∀ ms, v = .object ms → here.values = none ∧
    ∃ properties, here.properties = some properties ∧ ∀ name ∈ Fields.names ms, name ∈ Fields.names properties

theorem Step.not_isEmpty_index (i : Nat) : ¬(Step.index i).isEmpty := Bool.false_ne_true

open Schema

/-- A schema is what is seen of some values that agree, as all do that are reached from them. -/
structure Schema.Pictures (s : Schema) (values : List Value) : Prop where
  distinct : ∀ v ∈ values, v.NamesDistinct
  uniform : ∀ names, Uniform (reached values names)
  seen : observeAll values = some s

section Following

variable {values : List Value} {s : Schema} {v w : Value}

theorem Schema.Pictures.collects (pictures : s.Pictures values) : s.Collects values :=
  collects_observeAll pictures.distinct pictures.seen

theorem Schema.Pictures.child (pictures : s.Pictures values) {name : String}
    (member : w ∈ values.flatMap (Value.under name)) :
    ∃ t, s.child? name = some t ∧ t.Pictures (values.flatMap (Value.under name)) := by
  have child := child?_observeAll pictures.distinct name
  rw [pictures.seen, Option.bind_some] at child
  obtain ⟨t, below⟩ := Option.isSome_iff_exists.mp (observeAll_isSome.mpr (List.ne_nil_of_mem member))
  exact ⟨t, child.trans below, namesDistinct_flatMap_under pictures.distinct name,
    fun names => pictures.uniform (name :: names), below⟩

namespace Resolved

/-- At a value itself, its schema offers it. -/
theorem offers_node (pictures : s.Pictures values) (member : v ∈ values) : (node s).Offers v where
  literal isScalar := by
    refine pictures.collects.exists_values member ?_
    cases v <;> simp_all [Value.literals, Value.isScalar]
  names ms isObject := by
    subst isObject
    exact ⟨(pictures.uniform []).values_of_object pictures.collects member,
      pictures.collects.exists_children member rfl⟩

/-- An index leads to the literals known of an array whose element is one. -/
theorem step_index_of_literal (pictures : s.Pictures values) {xs : List Value} (member : .array xs ∈ values)
    (element : v ∈ xs) (literal : v.isScalar) (i : Nat) :
    ∃ known, (node s).step (.index i) = some (.elements known) ∧ v.isIn known := by
  have isArray := (pictures.uniform []).type_of_array pictures.collects member
  obtain ⟨known, atValues, isIn⟩ :=
    pictures.collects.exists_values member (List.mem_filter.mpr ⟨element, literal⟩)
  cases known with
  | nil => simp [Value.isIn] at isIn
  | cons k ks => exact ⟨k :: ks, by simp [step, isArray, elementsOf, atValues], isIn⟩

/-- An index leads to the fields of an array whose element is an object. -/
theorem step_index_of_object (pictures : s.Pictures values) {xs : List Value} (member : .array xs ∈ values)
    {ms : List (String × Value)} (element : .object ms ∈ xs) (i : Nat) :
    ∃ fs, (node s).step (.index i) = some (.fields fs) ∧ s.children = some fs ∧
      ∀ name ∈ Fields.names ms, name ∈ Fields.names fs := by
  have isArray := (pictures.uniform []).type_of_array pictures.collects member
  have holds : xs.any Value.isObject := List.any_eq_true.mpr ⟨_, element, rfl⟩
  have noValues := (pictures.uniform []).values_of_array pictures.collects member holds
  have container : (Value.array xs).isContainer := by simp only [Value.isContainer, holds, Bool.true_or]
  obtain ⟨fs, children, names⟩ := pictures.collects.exists_children member container
  refine ⟨fs, by simp [step, isArray, elementsOf, noValues, children], children, fun name inNames => ?_⟩
  exact names name (List.mem_flatMap.mpr ⟨_, element, inNames⟩)

theorem follow_of_step {here next : Resolved} {first : Step} {rest : Path} (named : ¬first.isEmpty)
    (enters : here.step first = some next) : here.follow (first :: rest) = next.follow rest := by
  simp [follow, named, enters]

/-- What stands at the end of a path in one of some values is offered where the path leads from their
schema. -/
theorem offers_follow : ∀ (path : Path) {values : List Value} {s : Schema} {v w : Value},
    path.isPlain → s.Pictures values → v ∈ values → v.at? path = some w → ((node s).follow path).Offers w
  | [], values, s, v, w, _, pictures, member, atEnd => by
    cases atEnd
    exact offers_node pictures member
  | .key name :: path, values, s, v, w, plain, pictures, member, atEnd => by
    simp only [Path.isPlain, Bool.and_eq_true, bne_iff_ne] at plain
    cases v with
    | object ms =>
      obtain ⟨v', present, atEnd'⟩ := Option.bind_eq_some_iff.mp atEnd
      have below : v' ∈ values.flatMap (Value.under name) :=
        List.mem_flatMap.mpr ⟨_, member, Option.mem_toList.mpr present⟩
      obtain ⟨t, child, pictures'⟩ := pictures.child below
      rw [follow_of_step (by simpa [Step.isEmpty] using plain.1) (by rw [step, child]; rfl)]
      exact offers_follow path plain.2 pictures' below atEnd'
    | _ => simp [Value.at?] at atEnd
  | [.index i], values, s, v, w, _, pictures, member, atEnd => by
    cases v with
    | array xs =>
      obtain ⟨v', present, same⟩ := Option.bind_eq_some_iff.mp atEnd
      cases same
      have element := List.mem_of_getElem? present
      refine ⟨fun literal => ?_, ?_⟩
      · obtain ⟨known, enters, isIn⟩ := step_index_of_literal pictures member element literal i
        rw [follow_of_step (Step.not_isEmpty_index i) enters]
        exact ⟨known, rfl, isIn⟩
      · rintro ms rfl
        obtain ⟨fs, enters, _, names⟩ := step_index_of_object pictures member element i
        rw [follow_of_step (Step.not_isEmpty_index i) enters]
        exact ⟨rfl, fs, rfl, names⟩
    | _ => simp [Value.at?] at atEnd
  | .index i :: .key name :: path, values, s, v, w, plain, pictures, member, atEnd => by
    simp only [Path.isPlain, Bool.and_eq_true, bne_iff_ne] at plain
    cases v with
    | array xs =>
      obtain ⟨x, present, atRest⟩ := Option.bind_eq_some_iff.mp atEnd
      have element := List.mem_of_getElem? present
      cases x with
      | object ms =>
        obtain ⟨v', present', atEnd'⟩ := Option.bind_eq_some_iff.mp atRest
        have below : v' ∈ values.flatMap (Value.under name) :=
          List.mem_flatMap.mpr ⟨_, member, List.mem_filterMap.mpr ⟨_, element, present'⟩⟩
        obtain ⟨t, child, pictures'⟩ := pictures.child below
        obtain ⟨fs, enters, children, _⟩ := step_index_of_object pictures member element i
        rw [child?, children, Option.bind_some] at child
        rw [follow_of_step (Step.not_isEmpty_index i) enters,
          follow_of_step (by simpa [Step.isEmpty] using plain.1) (by rw [step, child]; rfl)]
        exact offers_follow path plain.2 pictures' below atEnd'
      | _ => simp [Value.at?] at atRest
    | _ => simp [Value.at?] at atEnd
  | .index _ :: .index _ :: _, _, _, _, _, plain, _, _, _ => by simp [Path.isPlain] at plain

end Resolved

end Following

/-- A zero that was written with a fraction or an exponent, of either sign. -/
def Value.isRealZero : Value → Bool
  | .number (.real x) => x.isZero
  | _ => false

/-- Equal literals are the same one, zeros apart. -/
theorem Value.eq_of_same {v w : Value} (literal : w.isScalar) (equal : v.same w) :
    v = w ∨ w.isRealZero := by
  cases w with
  | boolean | string => cases v <;> simp_all [same]
  | number n =>
    cases v <;> simp only [same, Bool.false_eq_true] at equal
    next m =>
      cases m <;> cases n <;>
        simp only [Number.same, Double.same_iff, Bool.false_eq_true, beq_iff_eq] at equal
      · exact Or.inl (by rw [equal])
      next x y =>
        obtain ⟨significand, exponent, sign | zero⟩ := equal
        · cases x
          cases y
          simp_all
        · exact Or.inr (by simp [isRealZero, Double.isZero, zero, ← significand])
  | _ => simp [isScalar] at literal

namespace Completion

open Schema

theorem offers_resolve {documents : List Value} (distinct : ∀ d ∈ documents, d.NamesDistinct)
    (regular : Regular documents) {members : List (String × Value)} (member : .object members ∈ documents)
    {path : Path} (plain : path.isPlain) {w : Value} (atEnd : (Value.object members).at? path = some w) :
    ((Forest.build documents).resolve path).Offers w := by
  cases path with
  | nil =>
    cases atEnd
    refine ⟨nofun, ?_⟩
    rintro _ ⟨rfl⟩
    refine ⟨rfl, Forest.build documents, rfl, fun name inNames => ?_⟩
    rw [Forest.names_build distinct, List.mem_eraseDups]
    exact List.mem_flatMap.mpr ⟨_, member, inNames⟩
  | cons first path =>
    cases first with
    | index => simp [Value.at?] at atEnd
    | key name =>
      simp only [Path.isPlain, Bool.and_eq_true, bne_iff_ne] at plain
      obtain ⟨v, present, atEnd⟩ := Option.bind_eq_some_iff.mp atEnd
      have inField : v ∈ documents.filterMap (Value.field? name) :=
        List.mem_filterMap.mpr ⟨_, member, present⟩
      obtain ⟨s, seen⟩ := Option.isSome_iff_exists.mp (observeAll_isSome.mpr (List.ne_nil_of_mem inField))
      have pictures : s.Pictures (documents.filterMap (Value.field? name)) :=
        ⟨namesDistinct_filterMap_field distinct name, regular name, seen⟩
      have enters : (Resolved.forest (Forest.build documents)).step (.key name) = some (.node s) := by
        rw [Resolved.step, Forest.get?_build distinct, seen]
        rfl
      rw [Forest.resolve, Resolved.follow_of_step (by simpa [Step.isEmpty] using plain.1) enters]
      exact Resolved.offers_follow path plain.2 pictures inField atEnd

/-- A regular corpus is completed from its own schema. At a place that a document of it has, its own
literal is offered, or for a zero one of the two zeros, and the names of its object that are not taken
yet. -/
theorem plan_completes (documents : List Value) (distinct : ∀ d ∈ documents, d.NamesDistinct)
    (regular : Regular documents) (members : List (String × Value)) (member : .object members ∈ documents)
    (path : Path) (plain : path.isPlain) (replace : Option (Nat × Nat)) (existing : List String) :
    (∀ s, (Value.object members).at? path = some s → s.isScalar →
      ∃ c ∈ plan (Forest.build documents) ⟨path, .value, existing, replace⟩, c.kind = .value ∧
        (c.label = s.compact ∨
          s.isRealZero ∧ ∃ zero : Value, zero.same s ∧ c.label = zero.compact)) ∧
      ∀ ms, (Value.object members).at? path = some (.object ms) → ∀ name ∈ Fields.names ms, name ∉ existing →
        ∃ c ∈ plan (Forest.build documents) ⟨path, .property, existing, replace⟩,
          c.kind = .property ∧ c.label = name := by
  refine ⟨fun s atEnd literal => ?_, fun ms atEnd name inNames free => ?_⟩
  · obtain ⟨known, values, isIn⟩ := (offers_resolve distinct regular member plain atEnd).literal literal
    obtain ⟨v, inKnown, equal⟩ := Value.isIn_iff.mp isIn
    rw [plan_of_values values (List.ne_nil_of_mem inKnown)]
    obtain ⟨c, inPlan, label⟩ := List.mem_map.mp (mem_labels_valueCandidates.mpr ⟨v, inKnown, rfl⟩)
    refine ⟨c, inPlan, kind_of_mem_valueCandidates inPlan, ?_⟩
    rcases Value.eq_of_same literal equal with rfl | isZero
    · exact Or.inl label
    · exact Or.inr ⟨isZero, v, equal, label⟩
  · obtain ⟨noValues, properties, known, names⟩ :=
      (offers_resolve distinct regular member plain atEnd).names ms rfl
    rw [plan_of_properties noValues known rfl]
    exact exists_propertyCandidate (names name inNames) free

/-- Two documents with arrays of objects under one name, one of them with a null among the objects. -/
theorem plan_completes_elements :
    let first : List (String × Value) := [("Items", .array [.object [("id", .string "a")], .null])]
    let second : List (String × Value) := [("Items", .array [.object [("id", .string "b")]])]
    let documents : List Value := [.object first, .object second]
    (∀ d ∈ documents, d.NamesDistinct) ∧ Regular documents ∧
      (∃ c ∈ plan (Forest.build documents) ⟨[.key "Items", .index 0, .key "id"], .value, [], none⟩,
        c.kind = .value ∧ c.label = (Value.string "a").compact) ∧
      ∃ c ∈ plan (Forest.build documents) ⟨[.key "Items", .index 0], .property, ["name"], none⟩,
        c.kind = .property ∧ c.label = "id" := by
  intro first second documents
  have distinct : ∀ d ∈ documents, d.NamesDistinct := by
    simp [documents, first, second, Value.namesDistinct_object, Value.namesDistinct_array,
      Value.NamesDistinct.string, Value.NamesDistinct.null]
  have regular : Regular documents := by
    intro key path
    by_cases items : "Items" = key
    · subst items
      cases path with
      | nil =>
        have arrays : found documents "Items" [] =
            [.array [.object [("id", .string "a")], .null], .array [.object [("id", .string "b")]]] := rfl
        rw [arrays]
        refine ⟨by simp [Value.type], fun xs ys _ other _ => ?_⟩
        simp only [List.mem_cons, Value.array.injEq, List.not_mem_nil, or_false] at other
        rcases other with rfl | rfl <;> simp [Value.isScalar]
      | cons name path =>
        by_cases id : "id" = name
        · subst id
          exact uniform_reached_of_literals (t := .string) (by decide) (by decide) path
        · have none : (documents.filterMap (Value.field? "Items")).flatMap (Value.under name) = [] := by
            simp [documents, first, second, Value.field?, Value.under, Fields.get?, id]
          rw [found, reached, List.foldl_cons, none]
          exact uniform_reached_of_literals (t := .string) (by simp) (by simp) path
    · have none : documents.filterMap (Value.field? key) = [] := by
        simp [documents, first, second, Value.field?, Fields.get?, items]
      rw [found, none]
      exact uniform_reached_of_literals (t := .string) (by simp) (by simp) path
  have member : Value.object first ∈ documents := List.mem_cons_self
  obtain ⟨literals, _⟩ :=
    plan_completes documents distinct regular first member [.key "Items", .index 0, .key "id"] rfl none []
  obtain ⟨_, names⟩ :=
    plan_completes documents distinct regular first member [.key "Items", .index 0] rfl none ["name"]
  obtain ⟨c, inPlan, kind, label | ⟨zero, _⟩⟩ := literals (.string "a") rfl rfl
  · exact ⟨distinct, regular, ⟨c, inPlan, kind, label⟩,
      names [("id", .string "a")] rfl "id" List.mem_cons_self (by decide)⟩
  · exact absurd zero Bool.false_ne_true

/-- Without the exceptions this fails: a document that is no object adds nothing to a forest, and of two
zeros only the first one is kept. -/
theorem plan_misses_literals :
    let word : Value := .string "x"
    let zero : Value := .number (.real (.zero false))
    let negative : Value := .number (.real (.zero true))
    let zeros : List Value := [.object [("a", zero)], .object [("a", negative)]]
    (Regular [word] ∧ word.NamesDistinct ∧ word.at? [] = some word ∧ word.isScalar ∧
      ∀ c ∈ plan (Forest.build [word]) ⟨[], .value, [], none⟩, c.label ≠ word.compact) ∧
    Regular zeros ∧ (∀ d ∈ zeros, d.NamesDistinct) ∧
      (Value.object [("a", negative)]).at? [.key "a"] = some negative ∧ negative.isScalar ∧
      ∀ c ∈ plan (Forest.build zeros) ⟨[.key "a"], .value, [], none⟩, c.label ≠ negative.compact := by
  intro word zero negative zeros
  refine ⟨⟨fun key path => ?_, .string "x", rfl, rfl, ?_⟩, fun key path => ?_, ?_, rfl, rfl, ?_⟩
  · exact uniform_reached_of_literals (t := .string) (by simp [word, Value.field?])
      (by simp [word, Value.field?]) path
  · decide
  · by_cases same : "a" = key
    · subst same
      exact uniform_reached_of_literals (t := .number) (by decide) (by decide) path
    · exact uniform_reached_of_literals (t := .number) (by simp [zeros, Value.field?, Fields.get?, same])
        (by simp [zeros, Value.field?, Fields.get?, same]) path
  · simp [zeros, zero, negative, Value.namesDistinct_object, Value.NamesDistinct.number]
  · intro c member same
    have known : ((Forest.build zeros).resolve [.key "a"]).values = some [zero] := rfl
    rw [plan_of_values known (by simp)] at member
    obtain ⟨v, inKnown, text⟩ := mem_labels_valueCandidates.mp (List.mem_map.mpr ⟨c, member, same⟩)
    rw [List.mem_singleton.mp inKnown] at text
    exact absurd text (by decide +kernel)

end Completion

end JsonAssist
