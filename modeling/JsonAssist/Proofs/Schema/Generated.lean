import JsonAssist.Proofs.Json.LoadedNumber
import JsonAssist.Proofs.Schema.Forest
import JsonAssist.Proofs.Schema.TooDeep

namespace JsonAssist

namespace Schema

variable {Admits : Number → Prop} {depth : Nat}

/-- The stored form of fields, that is, of the children of a schema or of a forest, fits. -/
def FieldsFit (fields : Fields Schema) (Admits : Number → Prop) (depth : Nat) : Prop :=
  (Value.object (fieldValues fields)).Fits Admits depth

theorem fits_joinFields_of {a b : Fields Schema}
    (join : ∀ entry ∈ a, ∀ {inner : Nat} {t : Schema}, entry.2.toValue.Fits Admits inner →
      t.toValue.Fits Admits inner → (entry.2.join t).toValue.Fits Admits inner)
    (left : FieldsFit a Admits depth) (right : FieldsFit b Admits depth) : FieldsFit (joinFields a b) Admits depth := by
  obtain ⟨inner, rfl, inLeft⟩ := fits_fieldValues.mp left
  obtain ⟨_, same, inRight⟩ := fits_fieldValues.mp right
  obtain rfl := Nat.succ.inj same
  refine fits_fieldValues.mpr ⟨inner, rfl, fun entry member => ?_⟩
  rcases mem_joinFields member with ⟨s, shared, joined⟩ | new
  · rw [joined, joinAt]
    cases found : Fields.get? b entry.1 with
    | none => exact inLeft _ shared
    | some t => exact join _ shared (inLeft _ shared) (inRight _ (Fields.mem_of_get? found))
  · exact inRight entry new

theorem fits_joinValues {a b : List Value} (left : (Value.array a).Fits Admits depth)
    (right : (Value.array b).Fits Admits depth) : (Value.array (joinValues a b)).Fits Admits depth := by
  obtain ⟨inner, rfl, inLeft⟩ := Value.fits_array.mp left
  obtain ⟨_, same, inRight⟩ := Value.fits_array.mp right
  obtain rfl := Nat.succ.inj same
  exact Value.fits_array.mpr ⟨inner, rfl, fun v member => (mem_joinValues member).elim (inLeft v) (inRight v)⟩

/-- A join nests no deeper than what is joined. -/
theorem fits_join {s t : Schema} (left : s.toValue.Fits Admits depth) (right : t.toValue.Fits Admits depth) :
    (s.join t).toValue.Fits Admits depth := by
  induction s using Schema.induction generalizing t depth with
  | node type children values ih =>
    obtain ⟨inner, rfl, leftFields, leftValues⟩ := fits_toValue.mp left
    obtain ⟨_, same, rightFields, rightValues⟩ := fits_toValue.mp right
    obtain rfl := Nat.succ.inj same
    refine fits_toValue.mpr ⟨inner, rfl, ?_, ?_⟩
    · rw [children_join]
      exact joinOptions_forall leftFields rightFields fun a b inLeft inRight =>
        fits_joinFields_of (fun entry member => ih a inLeft entry member) (leftFields a inLeft) (rightFields b inRight)
    · rw [values_join]
      exact joinOptions_forall leftValues rightValues fun a b inLeft inRight =>
        fits_joinValues (leftValues a inLeft) (rightValues b inRight)

theorem fits_joinFields {a b : Fields Schema} (left : FieldsFit a Admits depth) (right : FieldsFit b Admits depth) :
    FieldsFit (joinFields a b) Admits depth := fits_joinFields_of (fun _ _ => fits_join) left right

theorem fieldsFit_gather {xs : List Value} (own : ∀ x ∈ xs, (observe x).toValue.Fits Admits (depth + 1)) :
    ∀ fields, gather joinFields (xs.map elementFields) = some fields → FieldsFit fields Admits depth := by
  refine gather_forall (fun part member fields added => ?_) fun a b => fits_joinFields
  obtain ⟨x, inElements, rfl⟩ := List.mem_map.mp member
  obtain ⟨inner, same, fits, _⟩ := fits_toValue.mp (own x inElements)
  obtain rfl := Nat.succ.inj same
  exact fits fields (elementFields_eq_children added)

theorem fits_scalar {t : JsonType} {v : Value} (fits : v.Fits Admits depth) :
    (node t none (some [v])).toValue.Fits Admits (2 * depth + 2) := by
  refine fits_toValue.mpr ⟨2 * depth + 1, rfl, nofun, ?_⟩
  rintro _ ⟨⟩
  exact Value.fits_array.mpr ⟨2 * depth, rfl, List.forall_mem_singleton.mpr (fits.mono (by omega))⟩

theorem fieldsFit_nil : FieldsFit [] Admits (depth + 1) := fits_fieldValues.mpr ⟨depth, rfl, nofun⟩

theorem fits_arrayNode {fields : Option (Fields Schema)} {values : Option (List Value)}
    (children : ∀ fs, fields = some fs → FieldsFit fs Admits (depth + 1))
    (known : ∀ vs, values = some vs → (Value.array vs).Fits Admits (depth + 1)) :
    (arrayNode fields values).toValue.Fits Admits (depth + 2) := by
  cases fields with
  | some fs => exact fits_toValue.mpr ⟨depth + 1, rfl, children, known⟩
  | none =>
    cases values with
    | some vs => exact fits_toValue.mpr ⟨depth + 1, rfl, nofun, known⟩
    | none =>
      refine fits_toValue.mpr ⟨depth + 1, rfl, ?_, nofun⟩
      rintro _ ⟨⟩
      exact fieldsFit_nil

/-- Each level of a value takes two in the stored form of what it tells: one for the schema and one for its
children. -/
theorem fits_observe {v : Value} (distinct : v.NamesDistinct) (fits : v.Fits Admits depth) :
    (observe v).toValue.Fits Admits (2 * depth + 2) := by
  induction distinct generalizing depth with
  | null => exact fits_toValue.mpr ⟨2 * depth + 1, rfl, nofun, nofun⟩
  | boolean b => exact fits_scalar fits
  | number n => exact fits_scalar fits
  | string s => exact fits_scalar fits
  | @object ms names _ ih =>
    obtain ⟨depth, rfl, within⟩ := Value.fits_object.mp fits
    refine fits_toValue.mpr ⟨2 * depth + 3, by omega, ?_, nofun⟩
    rintro _ ⟨⟩
    rw [observeMembers_eq_map]
    refine fits_fieldValues.mpr ⟨2 * depth + 2, rfl, List.forall_mem_map.mpr fun m member => ?_⟩
    exact ih m member (within m member)
  | @array xs elements ih =>
    obtain ⟨depth, rfl, within⟩ := Value.fits_array.mp fits
    rw [observe_array elements]
    have fields := fieldsFit_gather fun x member => ih x member (within x member)
    have values : ∀ vs, gather joinValues (xs.map elementValues) = some vs →
        (Value.array vs).Fits Admits (2 * depth + 1) :=
      fun vs joined => Value.fits_array.mpr ⟨2 * depth, rfl, fun v member =>
        (within v (mem_gather_elementValues vs joined v member)).mono (by omega)⟩
    exact (fits_arrayNode fields values).mono (by omega)

end Schema

open Schema

namespace Forest

/-- Documents that nest `depth` deep make a forest whose stored form nests twice as deep, and one more. -/
theorem fits_build {documents : List Value} (distinct : ∀ d ∈ documents, d.NamesDistinct)
    {Admits : Number → Prop} {depth : Nat} (fits : ∀ d ∈ documents, d.Fits Admits depth) :
    FieldsFit (build documents) Admits (2 * depth + 1) := by
  rw [build_eq_gather distinct]
  cases joined : gather joinFields (documents.map elementFields) with
  | none => exact fieldsFit_nil
  | some fields =>
    exact fieldsFit_gather (fun d member => fits_observe (distinct d member) (fits d member)) fields joined

/-- What is stored for documents that were loaded loads again if it nests fewer than 128 lists and objects, as it does
where each document nests fewer than 64; otherwise it does not load. It loads as the same forest if the numbers with a
fraction or an exponent load from their own texts, and else with those replaced by what they are read as. -/
theorem load_text_build {documents : List Value} (loaded : ∀ d ∈ documents, ∃ source, Value.load source = .ok d) :
    ((build documents).toValue.nesting < 128 → load (build documents).text = .ok (build documents).reread) ∧
      ((∀ d ∈ documents, ∀ x, .real x ∈ d.numbers → Number.ComesBack (.real x)) →
        (build documents).reread = build documents) ∧
      (128 ≤ (build documents).toValue.nesting →
        ∃ e, load (build documents).text = .error e ∧ e.cause = .tooDeep) ∧
      ((∀ d ∈ documents, d.nesting < 64) → (build documents).toValue.nesting < 128) := by
  have distinct : ∀ d ∈ documents, d.NamesDistinct := fun d member =>
    have ⟨_, read⟩ := loaded d member
    Value.namesDistinct_of_load read
  have fits {Admits : Number → Prop} {depth : Nat} (shallow : ∀ d ∈ documents, d.nesting ≤ depth)
      (own : ∀ d ∈ documents, ∀ n ∈ d.numbers, Admits n) :
      (build documents).toValue.Fits Admits (2 * depth + 1) :=
    fits_build distinct fun d member => ⟨shallow d member, own d member⟩
  have readable : ∀ d ∈ documents, ∀ n ∈ d.numbers, n.Readable := fun d member =>
    have ⟨_, read⟩ := loaded d member
    Value.readable_of_load read
  have names := fieldsDistinct_build distinct
  -- Some depth bounds the documents, so that the numbers in the forest are as those in the documents.
  obtain ⟨depth, _, inside⟩ := Value.nesting_array_le.mp (Nat.le_refl (Value.array documents).nesting)
  have stored := (fits inside readable).back
  refine ⟨fun shallow => ?_, fun floats => ?_, fun deep => ?_, fun shallow => ?_⟩
  · exact load_text_of_readable names shallow stored
  · have back : ∀ d ∈ documents, ∀ n ∈ d.numbers, n.ComesBack := fun d member =>
      have ⟨_, read⟩ := loaded d member
      Value.comesBack_of_load read (floats d member)
    exact reread_of_comesBack (fits inside back)
  · exact load_text_tooDeep names stored deep
  · exact Nat.lt_succ_of_le (fits (fun d member => Nat.le_of_lt_succ (shallow d member)) readable).shallow

/-- A document with a float inside a list of mixed elements, and one that adds nothing. -/
theorem load_text_build_of_two :
    let documents : List Value :=
      [.object [("a", .array [.number (.real ⟨false, 6755399441055744, -52⟩), .object [("b", .null)]])],
        .number (.integer 3)]
    (∀ d ∈ documents, ∃ source, Value.load source = .ok d) ∧
      (∀ d ∈ documents, ∀ x, .real x ∈ d.numbers → Number.ComesBack (.real x)) ∧
      load (build documents).text = .ok (build documents) := by
  intro documents
  have float : Number.ComesBack (.real ⟨false, 6755399441055744, -52⟩) := Reader.comesBack_of_number (by decide +kernel)
  have integer : Number.ComesBack (.integer 3) := ⟨by decide, by decide⟩
  have back : ∀ d ∈ documents, ∀ n ∈ d.numbers, n.ComesBack := by
    simp [documents, Value.numbers, Value.memberNumbers, Value.elementNumbers, float, integer]
  have distinct : ∀ d ∈ documents, d.NamesDistinct := by
    simp [documents, Value.namesDistinct_object, Value.namesDistinct_array, Value.NamesDistinct.null,
      Value.NamesDistinct.number]
  have shallow : ∀ d ∈ documents, d.nesting < 64 := by decide
  have loaded : ∀ d ∈ documents, ∃ source, Value.load source = .ok d := fun d member =>
    have held : d.nesting ≤ 127 := Nat.le_trans (Nat.le_of_lt (shallow d member)) (by decide)
    ⟨_, Value.load_pretty (distinct d member) ⟨held, back d member⟩⟩
  have floats : ∀ d ∈ documents, ∀ x, .real x ∈ d.numbers → Number.ComesBack (.real x) :=
    fun d member x inside => back d member _ inside
  obtain ⟨loads, same, _, bound⟩ := load_text_build loaded
  exact ⟨loaded, floats, (loads (bound shallow)).trans (congrArg Except.ok (same floats))⟩

end Forest

/-- A number inside as many objects as are asked for. -/
def Value.chain : Nat → Value
  | 0 => .number (.integer 1)
  | n + 1 => .object [("a", chain n)]

theorem Value.namesDistinct_chain (n : Nat) : (chain n).NamesDistinct := by
  induction n with
  | zero => exact .number _
  | succ n ih => exact .object (List.nodup_singleton "a") (List.forall_mem_singleton.mpr ih)

theorem Value.fits_chain (n : Nat) : (chain n).Fits Number.ComesBack n := by
  induction n with
  | zero => exact ⟨Nat.le_refl 0, List.forall_mem_singleton.mpr ⟨by decide, by decide⟩⟩
  | succ n ih => exact fits_object.mpr ⟨n, rfl, List.forall_mem_singleton.mpr ih⟩

theorem Schema.le_of_fits_observe_chain {Admits : Number → Prop} {n depth : Nat}
    (fits : (observe (.chain n)).toValue.Fits Admits depth) :
    2 * n + 2 ≤ depth := by
  induction n generalizing depth with
  | zero =>
    obtain ⟨_, rfl, _, values⟩ := fits_toValue.mp fits
    obtain ⟨_, rfl, _⟩ := Value.fits_array.mp (values _ rfl)
    exact Nat.le_add_left ..
  | succ n ih =>
    obtain ⟨_, rfl, fields, _⟩ := fits_toValue.mp fits
    obtain ⟨inner, rfl, within⟩ := fits_fieldValues.mp (fields _ rfl)
    have := ih (within ("a", observe (.chain n)) List.mem_cons_self)
    omega

namespace Forest

/-- A document of 64 objects inside one another or more, as long as it loads, makes a forest whose text does
not load. -/
theorem load_text_build_chain {n : Nat} (deep : 64 ≤ n) (held : n ≤ 127) :
    Value.load (Value.chain n).pretty = .ok (.chain n) ∧
      ∃ e, load (build [.chain n]).text = .error e ∧ e.cause = .tooDeep := by
  have distinct : ∀ d ∈ [Value.chain n], d.NamesDistinct := List.forall_mem_singleton.mpr (Value.namesDistinct_chain n)
  have fits : FieldsFit (build [.chain n]) Number.Readable (2 * n + 1) :=
    fits_build distinct (List.forall_mem_singleton.mpr (Value.fits_of_comesBack (Value.fits_chain n)))
  have tooDeep : ¬ FieldsFit (build [.chain n]) Number.Readable 127 := fun fits => by
    obtain ⟨n, rfl⟩ := Nat.exists_eq_succ_of_ne_zero (Nat.ne_of_gt (Nat.lt_of_lt_of_le (by decide) deep))
    obtain ⟨inner, same, within⟩ := fits_fieldValues.mp fits
    have := le_of_fits_observe_chain (within ("a", observe (.chain n)) List.mem_cons_self)
    omega
  exact ⟨Value.load_pretty (Value.namesDistinct_chain n) ((Value.fits_chain n).mono held),
    Reader.TooDeep.load String.toList_ofList (Reader.tooDeep_forest (fieldsDistinct_build distinct) fits tooDeep 0)⟩

/-- Not every corpus that loads makes a forest that does. -/
theorem not_load_text_build : ¬ ∀ documents : List Value, (∀ d ∈ documents, ∃ source, Value.load source = .ok d) →
    ∃ F, load (build documents).text = .ok F := fun always => by
  obtain ⟨loaded, e, stopped, _⟩ := load_text_build_chain (Nat.le_refl 64) (by decide)
  obtain ⟨F, loads⟩ := always [.chain 64] (List.forall_mem_singleton.mpr ⟨_, loaded⟩)
  exact nomatch stopped.symm.trans loads

end Forest

end JsonAssist
