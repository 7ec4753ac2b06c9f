import JsonAssist.Schema.Persisted
import JsonAssist.Proofs.Json.WrittenValue
import JsonAssist.Proofs.Schema.Absorption

namespace JsonAssist

namespace JsonType

@[simp] theorem ofName?_name (t : JsonType) : ofName? t.name = some t := by
  cases t <;> decide

end JsonType

namespace Schema

theorem fieldValues_eq (fields : Fields Schema) :
    fieldValues fields = fields.map fun entry => (entry.1, entry.2.toValue) := by
  induction fields with
  | nil => rfl
  | cons entry fields ih => rw [fieldValues, ih, List.map_cons]

section Fits

variable {Admits : Number → Prop} {depth : Nat}

theorem fits_fieldValues {fields : Fields Schema} : (Value.object (fieldValues fields)).Fits Admits depth ↔
    ∃ inner, depth = inner + 1 ∧ ∀ entry ∈ fields, entry.2.toValue.Fits Admits inner := by
  simp only [Value.fits_object, fieldValues_eq, List.forall_mem_map]

/-- The stored form of a schema fits if those of its parts do, a level further in. -/
theorem fits_toValue {s : Schema} : s.toValue.Fits Admits depth ↔ ∃ inner, depth = inner + 1 ∧
    (∀ fields, s.children = some fields → (Value.object (fieldValues fields)).Fits Admits inner) ∧
      ∀ known, s.values = some known → (Value.array known).Fits Admits inner := by
  obtain ⟨t, c, v⟩ := s
  have name (inner : Nat) : (Value.string t.name).Fits Admits inner := ⟨Nat.zero_le _, nofun⟩
  rw [toValue, Value.fits_object]
  cases c <;> cases v <;> simp [childrenPart, valuesPart, children, values, name]

end Fits

mutual

/-- The schema with each number in it replaced by what its text is read as. -/
def reread : Schema → Schema
  | .node t c v => .node t (rereadChildren c) (v.map fun known => known.map Value.reread)

def rereadChildren : Option (List (String × Schema)) → Option (List (String × Schema))
  | none => none
  | some fields => some (rereadFields fields)

def rereadFields : List (String × Schema) → List (String × Schema)
  | [] => []
  | (name, s) :: rest => (name, reread s) :: rereadFields rest

end

theorem rereadFields_eq (fields : Fields Schema) :
    rereadFields fields = fields.map fun entry => (entry.1, entry.2.reread) := by
  induction fields with
  | nil => rfl
  | cons entry fields ih => rw [rereadFields, ih, List.map_cons]

theorem rereadChildren_eq (c : Option (Fields Schema)) : rereadChildren c = c.map rereadFields := by cases c <;> rfl

theorem rereadFields_eq_self {fields : Fields Schema} (same : ∀ entry ∈ fields, entry.2.reread = entry.2) :
    rereadFields fields = fields := by
  have entries : fields.map (fun entry => (entry.1, entry.2.reread)) = fields.map id :=
    List.map_congr_left fun entry member => Prod.ext rfl (same entry member)
  rw [rereadFields_eq, entries, List.map_id]

/-- A schema whose numbers come back is read as it was. -/
theorem reread_of_comesBack {s : Schema} {depth : Nat} (fits : s.toValue.Fits Number.ComesBack depth) :
    s.reread = s := by
  induction s using Schema.induction generalizing depth with
  | node t c v ih =>
    obtain ⟨inner, rfl, fitFields, fitValues⟩ := fits_toValue.mp fits
    have children : c.map rereadFields = c := by
      cases c with
      | none => rfl
      | some fields =>
        obtain ⟨inner, rfl, within⟩ := fits_fieldValues.mp (fitFields fields rfl)
        exact congrArg some (rereadFields_eq_self fun entry member => ih fields rfl entry member (within entry member))
    have values : (v.map fun known => known.map Value.reread) = v := by
      cases v with
      | none => rfl
      | some known =>
        obtain ⟨inner, rfl, within⟩ := Value.fits_array.mp (fitValues known rfl)
        have same : known.map Value.reread = known.map id :=
          List.map_congr_left fun w member => Value.reread_of_comesBack (within w member).back
        exact congrArg some (same.trans (List.map_id known))
    rw [reread, rereadChildren_eq, children, values]

end Schema

namespace Reader

variable {L : Layout} {level depth : Nat}

section Parts

variable {types : Reader JsonType} {children : Reader (Option (Fields Schema))}
variable {values : Reader (Option (List Value))} {parts : Schema.Parts}

theorem passesBlank_optional {α : Type} (r : Reader α) : (optional r).PassesBlank := passesBlank_peek _

theorem passesBlank_jsonType (depth : Nat) : (jsonType depth).PassesBlank := passesBlank_peek _

theorem passesBlank_schema (depth : Nat) : (schema depth).PassesBlank := by
  cases depth with
  | zero => exact passesBlank_peek _
  | succ depth => cases depth <;> exact passesBlank_peek _

theorem reads_jsonType (t : JsonType) : (jsonType depth).Reads (L.text level (.string t.name)) t := by
  intro rest _
  have named : stringOnly "variant identifier" (quoteChars t.name.toList ++ rest) = .ok (t.name, rest) :=
    string_quoteChars t.name rest
  rw [L.leaf level _ rfl]
  change typeName (quoteChars t.name.toList ++ rest) = _
  rw [typeName, bind_apply named, JsonType.ofName?_name]
  rfl

section Dispatch

variable {α : Type} (xs : List Value) (ms : List (String × Value)) (rest : List Char)

theorem optional_array (r : Reader α) : optional r (L.text level (.array xs) ++ rest) =
    (some <$> r) (L.text level (.array xs) ++ rest) := by
  rw [L.array]
  cases xs <;> rfl

theorem optional_object (r : Reader α) : optional r (L.text level (.object ms) ++ rest) =
    (some <$> r) (L.text level (.object ms) ++ rest) := by
  rw [L.object]
  cases ms <;> rfl

theorem listOnly_array (item : Nat → Reader α) : listOnly depth item (L.text level (.array xs) ++ rest) =
    nested depth (fun depth => list (item depth)) (L.text level (.array xs) ++ rest) := by
  rw [L.array]
  cases xs <;> rfl

theorem fieldsOnly_object (item : Nat → Reader α) :
    fieldsOnly depth item (L.text level (.object ms) ++ rest) =
      nested depth (fun depth => fields (item depth)) (L.text level (.object ms) ++ rest) := by
  rw [L.object]
  cases ms <;> rfl

end Dispatch

theorem schemaMember_type (fresh : parts.type = none) : schemaMember types children values parts "type" =
    (fun t => { parts with type := some t }) <$> memberValue "type" types := by
  rw [schemaMember, if_pos rfl, fresh]
  rfl

theorem schemaMember_children (fresh : parts.children = none) :
    schemaMember types children values parts "children" =
      (fun c => { parts with children := some c }) <$> memberValue "children" children := by
  rw [schemaMember, if_neg (by decide), if_pos rfl, fresh]
  rfl

theorem schemaMember_values (fresh : parts.values = none) :
    schemaMember types children values parts "values" =
      (fun v => { parts with values := some v }) <$> memberValue "values" values := by
  rw [schemaMember, if_neg (by decide), if_neg (by decide), if_pos rfl, fresh]
  rfl

theorem reads_typeMember (fresh : parts.type = none) (t : JsonType) :
    (schemaMember (jsonType depth) children values parts "type").Reads
      (L.memberText level (.string t.name)) { parts with type := some t } := by
  rw [schemaMember_type fresh]
  exact (Layout.reads_memberValue (passesBlank_jsonType depth) (reads_jsonType t) "type").map _

theorem reads_childrenMember {item : Reader (Fields Schema)} {ms : List (String × Value)} {fields : Fields Schema}
    (fresh : parts.children = none) (own : item.Reads (L.text level (.object ms)) fields) :
    (schemaMember types (optional item) values parts "children").Reads
      (L.memberText level (.object ms)) { parts with children := some (some fields) } := by
  rw [schemaMember_children fresh]
  have present := (own.map some).of_eq fun rest => optional_object ms rest item
  exact (Layout.reads_memberValue (passesBlank_optional item) present "children").map _

theorem reads_valuesMember {item : Reader (List Value)} {known read : List Value} (fresh : parts.values = none)
    (own : item.Reads (L.text level (.array known)) read) :
    (schemaMember types children (optional item) parts "values").Reads
      (L.memberText level (.array known)) { parts with values := some (some read) } := by
  rw [schemaMember_values fresh]
  have present := (own.map some).of_eq fun rest => optional_array known rest item
  exact (Layout.reads_memberValue (passesBlank_optional item) present "values").map _

/-- The members of a stored schema are read as its parts. -/
theorem folds_parts {fieldsItem : Reader (Fields Schema)} {listItem : Reader (List Value)} (t : JsonType)
    {c : Option (Fields Schema)} {v : Option (List Value)}
    (readChildren : ∀ fields, c = some fields →
      fieldsItem.Reads (L.text (level + 1) (.object (Schema.fieldValues fields))) (Schema.rereadFields fields))
    (readValues : ∀ known, v = some known →
      listItem.Reads (L.text (level + 1) (.array known)) (known.map Value.reread)) :
    L.Folds (schemaMember (jsonType depth) (optional fieldsItem) (optional listItem)) level .start
      (("type", .string t.name) :: (Schema.childrenPart c ++ Schema.valuesPart v))
      ⟨some t, (c.map Schema.rereadFields).map some, (v.map fun known => known.map Value.reread).map some⟩ := by
  have last (c : Option (Option (Fields Schema))) :
      L.Folds (schemaMember (jsonType depth) (optional fieldsItem) (optional listItem)) level ⟨some t, c, none⟩
        (Schema.valuesPart v) ⟨some t, c, (v.map fun known => known.map Value.reread).map some⟩ := by
    cases v with
    | none => exact .nil _
    | some known => exact .cons (reads_valuesMember rfl (readValues known rfl)) (.nil _)
  refine .cons (reads_typeMember rfl t) ?_
  cases c with
  | none => exact last none
  | some fields => exact .cons (reads_childrenMember rfl (readChildren fields rfl)) (last _)

/-- A schema reads back, its numbers as what their texts are read as, if its parts do. -/
theorem reads_schemaWith {children : Reader (Fields Schema)} {t : JsonType} {c : Option (Fields Schema)}
    {v : Option (List Value)}
    (readChildren : ∀ fields, c = some fields →
      children.Reads (L.text (level + 1) (.object (Schema.fieldValues fields))) (Schema.rereadFields fields))
    (readValues : ∀ known, v = some known →
      (listOnly depth value).Reads (L.text (level + 1) (.array known)) (known.map Value.reread)) :
    (schema.schemaWith depth children).Reads (L.text level (Schema.node t c v).toValue)
      (Schema.node t c v).reread := by
  intro rest _
  obtain ⟨inside, text, read⟩ := (folds_parts t readChildren readValues).membersFrom_object rest
  rw [Schema.toValue, List.cons_append, text, schema.schemaWith, peek_bind_cons _ _ rfl]
  change (drop >>= fun _ => _) _ = _
  rw [drop_bind, look_bind, bind_apply read]
  change (tryCloseObject >>= fun _ => _) _ = _
  rw [bind_apply (tryCloseObject_apply rest), pure_apply, Schema.reread, Schema.rereadChildren_eq]
  cases c <;> cases v <;> rfl

end Parts

/-- The children of a schema are read as a forest is, a level further in. -/
theorem schema_succ (depth : Nat) : schema (depth + 1) = schema.schemaWith depth (fieldsOnly depth schema) := by
  cases depth <;> rfl

theorem reads_fieldsOnly_of {fields : Fields Schema} (names : (Fields.names fields).Nodup)
    (own : ∀ entry ∈ fields, ∀ {inner}, entry.2.toValue.Fits Number.Readable inner →
      ∀ level, (schema inner).Reads (L.text level entry.2.toValue) entry.2.reread)
    (fits : (Value.object (Schema.fieldValues fields)).Fits Number.Readable depth) (level : Nat) :
    (fieldsOnly depth schema).Reads (L.text level (.object (Schema.fieldValues fields)))
      (Schema.rereadFields fields) := by
  obtain ⟨inner, rfl, within⟩ := Schema.fits_fieldValues.mp fits
  rw [Schema.fieldValues_eq, Schema.rereadFields_eq]
  have inside := Layout.reads_fields (passesBlank_schema inner) Schema.toValue names fun entry member =>
    own entry member (within entry member) (level + 1)
  exact inside.of_eq fun rest => fieldsOnly_object _ rest schema

theorem reads_listOnly {known : List Value} (distinct : ∀ v ∈ known, v.NamesDistinct)
    (fits : (Value.array known).Fits Number.Readable depth) (level : Nat) :
    (listOnly depth value).Reads (L.text level (.array known)) (known.map Value.reread) := by
  obtain ⟨inner, rfl, within⟩ := Value.fits_array.mp fits
  have own := Layout.reads_list (L := L) fun x member =>
    Layout.reads_value (distinct x member) (within x member) (level + 1)
  exact own.of_eq fun rest => listOnly_array known rest value

/-- A schema reads back, its numbers as what their texts are read as, if its names are distinct and its stored form
fits. -/
theorem reads_schema {s : Schema} (distinct : s.NamesDistinct) {depth : Nat}
    (fits : s.toValue.Fits Number.Readable depth) (level : Nat) :
    (schema depth).Reads (L.text level s.toValue) s.reread := by
  induction distinct generalizing depth level with
  | @node t c v names below values ih =>
    obtain ⟨depth, rfl, fitFields, fitValues⟩ := Schema.fits_toValue.mp fits
    rw [schema_succ]
    exact reads_schemaWith
      (fun fields present => reads_fieldsOnly_of (names fields present) (ih fields present)
        (fitFields fields present) (level + 1))
      fun known present => reads_listOnly (values known present) (fitValues known present) (level + 1)

/-- A forest reads back, its numbers as what their texts are read as, if its names are distinct and its stored form
fits. -/
theorem reads_forest {F : Forest} (distinct : Schema.FieldsDistinct F) (fits : F.toValue.Fits Number.Readable depth)
    (level : Nat) : (fieldsOnly depth schema).Reads (F.toValue.prettyChars level) (Schema.rereadFields F) :=
  reads_fieldsOnly_of (L := Value.severalLines) distinct.names
    (fun entry member _ fits => reads_schema (distinct.below entry member) fits) fits level

end Reader

namespace Forest

/-- The forest with each number in it replaced by what its text is read as. -/
def reread (F : Forest) : Forest := Schema.rereadFields F

theorem reread_of_comesBack {F : Forest} {depth : Nat} (fits : F.toValue.Fits Number.ComesBack depth) :
    F.reread = F := by
  obtain ⟨inner, rfl, within⟩ := Schema.fits_fieldValues.mp fits
  exact Schema.rereadFields_eq_self fun entry member => Schema.reread_of_comesBack (within entry member)

/-- A forest loads from the text in which it is stored, its numbers as what their texts are read as, if that text nests
fewer than 128 lists and objects. -/
theorem load_text_of_readable {F : Forest} (distinct : Schema.FieldsDistinct F) (shallow : F.toValue.nesting < 128)
    (readable : ∀ n ∈ F.toValue.numbers, n.Readable) : load F.text = .ok F.reread :=
  Reader.load_of_reads String.toList_ofList (Reader.reads_forest distinct ⟨Nat.le_of_lt_succ shallow, readable⟩ 0)

/-- A forest loads from the text in which it is stored, if that text nests fewer than 128 lists and objects
and each of its numbers loads from its own text. -/
theorem load_text {F : Forest} (distinct : Schema.FieldsDistinct F) (shallow : F.toValue.nesting < 128)
    (back : ∀ n ∈ F.toValue.numbers, n.ComesBack) : load F.text = .ok F := by
  have loads := load_text_of_readable distinct shallow fun n member => (back n member).readable
  rwa [reread_of_comesBack ⟨Nat.le_refl _, back⟩] at loads

/-- All four shapes, with parts that are there but empty, names and strings that need escapes, and values of
several kinds. -/
theorem load_text_all_shapes :
    let stored : Forest :=
      [("a\"\n", .node .object (some [("", .node .null none none), ("é", .node .boolean none (some []))]) none),
        ("😀", .node .array (some []) (some [.number (.real ⟨false, 6755399441055744, -52⟩), .string "\\\u0001",
          .array [.null, .object [("k", .number (.integer (-3)))]]]))]
    Schema.FieldsDistinct stored ∧ stored.toValue.nesting < 128 ∧
      (∀ n ∈ stored.toValue.numbers, n.ComesBack) ∧ Forest.load stored.text = .ok stored := by
  intro stored
  have distinct : Schema.FieldsDistinct stored := ⟨by decide, by
    simp [-Prod.forall, stored, Schema.namesDistinct_node, Value.namesDistinct_object, Value.namesDistinct_array,
      Value.NamesDistinct.null, Value.NamesDistinct.string, Value.NamesDistinct.number]⟩
  have shallow : stored.toValue.nesting < 128 := by decide
  have back : ∀ n ∈ stored.toValue.numbers, n.ComesBack := by
    have numbers : stored.toValue.numbers = [.real ⟨false, 6755399441055744, -52⟩, .integer (-3)] := by rfl
    rw [numbers, List.forall_mem_cons, List.forall_mem_singleton]
    exact ⟨Reader.comesBack_of_number (by decide +kernel), by decide, by decide⟩
  exact ⟨distinct, shallow, back, load_text distinct shallow back⟩

end Forest

end JsonAssist
