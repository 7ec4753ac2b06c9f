import JsonAssist.Proofs.Json.TooDeep
import JsonAssist.Proofs.Schema.WrittenForest

namespace JsonAssist

namespace Reader

variable {L : Layout} {level depth more : Nat}

theorem tooDeep_listOnly {known : List Value} (distinct : ∀ v ∈ known, v.NamesDistinct)
    (fits : (Value.array known).Fits Number.Readable more)
    (deep : ¬ (Value.array known).Fits Number.Readable depth) (level : Nat) :
    (listOnly depth value).TooDeep (L.text level (.array known)) := by
  refine TooDeep.of_eq ?_ fun rest => listOnly_array known rest value
  cases depth with
  | zero => exact tooDeep_failPast _
  | succ depth =>
    obtain ⟨more, rfl, within⟩ := Value.fits_array.mp fits
    have breaks : ElementsBreak L (value depth) level known := elementsBreak_of
      (fun x member fits => Layout.reads_value (distinct x member) fits (level + 1))
      (fun x member deep => tooDeep_value (distinct x member) (within x member) deep (level + 1))
      fun inside => deep (Value.fits_array.mpr ⟨depth, rfl, inside⟩)
    exact breaks.tooDeep

theorem tooDeep_fieldsOnly_of {fields : Fields Schema}
    (reads : ∀ entry ∈ fields, ∀ {inner}, entry.2.toValue.Fits Number.Readable inner →
      ∀ level, (schema inner).Reads (L.text level entry.2.toValue) entry.2.reread)
    (stops : ∀ entry ∈ fields, ∀ {inner}, ¬ entry.2.toValue.Fits Number.Readable inner →
      ∀ level, (schema inner).TooDeep (L.text level entry.2.toValue))
    (deep : ¬ (Value.object (Schema.fieldValues fields)).Fits Number.Readable depth) (level : Nat) :
    (fieldsOnly depth schema).TooDeep (L.text level (.object (Schema.fieldValues fields))) := by
  refine TooDeep.of_eq ?_ fun rest => fieldsOnly_object _ rest schema
  cases depth with
  | zero => exact tooDeep_failPast _
  | succ depth =>
    exact Schema.fieldValues_eq fields ▸ tooDeep_fields (passesBlank_schema depth) Schema.toValue
      (fun entry member fits => reads entry member fits (level + 1))
      (fun entry member deep => stops entry member deep (level + 1))
      fun inside => deep (Schema.fits_fieldValues.mpr ⟨depth, rfl, inside⟩)

section Parts

variable {children : Reader (Fields Schema)} {fields : Fields Schema} {known : List Value}

theorem stopsDeep_schemaWith {t : JsonType} {c : Option (Fields Schema)} {v : Option (List Value)}
    (breaks : MembersBreak L (schemaMember (jsonType depth) (optional children) (optional (listOnly depth value)))
      level .start (("type", .string t.name) :: (Schema.childrenPart c ++ Schema.valuesPart v))) :
    (schema.schemaWith depth children).TooDeep (L.text level (Schema.node t c v).toValue) := by
  intro rest
  obtain ⟨inside, text, stops⟩ := breaks.stopsDeep_object rest
  rw [Schema.toValue, List.cons_append, text, StopsFor, schema.schemaWith, peek_bind_cons _ _ rfl]
  change StopsFor .tooDeep (drop >>= fun _ => _) _
  rw [StopsFor, drop_bind, look_bind]
  exact stops.bind _

/-- A schema is given up at its children if these nest too deep. -/
theorem tooDeep_schemaWith_children {t : JsonType} (v : Option (List Value))
    (stops : children.TooDeep (L.text (level + 1) (.object (Schema.fieldValues fields)))) :
    (schema.schemaWith depth children).TooDeep (L.text level (Schema.node t (some fields) v).toValue) := by
  refine stopsDeep_schemaWith (.later (reads_typeMember rfl t) (.here ?_))
  rw [schemaMember_children rfl]
  have present := (stops.map some).of_eq fun rest => optional_object _ rest children
  exact (tooDeep_memberValue (passesBlank_optional children) present "children").map _

/-- A schema whose children are read is given up at its values if these nest too deep. -/
theorem tooDeep_schemaWith_values {t : JsonType} {c : Option (Fields Schema)}
    (readChildren : ∀ fields, c = some fields →
      children.Reads (L.text (level + 1) (.object (Schema.fieldValues fields))) (Schema.rereadFields fields))
    (stops : (listOnly depth value).TooDeep (L.text (level + 1) (.array known))) :
    (schema.schemaWith depth children).TooDeep (L.text level (Schema.node t c (some known)).toValue) := by
  have last (c : Option (Option (Fields Schema))) :
      MembersBreak L (schemaMember (jsonType depth) (optional children) (optional (listOnly depth value))) level
        ⟨some t, c, none⟩ [("values", .array known)] := by
    refine .here ?_
    rw [schemaMember_values rfl]
    have present := (stops.map some).of_eq fun rest => optional_array known rest (listOnly depth value)
    exact (tooDeep_memberValue (passesBlank_optional _) present "values").map _
  refine stopsDeep_schemaWith (.later (reads_typeMember rfl t) ?_)
  cases c with
  | none => exact last none
  | some fields => exact .later (reads_childrenMember rfl (readChildren fields rfl)) (last _)

end Parts

/-- A schema that would fit if more lists and objects could be nested is given up as too deep. -/
theorem tooDeep_schema {s : Schema} (distinct : s.NamesDistinct) (fits : s.toValue.Fits Number.Readable more)
    (deep : ¬ s.toValue.Fits Number.Readable depth) (level : Nat) :
    (schema depth).TooDeep (L.text level s.toValue) := by
  induction distinct generalizing depth more level with
  | @node t c v names below values ih =>
    obtain ⟨more, rfl, fitFields, fitValues⟩ := Schema.fits_toValue.mp fits
    cases depth with
    | zero =>
      intro rest
      rw [Schema.toValue, L.object]
      exact ⟨_, rfl, rfl⟩
    | succ depth =>
      rw [schema_succ]
      by_cases shallow : ∀ fields, c = some fields →
          (Value.object (Schema.fieldValues fields)).Fits Number.Readable depth
      · obtain ⟨known, present, deepValues⟩ : ∃ known, v = some known ∧
            ¬ (Value.array known).Fits Number.Readable depth := by
          by_contra! none
          exact deep (Schema.fits_toValue.mpr ⟨depth, rfl, shallow, none⟩)
        subst present
        exact tooDeep_schemaWith_values
          (fun fields present => reads_fieldsOnly_of (names fields present)
            (fun entry member _ fits => reads_schema (below fields present entry member) fits)
            (shallow fields present) (level + 1))
          (tooDeep_listOnly (values known rfl) (fitValues known rfl) deepValues (level + 1))
      · obtain ⟨fields, present, deepFields⟩ : ∃ fields, c = some fields ∧
            ¬ (Value.object (Schema.fieldValues fields)).Fits Number.Readable depth := by
          by_contra! none
          exact shallow none
        subst present
        obtain ⟨inner, rfl, within⟩ := Schema.fits_fieldValues.mp (fitFields fields rfl)
        exact tooDeep_schemaWith_children v (tooDeep_fieldsOnly_of
          (fun entry member _ fits => reads_schema (below fields rfl entry member) fits)
          (fun entry member _ deep => ih fields rfl entry member (within entry member) deep) deepFields (level + 1))

theorem tooDeep_forest {F : Forest} (distinct : Schema.FieldsDistinct F) (fits : F.toValue.Fits Number.Readable more)
    (deep : ¬ F.toValue.Fits Number.Readable depth) (level : Nat) :
    (fieldsOnly depth schema).TooDeep (F.toValue.prettyChars level) := by
  obtain ⟨inner, rfl, within⟩ := Schema.fits_fieldValues.mp fits
  exact tooDeep_fieldsOnly_of (L := Value.severalLines)
    (fun entry member _ fits => reads_schema (distinct.below entry member) fits)
    (fun entry member _ deep => tooDeep_schema (distinct.below entry member) (within entry member) deep) deep level

end Reader

/-- The text in which a forest is stored does not load if 128 lists and objects stand inside one another. -/
theorem Forest.load_text_tooDeep {F : Forest} (distinct : Schema.FieldsDistinct F)
    (readable : ∀ n ∈ F.toValue.numbers, n.Readable) (deep : 128 ≤ F.toValue.nesting) :
    ∃ e, load F.text = .error e ∧ e.cause = .tooDeep :=
  Reader.TooDeep.load String.toList_ofList (Reader.tooDeep_forest distinct ⟨Nat.le_refl _, readable⟩
    (fun fits => Nat.not_le_of_lt deep fits.shallow) 0)

end JsonAssist
