import JsonAssist.Proofs.Completion.Repeats
import JsonAssist.Proofs.Schema.Every

namespace JsonAssist

theorem decodeInside_flatMap (s : List Char) : decodeInside (s.flatMap escapeChar) = s := by
  have read := Reader.stringBody_flatMap s []
  simp only [decodeInside, read, List.all_nil, if_true]

/-- A quoted text decodes to what was quoted. -/
theorem decodeLiteral_quoteChars (s : List Char) : decodeLiteral true (quoteChars s) = s := by
  have last : (s.flatMap escapeChar ++ ['"']).getLast? = some '"' := List.getLast?_concat
  simp only [decodeLiteral, quoteChars, List.cons_append, last, List.dropLast_concat]
  exact decodeInside_flatMap s

namespace Syntax

variable {d : Document} {t p : Tree} {name : String}

theorem stringValue?_of_quoted (isString : t.kind = .string) (closed : t.isClosed)
    (source : d.textOf t = (Value.string name).compact) : d.stringValue? t = some name := by
  have chars : (d.textOf t).toList = quoteChars name.toList := by
    rw [source]
    exact String.toList_ofList
  simp only [Document.stringValue?, isString, closed, chars, decodeLiteral_quoteChars, String.ofList_toList]

theorem Tree.not_missing_of_isClosed (notPair : t.kind ≠ .pair) (closed : t.isClosed) : t.missing = false := by
  cases missing : t.missing with
  | false => rfl
  | true => simp [Tree.isClosed, notPair, Tree.isClosedPart, missing] at closed

/-- A pair with a quoted name has that name. -/
theorem pairKey?_of_quoted (own : p.key? = some t) (isString : t.kind = .string) (closed : t.isClosed)
    (source : d.textOf t = (Value.string name).compact) : d.pairKey? p = some name := by
  have notMissing := Tree.not_missing_of_isClosed (by simp [isString]) closed
  rw [Document.pairKey?, own, Option.bind_some, notMissing]
  exact stringValue?_of_quoted isString closed source

end Syntax

namespace Resolved

variable {P : Value → Prop} {here next : Resolved}

/-- Every value that is known at a place or below it has a property. -/
def Every (P : Value → Prop) : Resolved → Prop
  | .forest fs => Schema.FieldsEvery P fs
  | .node s => s.Every P
  | .elements vs => ∀ v ∈ vs, P v
  | .fields fs => Schema.FieldsEvery P fs

theorem every_child {fs : Fields Schema} (every : Schema.FieldsEvery P fs) {name : String}
    (enters : (Fields.get? fs name).map Resolved.node = some next) : next.Every P := by
  obtain ⟨s, found, rfl⟩ := Option.map_eq_some_iff.mp enters
  exact every _ (Fields.mem_of_get? found)

theorem every_elementsOf {array : Schema} (every : array.Every P) (enters : elementsOf array = some next) :
    next.Every P := by
  unfold elementsOf at enters
  split at enters
  next known =>
    cases enters
    exact every.of_values known
  next children _ =>
    cases enters
    exact every.of_children children
  next => cases enters

theorem every_step {first : Step} (every : here.Every P) (enters : here.step first = some next) : next.Every P := by
  unfold step at enters
  split at enters
  next s name =>
    obtain ⟨t, below, rfl⟩ := Option.map_eq_some_iff.mp enters
    obtain ⟨fields, children, found⟩ := Option.bind_eq_some_iff.mp below
    exact every.of_children children _ (Fields.mem_of_get? found)
  next s _ =>
    simp only [Option.ite_none_right_eq_some] at enters
    exact every_elementsOf every enters.2
  next fields name => exact every_child every enters
  next fields name => exact every_child every enters
  next => cases enters

theorem every_follow (every : here.Every P) (path : Path) : (here.follow path).Every P := by
  fun_induction follow here path with
  | case1 here => exact every
  | case2 here s rest _ => exact every
  | case3 here s rest _ next enters ih => exact ih (every_step every enters)
  | case4 here s rest _ _ => exact every

theorem Every.of_values (every : here.Every P) {values : List Value} (known : here.values = some values) :
    ∀ v ∈ values, P v := by
  cases here with
  | node s => exact Schema.Every.of_values every known
  | elements own => exact Option.some.inj known ▸ every
  | forest _ => cases known
  | fields _ => cases known

end Resolved

namespace Completion

open Syntax Cursor

/-- A string in a document that stands for a name: it decodes to the name, a pair that it begins has the name, and
the object of that pair knows it wherever the next name stands or may be written, as taken but where the pair at
hand has it. -/
structure Spells (d : Document) (t : Tree) (name : String) : Prop where
  value : d.stringValue? t = some name
  named : ∀ p, p.key? = some t → d.pairKey? p = some name
  written : ∀ object, ∀ p ∈ object.children, p.key? = some t → name ∈ objectKeys d object
  existing : d.root.WellFormed → d.root.kind = .document → ∀ object, Inside d.root object →
    ∀ p ∈ object.children, p.key? = some t → ∀ offset, AtName object offset →
      name ∈ existingKeysAt d offset ∧
        (name ∈ (contextAt d offset).existing ↔ (pairAt? object offset).bind d.pairKey? ≠ some name)

/-- A closed string with the text of a name stands for it. -/
theorem spells_of_quoted {d : Document} {t : Tree} {name : String} (isString : t.kind = .string)
    (closed : t.isClosed) (source : d.textOf t = (Value.string name).compact) : Spells d t name := by
  have named {p : Tree} (own : p.key? = some t) : d.pairKey? p = some name :=
    pairKey?_of_quoted own isString closed source
  have written {object p : Tree} (inObject : p ∈ object.children) (own : p.key? = some t) :
      name ∈ objectKeys d object :=
    mem_objectKeys inObject (Document.kind_of_pairKey? (named own)) (named own)
  exact ⟨stringValue?_of_quoted isString closed source, fun p own => named own,
    fun object p inObject own => written inObject own,
    fun sound document object within p inObject own offset place =>
      existing_at_name sound document within place (written inObject own)⟩

/-- Each known value has a candidate that inserts its text. -/
theorem exists_of_known {forest : Forest} {context : Cursor.Context} {values : List Value} {v : Value}
    (known : (forest.resolve context.path).values = some values) (member : v ∈ values) :
    ∃ c ∈ plan forest context, c.kind = .value ∧ c.label = v.compact ∧ c.insertText = v.compact := by
  rw [plan_of_values known (List.ne_nil_of_mem member)]
  obtain ⟨c, offered, label⟩ := List.mem_map.mp (mem_labels_valueCandidates.mpr ⟨v, member, rfl⟩)
  obtain ⟨w, _, _, rfl⟩ := exists_of_mem_valueCandidates offered
  exact ⟨_, offered, rfl, label, label⟩

/-- A closed string with the text of a property stands for its name. The text of each known value loads as that
value if the value can be held, as all values can that the program comes to know; of numbers with a fraction or
an exponent it is asked that they load from their own texts. -/
theorem inserted_text_reads_back (d : Document) (forest : Forest) (context : Cursor.Context) :
    (∀ (name : String) (s : Schema) (t : Tree), t.kind = .string → t.isClosed →
      d.textOf t = (propertyCandidate context.replace name s).insertText → Spells d t name) ∧
      ∀ values, (forest.resolve context.path).values = some values → ∀ v ∈ values,
        (forest.Obtained → v.Held) ∧
        (v.Held → (∀ x, .real x ∈ v.numbers → Number.ComesBack (.real x)) →
          ∃ c ∈ plan forest context, c.kind = .value ∧ c.label = v.compact ∧ Value.load c.insertText = .ok v) := by
  refine ⟨fun name s t isString closed source => spells_of_quoted isString closed source,
    fun values known v member => ⟨fun obtained => ?_, fun held floats => ?_⟩⟩
  · have start : (Resolved.forest forest).Every Value.Held := obtained.every
    exact (Resolved.every_follow start context.path).of_values known v member
  · obtain ⟨c, offered, kind, label, text⟩ := exists_of_known known member
    exact ⟨c, offered, kind, label, text ▸ held.load_compact floats⟩

/-- A name with a line break, and a float that is known of it from a document. -/
theorem inserted_text_reads_back_of_break :
    let token (kind : Kind) (at' : Nat) : Tree := .node kind at' (at' + 1) false []
    let string : Tree := .node .string 1 6 false
      [token .quote 1, token .content 2, .node .escape 3 5 false [], token .quote 5]
    let pair : Tree := .node .pair 1 8 false [string, token .colon 6, token .number 7]
    let object : Tree := .node .object 0 9 false [token .openBrace 0, pair, token .closeBrace 8]
    let d : Document := ⟨"\x7b\"a\\n\":1\x7d", .node .document 0 9 false [object]⟩
    let float : Value := .number (.real ⟨false, 6755399441055744, -52⟩)
    let forest : Forest := Forest.build [.object [("a\n", float)]]
    let context : Cursor.Context := ⟨[.key "a\n"], .value, [], none⟩
    d.root.WellFormed ∧ d.pairKey? pair = some "a\n" ∧
      "a\n" ∈ existingKeysAt d 8 ∧ "a\n" ∈ (contextAt d 8).existing ∧
      "a\n" ∈ existingKeysAt d 2 ∧ "a\n" ∉ (contextAt d 2).existing ∧ forest.Obtained ∧
      ∃ c ∈ plan forest context, c.label = "1.5" ∧ Value.load c.insertText = .ok float := by
  intro token string pair object d float forest context
  have sound : d.root.WellFormed := Tree.wellFormed_of_isWellFormed (by decide)
  have within : Inside d.root object := .child List.mem_cons_self (.self object)
  have inObject : pair ∈ object.children := by simp [object, Tree.children]
  have source : d.textOf string = (Value.string "a\n").compact := by decide +kernel
  have behind : AtName object 8 := ⟨rfl, by decide, by decide, by decide⟩
  have inName : AtName object 2 := ⟨rfl, by decide, by decide, by decide⟩
  have atHand : (pairAt? object 2).bind d.pairKey? = some "a\n" := by decide +kernel
  have back : Number.ComesBack (.real ⟨false, 6755399441055744, -52⟩) :=
    Reader.comesBack_of_number (by decide +kernel)
  have document : Value.load (Value.object [("a\n", float)]).compact = .ok (.object [("a\n", float)]) :=
    Value.load_compact (by simp [float, Value.namesDistinct_object, Value.NamesDistinct.number])
      ⟨by decide, by simp [float, Value.numbers, Value.memberNumbers, back]⟩
  have obtained : forest.Obtained := .built (List.forall_mem_singleton.mpr ⟨_, document⟩)
  obtain ⟨ofName, ofValue⟩ := inserted_text_reads_back d forest context
  have spells := ofName "a\n" (.node .null none none) string rfl (by decide) source
  have existing := spells.existing sound rfl object within pair inObject rfl
  obtain ⟨held, loads⟩ := ofValue [float] rfl float List.mem_cons_self
  obtain ⟨c, offered, _, label, read⟩ := loads (held obtained) (by simp [float, Value.numbers, back])
  have text : float.compact = "1.5" := by decide +kernel
  refine ⟨sound, spells.named pair rfl, (existing 8 behind).1, (existing 8 behind).2.mpr (by decide),
    (existing 2 inName).1, fun taken => (existing 2 inName).2.mp taken atHand,
    obtained, c, offered, label.trans text, read⟩

end Completion

end JsonAssist
