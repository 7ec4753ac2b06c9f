import JsonAssist.Path
import JsonAssist.Proofs.Syntax.WellFormed
import JsonAssist.Syntax.Document

namespace JsonAssist.Syntax

/-- The way down from a value to a value in it: the name of each pair that is entered, as the text
spells it, and for each array that is entered the number of elements before the one taken. -/
inductive Leads (d : Document) : Tree → Path → Tree → Prop
  | here (t : Tree) : Leads d t [] t
  | member {object pair value t : Tree} {key : String} {path : Path} (isObject : object.kind = .object)
      (member : pair ∈ object.children) (named : d.pairKey? pair = some key)
      (valued : pair.value? = some value) (rest : Leads d value path t) :
      Leads d object (.key key :: path) t
  | element {array element t : Tree} {before after : List Tree} {path : Path}
      (isArray : array.kind = .array) (split : array.children = before ++ element :: after)
      (isValue : element.kind.isValue) (rest : Leads d element path t) :
      Leads d array (.index (before.countP fun c => c.kind.isValue) :: path) t

/-- A name in the object at the end of a path. -/
inductive Names (d : Document) (t : Tree) : Path → String → Tree → Prop
  | pair {object pair name : Tree} {key : String} {path : Path} (leads : Leads d t path object)
      (isObject : object.kind = .object) (member : pair ∈ object.children)
      (own : pair.key? = some name) (named : d.pairKey? pair = some key) : Names d t path key name

/-- A node and all that stands below it. -/
inductive Inside : Tree → Tree → Prop
  | self (t : Tree) : Inside t t
  | child {t c u : Tree} (member : c ∈ t.children) (rest : Inside c u) : Inside t u

theorem Tree.kind_of_key? {t name : Tree} (own : t.key? = some name) : t.kind = .pair := by
  simp only [key?, Option.ite_none_right_eq_some] at own
  exact own.1

theorem Document.kind_of_pairKey? {d : Document} {t : Tree} {key : String}
    (named : d.pairKey? t = some key) : t.kind = .pair := by
  obtain ⟨name, own, _⟩ := Option.bind_eq_some_iff.mp named
  exact Tree.kind_of_key? own

theorem Tree.mem_of_key? {t name : Tree} (own : t.key? = some name) : name ∈ t.parts := by
  simp only [key?, Option.ite_none_right_eq_some] at own
  exact List.mem_of_getElem? own.2

theorem Tree.kind_of_value? {t value : Tree} (valued : t.value? = some value) : t.kind = .pair := by
  simp only [value?, Option.ite_none_right_eq_some] at valued
  exact valued.1

theorem Tree.mem_of_value? {t value : Tree} (valued : t.value? = some value) : value ∈ t.parts := by
  simp only [value?, Option.ite_none_right_eq_some] at valued
  exact List.mem_of_getElem? valued.2

namespace Tree.WellFormed

variable {t c : Tree}

theorem outer_of_value (sound : t.WellFormed) (member : c ∈ t.children) (isValue : c.kind.isValue) :
    t.kind = .document ∨ t.kind = .array ∨ t.kind = .pair := by
  have held := sound.form.mayHold member
  cases outer : t.kind <;> cases inner : c.kind <;> simp_all [Kind.mayHold, Kind.isValue]

theorem outer_of_pair (sound : t.WellFormed) (member : c ∈ t.children) (pair : c.kind = .pair) :
    t.kind = .object := by
  have held := sound.form.mayHold member
  cases outer : t.kind <;> simp_all [Kind.mayHold, Kind.isValue]

theorem children_of_token (sound : t.WellFormed) (token : t.kind.isToken) : t.children = [] := by
  cases sound with
  | node form => cases form <;> simp_all [Kind.isToken, children, kind]

/-- The name of a pair is a string, of which the text tells what it spells. -/
theorem exists_pairKey (sound : t.WellFormed) (pair : t.kind = .pair) (d : Document) :
    ∃ name key, t.key? = some name ∧ name.kind = .string ∧ d.pairKey? t = some key := by
  obtain ⟨name, colon, value, parts, isString, _⟩ := sound.exists_parts pair
  have member : name ∈ t.children := mem_of_mem_parts (parts ▸ List.mem_cons_self)
  have own : t.key? = some name := by simp [key?, pair, parts]
  have spelled : (d.pairKey? t).isSome := by
    simp [Document.pairKey?, own, (sound.child member).not_missing, Document.stringValue?, isString]
  obtain ⟨key, named⟩ := Option.isSome_iff_exists.mp spelled
  exact ⟨name, key, own, isString, named⟩

theorem isValue_of_value? (sound : t.WellFormed) {value : Tree} (valued : t.value? = some value) :
    value.kind.isValue := by
  have pair := kind_of_value? valued
  obtain ⟨name, colon, value', parts, _, _, isValue⟩ := sound.exists_parts pair
  obtain rfl : value' = value := by simpa [value?, pair, parts] using valued
  exact isValue

/-- The name of a pair and its colon stand before its value. -/
theorem before_value (sound : t.WellFormed) {value : Tree} (valued : t.value? = some value) :
    ∃ name colon, t.key? = some name ∧ name.start < name.stop ∧ name.stop ≤ value.start ∧
      colon ∈ t.children ∧ colon.kind = .colon ∧ colon.stop ≤ value.start := by
  have pair := kind_of_value? valued
  obtain ⟨name, colon, value', parts, _, isColon, _⟩ := sound.exists_parts pair
  obtain rfl : value' = value := by simpa [value?, pair, parts] using valued
  have member {c : Tree} (part : c ∈ t.parts) : c ∈ t.children := mem_of_mem_parts part
  have order : t.parts.Pairwise fun a b => a.stop ≤ b.start := sound.order.filter _
  have wide := sound.child_wide (member (parts ▸ List.mem_cons_self))
  have inChildren : colon ∈ t.children := member (parts ▸ by simp)
  rw [parts] at order
  have nameBefore : name.stop ≤ value'.start := by simp_all
  have colonBefore : colon.stop ≤ value'.start := by simp_all
  exact ⟨name, colon, by simp [key?, pair, parts], wide, nameBefore, inChildren, isColon, colonBefore⟩

/-- The values that stand in a pair are its name and its value. -/
theorem key?_or_value? (sound : t.WellFormed) (pair : t.kind = .pair) (member : c ∈ t.children)
    (isValue : c.kind.isValue) : t.key? = some c ∨ t.value? = some c := by
  obtain ⟨name, colon, value, parts, _, isColon, _⟩ := sound.exists_parts pair
  have kept : c ∈ t.parts := List.mem_filter.mpr ⟨member, by
    cases atKind : c.kind <;> simp_all [Kind.isValue, Kind.isExtra]⟩
  simp only [parts, List.mem_cons, List.not_mem_nil, or_false] at kept
  rcases kept with rfl | rfl | rfl
  · exact Or.inl (by simp [key?, pair, parts])
  · simp [isColon, Kind.isValue] at isValue
  · exact Or.inr (by simp [value?, pair, parts])

/-- What stands in another node is a value, a pair or a token. -/
theorem child_cases (sound : t.WellFormed) (member : c ∈ t.children) :
    c.kind.isValue ∨ c.kind = .pair ∨ c.kind.isToken ∧ ¬c.kind.isValue := by
  have held := sound.form.mayHold member
  cases outer : t.kind <;> cases inner : c.kind <;> simp_all [Kind.mayHold, Kind.isValue, Kind.isToken]

end Tree.WellFormed

namespace Leads

variable {d : Document} {t u v : Tree} {path rest : Path}

theorem trans (first : Leads d t path u) (second : Leads d u rest v) : Leads d t (path ++ rest) v := by
  induction first with
  | here => exact second
  | member isObject member named valued _ ih => exact .member isObject member named valued (ih second)
  | element isArray split isValue _ ih => exact .element isArray split isValue (ih second)

/-- What a path leads to is part of the text of the value where it begins. -/
theorem inside (leads : Leads d t path u) (sound : t.WellFormed) :
    u.WellFormed ∧ t.start ≤ u.start ∧ u.stop ≤ t.stop := by
  induction leads with
  | here => exact ⟨sound, Nat.le_refl _, Nat.le_refl _⟩
  | @member object pair value _ _ _ isObject member named valued rest ih =>
    have inPair : value ∈ pair.children := Tree.mem_of_mem_parts (Tree.mem_of_value? valued)
    have ofPair := sound.child member
    obtain ⟨own, starts, stops⟩ := ih (ofPair.child inPair)
    have outer := sound.inside member
    have inner := ofPair.inside inPair
    exact ⟨own, by omega, by omega⟩
  | @element array element _ _ _ _ isArray split isValue rest ih =>
    have member : element ∈ array.children := split ▸ by simp
    obtain ⟨own, starts, stops⟩ := ih (sound.child member)
    have outer := sound.inside member
    exact ⟨own, by omega, by omega⟩

end Leads

theorem Names.prepend {d : Document} {t u name : Tree} {path rest : Path} {key : String}
    (leads : Leads d t path u) (names : Names d u rest key name) : Names d t (path ++ rest) key name := by
  cases names with
  | pair inner isObject member own named => exact .pair (leads.trans inner) isObject member own named

theorem Names.isString {d : Document} {t name : Tree} {path : Path} {key : String}
    (names : Names d t path key name) (sound : t.WellFormed) : name.kind = .string := by
  cases names with
  | pair leads isObject member own named =>
    have ofPair := (leads.inside sound).1.child member
    obtain ⟨name', _, own', isString, _⟩ := ofPair.exists_pairKey (Tree.kind_of_key? own) d
    exact Option.some.inj (own.symm.trans own') ▸ isString

/-- A value is found in another one by a path, unless it is a name. -/
def Found (d : Document) (t u : Tree) : Prop :=
  (∃ path, Leads d t path u) ∨ ∃ path key, Names d t path key u

theorem Found.prepend {d : Document} {t u v : Tree} {path : Path} (leads : Leads d t path u)
    (found : Found d u v) : Found d t v := by
  rcases found with ⟨rest, inner⟩ | ⟨rest, key, names⟩
  · exact Or.inl ⟨path ++ rest, leads.trans inner⟩
  · exact Or.inr ⟨path ++ rest, key, names.prepend leads⟩

theorem Inside.eq_of_token {t u : Tree} (inside : Inside t u) (sound : t.WellFormed)
    (token : t.kind.isToken) : u = t := by
  cases inside with
  | self => rfl
  | child member _ => simp [sound.children_of_token token] at member

/-- A string holds no other value. -/
theorem Inside.eq_of_string {t u : Tree} (inside : Inside t u) (sound : t.WellFormed)
    (isString : t.kind = .string) (isValue : u.kind.isValue) : u = t := by
  cases inside with
  | self => rfl
  | @child _ c _ member rest =>
    rcases sound.child_cases member with value | pair | ⟨token, notValue⟩
    · have outer := sound.outer_of_value member value
      simp [isString] at outer
    · have outer := sound.outer_of_pair member pair
      simp [isString] at outer
    · exact absurd (rest.eq_of_token (sound.child member) token ▸ isValue) notValue

/-- A value below a value is found there; below a pair it is the name, or is found in the value. -/
theorem Inside.found {t u : Tree} (inside : Inside t u) (sound : t.WellFormed)
    (isValue : u.kind.isValue) (d : Document) :
    (t.kind.isValue → Found d t u) ∧
      (t.kind = .pair → t.key? = some u ∨ ∃ value, t.value? = some value ∧ Found d value u) := by
  induction inside with
  | self t => exact ⟨fun _ => Or.inl ⟨[], .here t⟩, fun pair => by simp [pair, Kind.isValue] at isValue⟩
  | @child t c u member rest ih =>
    have own := sound.child member
    obtain ⟨ofValue, ofPair⟩ := ih own isValue
    rcases sound.child_cases member with value | pair | ⟨token, notValue⟩
    · refine ⟨fun outerValue => ?_, fun outerPair => ?_⟩
      · have isArray : t.kind = .array := by
          rcases sound.outer_of_value member value with same | same | same
          · simp [same, Kind.isValue] at outerValue
          · exact same
          · simp [same, Kind.isValue] at outerValue
        obtain ⟨before, after, split⟩ := List.append_of_mem member
        exact (ofValue value).prepend (.element isArray split value (.here c))
      · rcases sound.key?_or_value? outerPair member value with name | valued
        · obtain ⟨_, _, own', isString, _⟩ := sound.exists_pairKey outerPair d
          obtain rfl := Option.some.inj (own'.symm.trans name)
          exact Or.inl (rest.eq_of_string own isString isValue ▸ name)
        · exact Or.inr ⟨c, valued, ofValue value⟩
    · have isObject := sound.outer_of_pair member pair
      refine ⟨fun _ => ?_, fun outerPair => by simp [isObject] at outerPair⟩
      obtain ⟨name, key, _, _, named⟩ := own.exists_pairKey pair d
      rcases ofPair pair with isName | ⟨value, valued, found⟩
      · exact Or.inr ⟨[], key, .pair (.here t) isObject member isName named⟩
      · exact found.prepend (.member isObject member named valued (.here value))
    · exact absurd (rest.eq_of_token own token ▸ isValue) notValue

/-- Every object or array of a document stands at the end of some steps from one of its values. -/
theorem Inside.exists_address {root container : Tree} (outer : Inside root container) (sound : root.WellFormed)
    (document : root.kind = .document) (isContainer : container.kind = .object ∨ container.kind = .array)
    (d : Document) : ∃ top ∈ root.children, ∃ path, Leads d top path container := by
  have isValue := Kind.isValue_of_container isContainer
  cases outer with
  | self => rcases isContainer with same | same <;> simp [document] at same
  | @child _ top _ member rest =>
    have own := sound.child member
    have topValue : top.kind.isValue := by
      rcases sound.child_cases member with value | pair | ⟨token, notValue⟩
      · exact value
      · have outer := sound.outer_of_pair member pair
        simp [document] at outer
      · exact rest.eq_of_token own token ▸ isValue
    rcases (rest.found own isValue d).1 topValue with ⟨path, leads⟩ | ⟨path, key, names⟩
    · exact ⟨top, member, path, leads⟩
    · have isString := names.isString own
      rcases isContainer with same | same <;> simp [isString] at same

/-- Every literal in an object or array of a document is found in one of the document's values: below
it at the end of some steps, or as a name. -/
theorem Inside.found_in_document {root container literal : Tree} (sound : root.WellFormed)
    (document : root.kind = .document) (outer : Inside root container)
    (isContainer : container.kind = .object ∨ container.kind = .array) (inner : Inside container literal)
    (isLiteral : literal.kind.isLiteral) (d : Document) :
    ∃ top ∈ root.children, (∃ path, path ≠ [] ∧ Leads d top path literal) ∨
      ∃ path key, Names d top path key literal := by
  obtain ⟨top, member, path, leads⟩ := outer.exists_address sound document isContainer d
  refine ⟨top, member, ?_⟩
  have within := (leads.inside (sound.child member)).1
  rcases (inner.found within (Kind.isValue_of_isLiteral isLiteral) d).1 (Kind.isValue_of_container isContainer) with
    ⟨steps, further⟩ | ⟨steps, key, names⟩
  · have entered : steps ≠ [] := fun none => by
      subst none
      cases further
      exact Kind.not_isLiteral_of_container isContainer isLiteral
    exact Or.inl ⟨path ++ steps, by simp [entered], leads.trans further⟩
  · exact Or.inr ⟨path ++ steps, key, names.prepend leads⟩

end JsonAssist.Syntax
