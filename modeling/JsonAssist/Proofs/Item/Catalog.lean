import Mathlib.Data.List.Induction
import JsonAssist.Proofs.Item.Lines
import JsonAssist.Proofs.Json.Fields

namespace JsonAssist

namespace Item

/-- What a line says about an item: its id, a trait, and the text of that trait. -/
abbrev Saying := String × Trait × String

/-- What the lines of a text say that say something, in their order. -/
inductive Tells : List (List Char) → List Saying → Prop
  | nil : Tells [] []
  | states {line : List Char} {lines : List (List Char)} {said : Saying} {told : List Saying}
      (states : States line said) (more : Tells lines told) : Tells (line :: lines) (said :: told)
  | silent {line : List Char} {lines : List (List Char)} {told : List Saying} (silent : ∀ said, ¬States line said)
      (more : Tells lines told) : Tells (line :: lines) told

/-- Whether something is said of a trait of an item. -/
def isAbout (id : String) (trait : Trait) (said : Saying) : Bool := said.1 = id ∧ said.2.1 = trait

/-- The last text told of a trait of an item; an empty one if there is none. -/
def lastTold (told : List Saying) (id : String) (trait : Trait) : String :=
  ((told.filter (isAbout id trait)).getLast?.map fun said => said.2.2).getD ""

/-- The item of an id with what is last told of it. -/
def ofTold (told : List Saying) (id : String) : Item :=
  ⟨id, lastTold told id .name, lastTold told id .description⟩

section Tells

variable {lines lines' : List (List Char)} {told told' : List Saying} {id id' text : String} {trait trait' : Trait}

theorem tells_filterMap (lines : List (List Char)) : Tells lines (lines.filterMap line?) := by
  induction lines with
  | nil => exact .nil
  | cons line lines ih =>
    cases said : line? line with
    | none =>
      rw [List.filterMap_cons_none said]
      exact .silent (line?_eq_none_iff.mp said) ih
    | some said' =>
      rw [List.filterMap_cons_some said]
      exact .states (line?_eq_some_iff.mp said) ih

theorem Tells.eq_filterMap (tells : Tells lines told) : told = lines.filterMap line? := by
  induction tells with
  | nil => rfl
  | states states _ ih => rw [List.filterMap_cons_some (line?_eq_some_iff.mpr states), ← ih]
  | silent silent _ ih => rw [List.filterMap_cons_none (line?_eq_none_iff.mpr silent), ← ih]

theorem lastTold_concat : lastTold (told ++ [(id, trait, text)]) id' trait' =
    if id = id' ∧ trait = trait' then text else lastTold told id' trait' := by
  unfold lastTold
  by_cases own : id = id' ∧ trait = trait'
  · have about : isAbout id' trait' (id, trait, text) := decide_eq_true own
    rw [if_pos own, List.filter_append, List.filter_cons_of_pos about, List.filter_nil, List.getLast?_concat]
    rfl
  · have other : ¬isAbout id' trait' (id, trait, text) := fun about => own (of_decide_eq_true about)
    rw [if_neg own, List.filter_append, List.filter_cons_of_neg other, List.filter_nil, List.append_nil]

theorem ofTold_concat : ofTold (told ++ [(id, trait, text)]) id' =
    if id = id' then (ofTold told id).set trait text else ofTold told id' := by
  by_cases same : id = id'
  · subst same
    cases trait <;> simp [ofTold, lastTold_concat, set]
  · simp [ofTold, lastTold_concat, same]

/-- Of an item that no line tells of nothing is known. -/
theorem ofTold_of_unknown (unknown : id ∉ told.map Prod.fst) : ofTold told id = ⟨id, "", ""⟩ := by
  have none (trait : Trait) : lastTold told id trait = "" := by
    have empty : told.filter (isAbout id trait) = [] := by
      rw [List.filter_eq_nil_iff]
      intro said member own
      obtain ⟨rfl, _⟩ := of_decide_eq_true own
      exact unknown (List.mem_map_of_mem member)
    rw [lastTold, empty]
    rfl
  rw [ofTold, none, none]

end Tells

end Item

namespace Catalog

open Item hiding id name description set

/-- The items after some sayings, one after the other. -/
def itemsOf (told : List Saying) : Fields Item :=
  told.foldl (fun items (id, trait, text) => note items id trait text) []

section Items

variable {told : List Saying}

theorem itemsOf_concat (told : List Saying) (id : String) (trait : Trait) (text : String) :
    itemsOf (told ++ [(id, trait, text)]) = note (itemsOf told) id trait text := by
  rw [itemsOf, List.foldl_append]
  rfl

theorem names_itemsOf (told : List Saying) : Fields.names (itemsOf told) = (told.map Prod.fst).eraseDups := by
  induction told using List.reverseRecOn with
  | nil => rfl
  | append_singleton told said ih =>
    obtain ⟨id, trait, text⟩ := said
    rw [itemsOf_concat, note, Fields.names_insert, ih, List.map_append, List.map_singleton, eraseDups_concat]
    simp only [List.mem_eraseDups]

theorem nodup_names_itemsOf (told : List Saying) : (Fields.names (itemsOf told)).Nodup := by
  induction told using List.reverseRecOn with
  | nil => exact List.nodup_nil
  | append_singleton told said ih =>
    obtain ⟨id, trait, text⟩ := said
    rw [itemsOf_concat]
    exact Fields.nodup_names_insert ih id _

theorem get?_itemsOf (told : List Saying) (id : String) :
    Fields.get? (itemsOf told) id = if id ∈ told.map Prod.fst then some (ofTold told id) else none := by
  induction told using List.reverseRecOn generalizing id with
  | nil => rfl
  | append_singleton told said ih =>
    obtain ⟨id', trait, text⟩ := said
    have before : (Fields.get? (itemsOf told) id').getD ⟨id', "", ""⟩ = ofTold told id' := by
      rw [ih]
      split
      next => rfl
      next unknown => exact (ofTold_of_unknown unknown).symm
    rw [itemsOf_concat, note, Fields.get?_insert, before, ofTold_concat, ih]
    have members : id ∈ (told ++ [(id', trait, text)]).map Prod.fst ↔ id ∈ told.map Prod.fst ∨ id = id' := by simp
    by_cases same : id' = id
    · subst same
      rw [if_pos rfl, if_pos rfl, if_pos (members.mpr (Or.inr rfl))]
    · simp only [same, Ne.symm same, members, or_false, if_false]

/-- The items are those of the ids that are told of, in that order. -/
theorem itemsOf_eq (told : List Saying) :
    itemsOf told = (told.map Prod.fst).eraseDups.map fun id => (id, ofTold told id) := by
  refine Fields.ext (nodup_names_itemsOf told) ?_ fun id => ?_
  · rw [names_itemsOf]
    simp [Fields.names, Function.comp_def]
  · rw [get?_itemsOf, Fields.get?_map_names]
    simp only [List.mem_eraseDups]

theorem items_parse (source : String) :
    (parse source).items = itemsOf ((linesOf source.toList).filterMap line?) := by
  rw [parse, sourceLines_eq, itemsOf]

end Items

/-- The catalog of a text holds one item for each id that its lines tell of, in the order in which they first do. Each
item has the name and the description that the last line about it gives, or an empty one. Nothing else in the text
counts: with lines put in or left out that say nothing the catalog is the same. -/
theorem parse_tells (source : String) :
    ∃ told, Tells (linesOf source.toList) told ∧
      (parse source).items = (told.map Prod.fst).eraseDups.map (fun id => (id, ofTold told id)) ∧
      (∀ source', Tells (linesOf source'.toList) told → parse source' = parse source) ∧
      ∀ source' before line after, linesOf source'.toList = before ++ line :: after →
        linesOf source.toList = before ++ after → (∀ said, ¬States line said) → parse source' = parse source := by
  have same {source' : String} (told : Tells (linesOf source'.toList) ((linesOf source.toList).filterMap line?)) :
      parse source' = parse source := by
    have items : (parse source').items = (parse source).items := by
      rw [items_parse, items_parse, told.eq_filterMap]
    exact congrArg mk items
  refine ⟨_, tells_filterMap _, (items_parse source).trans (itemsOf_eq _), fun source' => same, ?_⟩
  intro source' before line after lines' lines silent
  have whole := tells_filterMap (linesOf source'.toList)
  rw [lines', List.filterMap_append, List.filterMap_cons_none (line?_eq_none_iff.mpr silent), ← List.filterMap_append,
    ← lines, ← lines'] at whole
  exact same whole

/-- Two ids of which one begins the other, a name that is told again, and a line of white space behind the equals sign.
The line between that says nothing has a wrong trait. -/
theorem parse_tells_of_repeated :
    let first := "items.A.name = x\r\nitems.A_1.description\u00a0=\t "
    let last := "items.A.name == y"
    let line := "items.A.flavor = z"
    let source := first ++ "\n" ++ last
    let source' := first ++ "\n" ++ line ++ "\n" ++ last
    linesOf source'.toList = ["items.A.name = x".toList, "items.A_1.description\u00a0=\t ".toList] ++
        line.toList :: [last.toList] ∧
      linesOf source.toList = ["items.A.name = x".toList, "items.A_1.description\u00a0=\t ".toList] ++ [last.toList] ∧
      (∀ said, ¬States line.toList said) ∧ parse source' = parse source ∧
      (parse source).items = [("A", ⟨"A", "= y", ""⟩), ("A_1", ⟨"A_1", "", " "⟩)] := by
  intro first last line source source'
  have lines' : linesOf source'.toList =
      ["items.A.name = x".toList, "items.A_1.description\u00a0=\t ".toList] ++ line.toList :: [last.toList] := by
    decide +kernel
  have lines : linesOf source.toList =
      ["items.A.name = x".toList, "items.A_1.description\u00a0=\t ".toList] ++ [last.toList] := by decide +kernel
  have silent : ∀ said, ¬States line.toList said := line?_eq_none_iff.mp (by decide +kernel)
  have items : (parse source).items = [("A", ⟨"A", "= y", ""⟩), ("A_1", ⟨"A_1", "", " "⟩)] := by decide +kernel
  obtain ⟨_, _, _, _, kept⟩ := parse_tells source
  exact ⟨lines', lines, silent, kept source' _ _ _ lines' lines silent, items⟩

end Catalog

end JsonAssist
