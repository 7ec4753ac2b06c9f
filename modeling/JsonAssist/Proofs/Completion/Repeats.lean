import JsonAssist.Category.Registry
import JsonAssist.Proofs.Completion.Offers
import JsonAssist.Proofs.Cursor.Innermost

namespace JsonAssist.Completion

open Syntax Cursor

section Names

variable {d : Document} {object : Tree} {offset : Nat} {name : String}

/-- The names written elsewhere than around a place are names of the object. -/
theorem mem_objectKeys_of_other (other : name ∈ otherNames d object offset) : name ∈ objectKeys d object := by
  obtain ⟨p, kept, named⟩ := mem_namesOf.mp other
  exact mem_objectKeys (List.mem_filter.mp kept).1 (Document.kind_of_pairKey? named) named

/-- Where a name stands or may be written, all names of the object are known, and are taken but for that of the
pair at hand. -/
theorem existing_at_name (sound : d.root.WellFormed) (document : d.root.kind = .document)
    (within : Inside d.root object) (place : AtName object offset) (written : name ∈ objectKeys d object) :
    name ∈ existingKeysAt d offset ∧
      (name ∈ (contextAt d offset).existing ↔ (pairAt? object offset).bind d.pairKey? ≠ some name) := by
  obtain ⟨top, inRoot, path, leads⟩ := within.exists_address sound document (Or.inl place.isObject) d
  obtain ⟨outer, _, located⟩ := locate_at_name sound document inRoot leads place
  have naming : slotOf (locate d offset) = .property := by
    rw [located]
    cases (pairAt? object offset).bind d.pairKey? <;> rfl
  have taken : (contextAt d offset).existing = takenKeys (locate d offset) := by simp only [contextAt, naming]
  refine ⟨by rwa [existingKeysAt, located], ?_⟩
  rw [taken, located, takenKeys_of_name, List.mem_filter, decide_eq_true_eq]
  exact and_iff_right written

end Names

/-- A name is offered where no literals are known and a property that is not taken has it. -/
theorem offered_iff {forest : Forest} {context : Cursor.Context} (slot : context.slot = .property) (name : String) :
    (∃ c ∈ plan forest context, c.kind = .property ∧ c.label = name) ↔
      (forest.resolve context.path).values.getD [] = [] ∧
        name ∈ Fields.names ((forest.resolve context.path).properties.getD []) ∧ name ∉ context.existing := by
  by_cases none : (forest.resolve context.path).values.getD [] = []
  · have labels := labels_propertyCandidates ((forest.resolve context.path).properties.getD []) context.existing
      context.replace
    rw [and_iff_right none, plan_of_no_values none slot]
    constructor
    · rintro ⟨c, member, _, rfl⟩
      have kept := labels ▸ List.mem_map_of_mem (f := Candidate.label) member
      simpa using kept
    · rintro ⟨known, free⟩
      exact exists_propertyCandidate known free
  · refine ⟨fun ⟨c, member, kind, _⟩ => ?_, fun offered => absurd offered.1 none⟩
    cases known : (forest.resolve context.path).values with
    | none => exact absurd (known ▸ rfl) none
    | some values =>
      rw [plan_of_values known (by simpa [known] using none)] at member
      exact absurd ((kind_of_mem_valueCandidates member).symm.trans kind) nofun

/-- A token of one byte. -/
def token (kind : Kind) (start : Nat) : Tree := .node kind start (start + 1) false []

/-- A member with a name of one character and a value of one digit. -/
def shortPair (start : Nat) : Tree :=
  .node .pair start (start + 5) false [.node .string start (start + 3) false
    [token .quote start, token .content (start + 1), token .quote (start + 2)],
    token .colon (start + 3), token .number (start + 4)]

/-- An object of two such members, the first of which stands behind the brace. -/
def shortObject : Tree :=
  .node .object 0 13 false [token .openBrace 0, shortPair 1, token .comma 6, shortPair 7, token .closeBrace 12]

def shortRoot : Tree := .node .document 0 13 false [shortObject]

theorem wellFormed_shortRoot : shortRoot.WellFormed := Tree.wellFormed_of_isWellFormed (by decide)

def shortDocument (text : String) : Document := ⟨text, shortRoot⟩

theorem innermost_shortObject : Innermost shortObject 2 :=
  innermost_of_flat (wellFormed_shortRoot.child List.mem_cons_self) rfl (by decide) (by decide) (by decide)

/-- In a document without errors, where a name is being chosen in the innermost object around a place, a name
that another pair of the object has is offered if and only if the pair at hand has it as well, it names a
property of the place in the forest, and no literals are known there. -/
theorem repeated_name_offered (d : Document) (sound : d.root.WellFormed) (document : d.root.kind = .document)
    (object : Tree) (within : Inside d.root object) (offset : Nat) (innermost : Innermost object offset)
    (slot : (contextAt d offset).slot = .property) (forest : Forest) (name : String)
    (other : name ∈ otherNames d object offset) :
    let there := forest.resolve (contextAt d offset).path
    (∃ c ∈ plan forest (contextAt d offset), c.kind = .property ∧ c.label = name) ↔
      (pairAt? object offset).bind d.pairKey? = some name ∧ there.values.getD [] = [] ∧
        name ∈ Fields.names (there.properties.getD []) := by
  intro there
  have place := innermost.atName sound document within slot
  have taken := (existing_at_name sound document within place (mem_objectKeys_of_other other)).2
  rw [offered_iff slot, taken, not_not]
  exact ⟨fun ⟨noValues, known, own⟩ => ⟨own, noValues, known⟩,
    fun ⟨own, noValues, known⟩ => ⟨noValues, known, own⟩⟩

/-- With two names that differ, that of the other pair is not offered. -/
theorem repeated_name_offered_of_two :
    let d := shortDocument "\x7b\"a\":1,\"b\":2\x7d"
    let forest : Forest := [("a", .node .null none none), ("b", .node .null none none)]
    (contextAt d 2).slot = .property ∧ "b" ∈ otherNames d shortObject 2 ∧
      ¬∃ c ∈ plan forest (contextAt d 2), c.kind = .property ∧ c.label = "b" := by
  intro d forest
  have slot : (contextAt d 2).slot = .property := by decide +kernel
  have other : "b" ∈ otherNames d shortObject 2 := by decide +kernel
  have atHand : (pairAt? shortObject 2).bind d.pairKey? = some "a" := by decide +kernel
  have within : Inside d.root shortObject := .child List.mem_cons_self (.self shortObject)
  have offered := repeated_name_offered d wellFormed_shortRoot rfl shortObject within 2 innermost_shortObject slot
    forest "b" other
  refine ⟨slot, other, fun found => ?_⟩
  have same := (offered.mp found).1
  rw [atHand] at same
  exact absurd same (by decide)

/-- A name that the pair at hand and another pair have is offered. -/
theorem other_name_offered :
    let d := shortDocument "\x7b\"a\":1,\"a\":2\x7d"
    let forest : Forest := [("a", .node .null none none), ("b", .node .null none none)]
    d.root.WellFormed ∧ Innermost shortObject 2 ∧ (contextAt d 2).slot = .property ∧
      "a" ∈ otherNames d shortObject 2 ∧ (∃ c ∈ plan forest (contextAt d 2), c.kind = .property ∧ c.label = "a") ∧
      (complete [⟨"s", "S", forest⟩] none "s.json" d.text 2).map Candidate.label = ["a", "b"] := by
  intro d forest
  have offered : ∃ c ∈ plan forest (contextAt d 2), c.kind = .property ∧ c.label = "a" := by decide +kernel
  exact ⟨wellFormed_shortRoot, innermost_shortObject, by decide +kernel, by decide +kernel, offered,
    by decide +kernel⟩

end JsonAssist.Completion
