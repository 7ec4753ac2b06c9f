import JsonAssist.Proofs.Completion.Candidates
import JsonAssist.Proofs.Cursor.Naming
import JsonAssist.Proofs.Schema.Absorption
import JsonAssist.Proofs.Syntax.Checked

namespace JsonAssist

namespace Resolved

variable {here next : Resolved} {fields : Fields Schema}

/-- The properties of a place are those of the place before it, or they stand below one of these. -/
theorem properties_of_step {first : Step} (enters : here.step first = some next)
    (known : next.properties = some fields) :
    here.properties = some fields ∨ ∃ outer name s, here.properties = some outer ∧
      Fields.get? outer name = some s ∧ s.children = some fields := by
  unfold step at enters
  split at enters
  next s name =>
    obtain ⟨t, below, rfl⟩ := Option.map_eq_some_iff.mp enters
    obtain ⟨outer, children, found⟩ := Option.bind_eq_some_iff.mp below
    exact Or.inr ⟨outer, name, t, children, found, known⟩
  next array _ =>
    simp only [Option.ite_none_right_eq_some] at enters
    have inArray := enters.2
    unfold elementsOf at inArray
    split at inArray
    next =>
      cases inArray
      cases known
    next children _ =>
      cases inArray
      exact Or.inl (children.trans known)
    next => cases inArray
  next outer name =>
    obtain ⟨t, found, rfl⟩ := Option.map_eq_some_iff.mp enters
    exact Or.inr ⟨outer, name, t, rfl, found, known⟩
  next outer name =>
    obtain ⟨t, found, rfl⟩ := Option.map_eq_some_iff.mp enters
    exact Or.inr ⟨outer, name, t, rfl, found, known⟩
  next => cases enters

/-- Where no two properties have one name, anywhere below, none have after a step or along a path. -/
theorem fieldsDistinct_follow (distinct : ∀ outer, here.properties = some outer → Schema.FieldsDistinct outer)
    (path : Path) (known : (here.follow path).properties = some fields) : Schema.FieldsDistinct fields := by
  fun_induction follow here path with
  | case1 here => exact distinct fields known
  | case2 here s rest _ => exact distinct fields known
  | case3 here s rest _ next enters ih =>
    refine ih (fun inner atNext => ?_) known
    rcases properties_of_step enters atNext with same | ⟨outer, name, t, before, found, children⟩
    · exact distinct inner same
    · exact ((distinct outer before).below _ (Fields.mem_of_get? found)).fields children
  | case4 here s rest _ _ => exact distinct fields known

end Resolved

/-- No two properties of the place where a path leads have one name. -/
theorem Forest.nodup_names_resolve {forest : Forest} (distinct : Schema.FieldsDistinct forest) (path : Path) :
    (Fields.names ((forest.resolve path).properties.getD [])).Nodup := by
  cases known : (forest.resolve path).properties with
  | none => exact List.nodup_nil
  | some fields =>
    have own : ∀ outer, (Resolved.forest forest).properties = some outer → Schema.FieldsDistinct outer :=
      fun _ same => Option.some.inj same ▸ distinct
    exact (Resolved.fieldsDistinct_follow own path known).names

namespace Completion

open Syntax Cursor

/-- In a document without errors, where a name of an object stands or may be written, the names known are
those of all its pairs. Completion follows the steps to the object, and if these lead to no literals in a
forest, it offers the properties found there in their order, but for the names of pairs other than the one
around the place. No name is offered twice if the forest has none twice in one place. -/
theorem names_offered (d : Document) (sound : d.root.WellFormed) (document : d.root.kind = .document)
    (object : Tree) (within : Inside d.root object) (offset : Nat) (place : AtName object offset)
    (distinct : (namesOf d object.children).Nodup) (forest : Forest) :
    existingKeysAt d offset = namesOf d object.children ∧
      (∃ top ∈ d.root.children, Leads d top (completionPathAt d offset) object) ∧
      (∀ top ∈ d.root.children, ∀ path, Leads d top path object → completionPathAt d offset = path) ∧
      ((forest.resolve (completionPathAt d offset)).values.getD [] = [] →
        (plan forest (contextAt d offset)).map Candidate.label =
            (Fields.names ((forest.resolve (completionPathAt d offset)).properties.getD [])).filter
              (· ∉ otherNames d object offset) ∧
          (Schema.FieldsDistinct forest → ((plan forest (contextAt d offset)).map Candidate.label).Nodup) ∧
          ∀ c ∈ plan forest (contextAt d offset), c.kind = .property) := by
  obtain ⟨top, inRoot, path, leads⟩ := within.exists_address sound document (Or.inl place.isObject) d
  obtain ⟨atObject, keys, slot, taken⟩ := context_at_name sound document inRoot leads place distinct
  refine ⟨keys, ⟨top, inRoot, atObject ▸ leads⟩, fun top' inRoot' path' leads' =>
    (context_at_name sound document inRoot' leads' place distinct).1, fun noValues => ?_⟩
  have offers : plan forest (contextAt d offset) =
      propertyCandidates ((forest.resolve (completionPathAt d offset)).properties.getD [])
        (contextAt d offset).existing (contextAt d offset).replace := plan_of_no_values noValues slot
  have labels : (plan forest (contextAt d offset)).map Candidate.label =
      (Fields.names ((forest.resolve (completionPathAt d offset)).properties.getD [])).filter
        (· ∉ otherNames d object offset) := by
    rw [offers, labels_propertyCandidates]
    exact List.filter_congr fun name _ => by simp only [taken name]
  refine ⟨labels, fun own => ?_, fun c member => ?_⟩
  · rw [labels]
    exact (Forest.nodup_names_resolve own _).filter _
  · rw [offers] at member
    exact kind_of_mem_propertyCandidates member

/-- A name between two others, behind an array and a comment, in an object below a name. -/
theorem names_offered_between :
    let token (kind : Kind) (at' : Nat) : Tree := .node kind at' (at' + 1) false []
    let string (at' : Nat) : Tree := .node .string at' (at' + 3) false
      [token .quote at', token .content (at' + 1), token .quote (at' + 2)]
    let array : Tree := .node .array 12 15 false [token .openBracket 12, token .number 13, token .closeBracket 14]
    let first : Tree := .node .pair 7 15 false [string 7, token .colon 10, array]
    let second : Tree := .node .pair 22 28 false [string 22, token .colon 25, token .number 27]
    let third : Tree := .node .pair 30 36 false [string 30, token .colon 33, token .number 35]
    let object : Tree := .node .object 6 37 false [token .openBrace 6, first, token .comma 15,
      .node .comment 17 21 false [], second, token .comma 28, third, token .closeBrace 36]
    let outer : Tree := .node .pair 1 37 false [string 1, token .colon 4, object]
    let whole : Tree := .node .object 0 38 false [token .openBrace 0, outer, token .closeBrace 37]
    let d : Document := ⟨"\x7b\"b\": \x7b\"c\": [2], /**/ \"d\": 3, \"e\": 4\x7d\x7d",
      .node .document 0 38 false [whole]⟩
    let unknown : Schema := .node .null none none
    let forest : Forest :=
      [("b", .node .object (some [("f", unknown), ("e", unknown), ("d", unknown)]) none)]
    d.root.WellFormed ∧ AtName object 23 ∧ existingKeysAt d 23 = ["c", "d", "e"] ∧
      completionPathAt d 23 = [.key "b"] ∧
      (plan forest (contextAt d 23)).map Candidate.label = ["f", "d"] ∧
      ((plan forest (contextAt d 23)).map Candidate.label).Nodup := by
  intro token string array first second third object outer whole d unknown forest
  have sound : d.root.WellFormed := Tree.wellFormed_of_isWellFormed (by decide)
  have place : AtName object 23 := ⟨rfl, by decide, by decide, by decide⟩
  have named : d.pairKey? outer = some "b" := by decide +kernel
  have names : namesOf d object.children = ["c", "d", "e"] := by decide +kernel
  have others : otherNames d object 23 = ["c", "e"] := by decide +kernel
  have inWhole : outer ∈ whole.children := by simp [whole, Tree.children]
  have leads : Leads d whole [.key "b"] object := .member rfl inWhole named rfl (.here object)
  have within : Inside d.root object :=
    .child (c := whole) List.mem_cons_self (.child inWhole (.child (by simp [outer, Tree.children]) (.self object)))
  have own : Schema.FieldsDistinct forest := ⟨by decide, by
    simp [forest, unknown, Schema.namesDistinct_node, or_imp, forall_and]⟩
  obtain ⟨keys, _, path, offers⟩ :=
    names_offered d sound rfl object within 23 place (names ▸ by decide) forest
  have atObject := path whole List.mem_cons_self _ leads
  rw [atObject] at offers
  obtain ⟨labels, once, _⟩ := offers rfl
  refine ⟨sound, place, keys.trans names, atObject, labels.trans ?_, once own⟩
  rw [others]
  decide

end Completion

end JsonAssist
