import JsonAssist.Proofs.Cursor.Naming

namespace JsonAssist.Cursor

open Syntax

/-- An object around a place, with no other container around the place inside it. -/
structure Innermost (object : Tree) (offset : Nat) : Prop where
  isObject : object.kind = .object
  starts : object.start ≤ offset
  stops : offset < object.stop
  alone : ∀ container, Inside object container → container.kind = .object ∨ container.kind = .array →
    container.start ≤ offset → offset < container.stop → container = object

/-- An object whose members are literals is the innermost container around each of its places. -/
theorem innermost_of_flat {object : Tree} {offset : Nat} (sound : object.WellFormed)
    (isObject : object.kind = .object) (starts : object.start ≤ offset) (stops : offset < object.stop)
    (flat : ∀ p ∈ object.children, p.value?.all fun value => value.kind.isLiteral) : Innermost object offset := by
  refine ⟨isObject, starts, stops, fun container inside isContainer _ _ => ?_⟩
  have notLiteral := Kind.not_isLiteral_of_container isContainer
  have isValue := Kind.isValue_of_container isContainer
  have ofObject := Kind.isValue_of_container (Or.inl isObject)
  rcases (inside.found sound isValue ⟨"", object⟩).1 ofObject with ⟨path, leads⟩ | ⟨_, _, names⟩
  · cases leads with
    | here => rfl
    | @member _ p value _ _ _ _ member _ valued rest =>
      have literal : value.kind.isLiteral := by simpa [valued] using flat p member
      cases rest with
      | here => exact absurd literal notLiteral
      | member same => simp [same, Kind.isLiteral] at literal
      | element same => simp [same, Kind.isLiteral] at literal
    | element isArray => cases isObject.symm.trans isArray
  · exact absurd (names.isString sound ▸ rfl) notLiteral

section Pairs

variable {d : Document} {offset : Nat} {object p colon : Tree} {path : Path} {frames : Frames}

/-- In a pair behind its colon, no name is around the place. -/
theorem name_before_colon (sound : p.WellFormed) {name : Tree} (own : p.key? = some name) (inPair : colon ∈ p.children)
    (isColon : colon.kind = .colon) : name.stop < colon.stop := by
  have pair := Tree.kind_of_key? own
  obtain ⟨name', front, colon', back, value, children, parts, isString, _⟩ := sound.pair_children pair
  obtain rfl : name' = name := by simpa [Tree.key?, pair, parts] using own
  have order := sound.order
  have wide := sound.child_wide inPair
  rw [children] at order inPair
  have behind : colon ∈ front ++ colon' :: (back ++ [value]) := by
    rcases List.mem_cons.mp inPair with rfl | behind
    · cases isString.symm.trans isColon
    · exact behind
  have before : name'.stop ≤ colon.start := (List.pairwise_cons.mp order).1 colon behind
  omega

/-- Behind the colon of a pair whose value is not around the place, the pair awaits a value. -/
theorem enterAll_pending {key : String} {keys : List String} {member : Option Member} (sound : p.WellFormed)
    (named : d.pairKey? p = some key) (inPair : colon ∈ p.children) (isColon : colon.kind = .colon)
    (behind : colon.stop ≤ offset)
    (apart : ∀ value, p.value? = some value → value.start ≤ offset → ¬offset < value.stop) (outer : Option Kind) :
    enterAll d offset outer (p.chain offset) (.object keys member :: frames) =
      .object keys (some ⟨key, .pending⟩) :: frames := by
  have pair := Document.kind_of_pairKey? named
  have chain : p.chain offset = [p] := by
    refine sound.chain_eq_self fun c inside isNamed notComment within => ?_
    rcases sound.child_cases inside with isValue | isPair | ⟨token, _⟩
    · rcases sound.key?_or_value? pair inside isValue with own | valued
      · have before := name_before_colon sound own inPair isColon
        omega
      · exact apart c valued within.1 within.2
    · cases (sound.outer_of_pair inside isPair).symm.trans pair
    · have held := sound.form.mayHold inside
      rw [Tree.isNamed] at isNamed
      cases kind : c.kind <;> simp_all [Kind.mayHold, Kind.isNamed, Kind.isToken, Kind.isValue]
  have behindColon : colonBefore p offset :=
    List.any_eq_true.mpr ⟨colon, inPair, by simp [isColon, (sound.child inPair).not_missing, behind]⟩
  simp [chain, enterAll, enter, pair, enterPair, named, behindColon]

/-- Behind the colon of a pair of the innermost object a value is being chosen. -/
theorem slot_behind_colon (sound : object.WellFormed) (innermost : Innermost object offset)
    (inObject : p ∈ object.children) (pair : p.kind = .pair) (starts : p.start ≤ offset) (stops : offset < p.stop)
    (inPair : colon ∈ p.children)
    (isColon : colon.kind = .colon) (behind : colon.stop ≤ offset) (reads : Reads frames path) (outer : Option Kind) :
    slotOf (enterAll d offset outer (object.chain offset) frames) = .value := by
  have ofPair := sound.child inObject
  obtain ⟨_, key, _, _, named⟩ := ofPair.exists_pairKey pair d
  by_cases onValue : ∃ value, p.value? = some value ∧ value.start ≤ offset ∧ offset < value.stop
  · obtain ⟨value, valued, startsIn, stopsIn⟩ := onValue
    obtain ⟨_, enters⟩ :=
      enterAll_member sound innermost.isObject inObject named valued startsIn stopsIn reads outer
    have inPair' : value ∈ p.children := Tree.mem_of_mem_parts (Tree.mem_of_value? valued)
    have apart : value ≠ object := fun same => by
      obtain ⟨name, _, own, wide, nameBefore, _⟩ := ofPair.before_value valued
      have inRange := ofPair.inside (Tree.mem_of_mem_parts (Tree.mem_of_key? own))
      have inRange' := sound.inside inObject
      rw [same] at nameBefore
      omega
    have noContainer (isContainer : value.kind = .object ∨ value.kind = .array) : False :=
      apart (innermost.alone value (.child inObject (.child inPair' (.self value))) isContainer startsIn stopsIn)
    have literal : value.kind.isLiteral :=
      Kind.isLiteral_of_isValue (ofPair.isValue_of_value? valued) (fun same => noContainer (Or.inl same))
        (fun same => noContainer (Or.inr same))
    rw [enters, Tree.chain_of_leaf (Kind.isLeaf_of_isLiteral literal)]
    simp only [enterAll, List.head?_nil, enter_literal literal (Or.inl rfl)]
    rfl
  · have chain := sound.chain_of_child inObject (Or.inr pair) starts stops
    have apart : ∀ value, p.value? = some value → value.start ≤ offset → ¬offset < value.stop :=
      fun value valued startsIn stopsIn => onValue ⟨value, valued, startsIn, stopsIn⟩
    rw [enterAll_chain outer chain, enter_object sound innermost.isObject reads,
      enterAll_pending ofPair named inPair isColon behind apart]
    rfl

end Pairs

/-- Where a name is being chosen in the innermost object, the place is behind none of its colons. -/
theorem Innermost.atName {d : Document} {object : Tree} {offset : Nat} (innermost : Innermost object offset)
    (sound : d.root.WellFormed) (document : d.root.kind = .document) (within : Inside d.root object)
    (slot : (contextAt d offset).slot = .property) : AtName object offset where
  isObject := innermost.isObject
  starts := innermost.starts
  stops := innermost.stops
  free p inObject pair starts stops colon inPair isColon := by
    by_contra before
    obtain ⟨top, inRoot, path, leads⟩ := within.exists_address sound document (Or.inl innermost.isObject) d
    have ofObject := (leads.inside (sound.child inRoot)).1
    have isValue := Kind.isValue_of_container (Or.inl innermost.isObject)
    obtain ⟨_, outer, frames, _, located, reads, _⟩ :=
      locate_leads sound document inRoot leads isValue innermost.starts innermost.stops
    have value := slot_behind_colon (d := d) ofObject innermost inObject pair starts stops inPair isColon
      (Nat.not_lt.mp before) reads outer
    rw [← located] at value
    cases slot.symm.trans value

end JsonAssist.Cursor
