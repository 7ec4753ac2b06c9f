import JsonAssist.Proofs.Cursor.Truncated
import JsonAssist.Proofs.Syntax.Chain

namespace JsonAssist

open Syntax

namespace Syntax.Tree

theorem range_of_holds {offset : Nat} {t : Tree} (holds : t.holds offset) :
    t.start ≤ offset ∧ offset ≤ t.stop := by
  simp only [Tree.holds, Bool.and_eq_true, Bool.or_eq_true, decide_eq_true_eq, beq_iff_eq] at holds
  omega

end Syntax.Tree

namespace Cursor

/-- The literal at a place reaches from the place or before it to the place or behind it. -/
theorem range_of_literalAt? {d : Document} {offset : Nat} (root : ¬d.root.isLeaf) {range : Nat × Nat}
    (literal : literalAt? d offset = some range) : range.1 ≤ offset ∧ offset ≤ range.2 := by
  obtain ⟨t, found, rfl⟩ := Option.map_eq_some_iff.mp literal
  obtain ⟨last, leaf⟩ := Option.filter_eq_some_iff.mp found
  rcases Tree.holds_of_mem_chain (List.mem_of_getLast? last) with rfl | holds
  · exact absurd leaf root
  · exact Tree.range_of_holds holds

/-- Containers further out contribute the same steps to both paths. -/
theorem stepInto_outer (completion : Bool) (frame : Frame) :
    stepInto completion false frame = stepInto true false frame := by
  rcases frame with ⟨keys, _ | ⟨key, place⟩⟩ | ⟨index, onElement⟩
  · rfl
  · cases place <;> simp [stepInto]
  · simp [stepInto]

theorem pathThrough_cons (completion : Bool) (innermost : Frame) (outer : Frames) :
    pathThrough completion (innermost :: outer) =
      outerPath outer ++ (stepInto completion true innermost).toList := by
  rw [pathThrough, funext (stepInto_outer completion), outerPath]

/-- Only the innermost container tells the two paths apart: at a name the path to the place goes one step
further than completion does, and where a value is awaited completion goes one step further. -/
theorem pathThrough_cases (frames : Frames) :
    (pathThrough false frames = pathThrough true frames ∧
        (slotOf frames = .property → takenKeys frames = (nearestKeys? frames).getD [])) ∨
      (∃ key, pathThrough false frames = pathThrough true frames ++ [.key key] ∧ slotOf frames = .property ∧
        takenKeys frames = ((nearestKeys? frames).getD []).filter (· != key)) ∨
      ∃ step, pathThrough true frames = pathThrough false frames ++ [step] ∧ slotOf frames = .value := by
  rcases frames with _ | ⟨⟨keys, _ | ⟨key, part⟩⟩ | ⟨index, onElement⟩, outer⟩
  · exact Or.inl ⟨rfl, fun _ => rfl⟩
  · exact Or.inl ⟨by simp [pathThrough_cons, stepInto], fun _ => rfl⟩
  · cases part with
    | name => exact Or.inr (Or.inl ⟨key, by simp [pathThrough_cons, stepInto], rfl, rfl⟩)
    | pending => exact Or.inr (Or.inr ⟨.key key, by simp [pathThrough_cons, stepInto], rfl⟩)
    | value => exact Or.inl ⟨by simp [pathThrough_cons, stepInto], fun naming => Slot.noConfusion naming⟩
  · cases onElement with
    | false => exact Or.inr (Or.inr ⟨.index index, by simp [pathThrough_cons, stepInto], rfl⟩)
    | true => exact Or.inl ⟨by simp [pathThrough_cons, stepInto], fun naming => Slot.noConfusion naming⟩

theorem existing_of_property {d : Document} {offset : Nat} (slot : (contextAt d offset).slot = .property) :
    (contextAt d offset).existing = takenKeys (locate d offset) := by
  have naming : slotOf (locate d offset) = .property := slot
  simp only [contextAt, naming]

theorem existing_of_value {d : Document} {offset : Nat} (slot : (contextAt d offset).slot = .value) :
    (contextAt d offset).existing = [] := by
  have valued : slotOf (locate d offset) = .value := slot
  simp only [contextAt, valued]

/-- In every syntax tree, however broken, the answers about a place agree with each other. The path to it
and the path of completion are the same; or the first one goes on to a name that is being written, which
then is the one name that counts as free again; or the second one goes on to a value to be written. Names
count as taken only where a name is written. The literal to be replaced is around the place if it is not
the root itself, which in the tree of a text is a document or an error. -/
theorem context_agrees (d : Document) (offset : Nat) :
    (contextAt d offset).path = completionPathAt d offset ∧
      ((pathAt d offset = completionPathAt d offset ∧
          ((contextAt d offset).slot = .property → (contextAt d offset).existing = existingKeysAt d offset)) ∨
        (∃ key, pathAt d offset = completionPathAt d offset ++ [.key key] ∧
          (contextAt d offset).slot = .property ∧
          (contextAt d offset).existing = (existingKeysAt d offset).filter (· != key)) ∨
        ∃ step, completionPathAt d offset = pathAt d offset ++ [step] ∧ (contextAt d offset).slot = .value) ∧
      ((contextAt d offset).slot = .value → (contextAt d offset).existing = []) ∧
      (¬d.root.isLeaf →
        ∀ range, (contextAt d offset).replace = some range → range.1 ≤ offset ∧ offset ≤ range.2) := by
  refine ⟨rfl, ?_, existing_of_value, fun root range => range_of_literalAt? root⟩
  rcases pathThrough_cases (locate d offset) with ⟨same, free⟩ | ⟨key, further, slot, others⟩ | ahead
  · exact Or.inl ⟨same, fun slot => (existing_of_property slot).trans (free slot)⟩
  · exact Or.inr (Or.inl ⟨key, further, slot, (existing_of_property slot).trans others⟩)
  · exact Or.inr (Or.inr ahead)

/-- A name whose closing quote and colon are missing, left in an error behind a whole pair. -/
theorem context_agrees_at_open_name :
    let token (kind : Kind) (at' : Nat) : Tree := .node kind at' (at' + 1) false []
    let name : Tree := .node .string 1 4 false [token .quote 1, token .content 2, token .quote 3]
    let pair : Tree := .node .pair 1 7 false [name, token .colon 4, token .number 6]
    let broken : Tree := .node .error 0 11 false
      [token .openBrace 0, pair, token .comma 7, token .quote 9, token .content 10]
    let d : Document := ⟨"\x7b\"a\": 1, \"b", .node .document 0 11 false [broken]⟩
    ¬d.root.isLeaf ∧ pathAt d 10 = completionPathAt d 10 ++ [.key "b"] ∧
      (contextAt d 10).slot = .property ∧ existingKeysAt d 10 = ["a", "b"] ∧
      (contextAt d 10).existing = (existingKeysAt d 10).filter (· != "b") ∧
      (contextAt d 10).replace = some (10, 11) ∧ 10 ≤ 10 ∧ 10 ≤ 11 := by
  intro token name pair broken d
  have root : ¬d.root.isLeaf := by decide
  have path : pathAt d 10 = [.key "b"] ∧ completionPathAt d 10 = [] := by decide +kernel
  have keys : existingKeysAt d 10 = ["a", "b"] := by decide +kernel
  have replace : (contextAt d 10).replace = some (10, 11) := by decide +kernel
  obtain ⟨_, paths, _, around⟩ := context_agrees d 10
  rcases paths with ⟨same, _⟩ | ⟨key, further, slot, others⟩ | ⟨step, further, _⟩
  · simp [path] at same
  · obtain rfl : "b" = key := by simpa [path] using further
    exact ⟨root, further, slot, keys, others, replace, around root _ replace⟩
  · simp [path] at further

end Cursor

end JsonAssist
