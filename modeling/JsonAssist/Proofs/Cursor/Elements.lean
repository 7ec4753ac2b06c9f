import JsonAssist.Proofs.Cursor.Consistent
import JsonAssist.Proofs.Cursor.Opened

namespace JsonAssist.Cursor

open Syntax

/-- The innermost container is an object with a member that awaits its value. -/
def Awaits (key : String) (frames : Frames) : Prop :=
  ∃ keys outer, frames = .object keys (some ⟨key, .pending⟩) :: outer

section Paths

variable {frames : Frames}

/-- Completion goes further than the path to a place by the name of a member that awaits its value. -/
theorem ahead_by_key_iff {key : String} :
    pathThrough true frames = pathThrough false frames ++ [.key key] ↔ Awaits key frames := by
  rcases frames with _ | ⟨⟨keys, _ | ⟨name, part⟩⟩ | ⟨index, onElement⟩, outer⟩
  · simp [Awaits, pathThrough]
  · simp [Awaits, pathThrough_cons, stepInto]
  · cases part <;> simp [Awaits, pathThrough_cons, stepInto]
  · cases onElement <;> simp [Awaits, pathThrough_cons, stepInto]

/-- It goes further by an index if the innermost container is an array whose elements do not count as entered. -/
theorem ahead_by_index_iff {index : Nat} :
    pathThrough true frames = pathThrough false frames ++ [.index index] ↔
      ∃ outer, frames = .array index false :: outer := by
  rcases frames with _ | ⟨⟨keys, _ | ⟨name, part⟩⟩ | ⟨index', onElement⟩, outer⟩
  · simp [pathThrough]
  · simp [pathThrough_cons, stepInto]
  · cases part <;> simp [pathThrough_cons, stepInto]
  · cases onElement <;> simp [pathThrough_cons, stepInto]

/-- Where a value is awaited, the path to the place is the one of completion or one step behind it. -/
theorem pathThrough_of_value (slot : slotOf frames = .value) : pathThrough false frames = pathThrough true frames ∨
    ∃ step, pathThrough true frames = pathThrough false frames ++ [step] := by
  rcases pathThrough_cases frames with ⟨same, _⟩ | ⟨_, _, naming, _⟩ | ⟨step, ahead, _⟩
  · exact Or.inl same
  · exact Slot.noConfusion (slot.symm.trans naming)
  · exact Or.inr ⟨step, ahead⟩

theorem exists_array_iff {kinds : List Kind} (own : List.Forall₂ OpenedBy kinds frames) :
    (∃ index outer, frames = .array index false :: outer) ↔ kinds.head? = some .openBracket := by
  cases own with
  | nil => simp
  | cons first others => cases first <;> simp

/-- A member that is being read right in an array of the tree stands behind a loose brace. -/
theorem head_of_awaits {tokens : List Tree} {outer : List Kind} {key : String}
    (own : List.Forall₂ OpenedBy (leftOpen tokens ++ .array :: outer) frames) (awaits : Awaits key frames) :
    (leftOpen tokens ++ .array :: outer).head? = some .openBrace := by
  obtain ⟨keys, further, rfl⟩ := awaits
  have loose := isLoose_of_mem_leftOpen tokens
  cases opened : leftOpen tokens with
  | nil =>
    rw [opened] at own
    cases own with
    | cons first others => cases first
  | cons k kinds =>
    rw [opened, List.cons_append] at own
    cases own with
    | cons first others =>
      cases first with
      | brace => rfl
      | object => simp [opened, IsLoose] at loose

end Paths

section Literal

variable {d : Document} {offset base : Nat} {t : Tree} {frames : Frames} {key : String}

theorem exists_chain_of_literalAt? {range : Nat × Nat} (literal : literalAt? d offset = some range) :
    ∃ before t, d.chainAt offset = before ++ [t] ∧ t.isLeaf := by
  obtain ⟨t, found, _⟩ := Option.map_eq_some_iff.mp literal
  obtain ⟨last, leaf⟩ := Option.filter_eq_some_iff.mp found
  obtain ⟨before, chain⟩ := List.getLast?_eq_some_iff.mp last
  exact ⟨before, t, chain, leaf⟩

theorem not_awaits_startValue : ¬Awaits key frames.startValue := by
  rintro ⟨keys, outer, same⟩
  unfold Frames.startValue at same
  split at same
  · simp at same
  next other => exact other _ _ _ same

theorem not_awaits_seeString (text : String) : ¬Awaits key (frames.seeString text) := by
  rintro ⟨keys, outer, same⟩
  unfold Frames.seeString at same
  split at same
  · simp at same
  · simp at same
  next other => exact other _ _ _ same

/-- A literal that is applied is the value that was awaited, or a name. -/
theorem not_awaits_apply (leaf : t.isLeaf) : ¬Awaits key (apply d base t frames) := by
  rw [Tree.isLeaf] at leaf
  cases kind : t.kind with
  | string | content =>
    obtain ⟨text, spelled⟩ : ∃ text, d.stringValue? t = some text := by
      rw [Document.stringValue?, kind]
      exact ⟨_, rfl⟩
    simp only [apply, kind, spelled]
    exact not_awaits_seeString text
  | number | true | false | null =>
    simp only [apply, kind]
    exact not_awaits_startValue
  | _ => simp [kind, Kind.isLeaf] at leaf

theorem ite_ne_pending (inName : Prop) [Decidable inName] : (if inName then Part.name else .value) ≠ .pending := by
  split <;> simp

theorem not_awaits_enterPair (pair next : Tree) : ¬Awaits key (enterPair d pair (some next) offset frames) := by
  rintro ⟨keys, outer, same⟩
  unfold enterPair at same
  split at same
  · split at same
    · simp at same
    · rw [Option.isSome_some, if_pos rfl] at same
      simp only [List.cons.injEq, Frame.object.injEq, Option.some.injEq, Member.mk.injEq] at same
      exact absurd same.1.2.2 (ite_ne_pending _)
  next other => exact other _ _ _ same

theorem enter_leaf (leaf : t.isLeaf) (outer : Option Kind) (next : Option Tree) : enter d offset outer t next frames =
    if outer = some .pair || outer = some .array then frames else apply d 0 t frames := by
  rw [Tree.isLeaf] at leaf
  rw [enter]
  cases kind : t.kind <;> first | rfl | simp [kind, Kind.isLeaf] at leaf

theorem openers_last (offset : Nat) {p t : Tree} (leaf : t.isLeaf) (before : List Tree) (outer : List Kind) :
    ∃ outer', openers offset (before ++ [p, t]) outer = opensIn t.start p outer' := by
  induction before generalizing outer with
  | nil =>
    refine ⟨outer, ?_⟩
    rw [Tree.isLeaf] at leaf
    simp only [List.nil_append, openers]
    rw [opensIn]
    cases kind : t.kind <;> first | rfl | simp [kind, Kind.isLeaf] at leaf
  | cons u before ih => exact ih _

/-- With the place on a literal, a member can still await its value only if the literal is an element of an array. -/
theorem in_array_of_awaits {before : List Tree} (chain : d.chainAt offset = before ++ [t]) (leaf : t.isLeaf)
    (awaits : Awaits key (locate d offset)) :
    ∃ front array, d.chainAt offset = front ++ [array, t] ∧ array.kind = .array := by
  rw [locate_eq_entered, chain, entered_concat, enter_leaf leaf] at awaits
  split at awaits
  -- In a pair or an array the literal itself changes nothing, but a pair has already entered its value.
  next inside =>
    rcases List.eq_nil_or_concat before with rfl | ⟨front, p, rfl⟩
    · simp at inside
    rw [List.concat_eq_append] at chain inside awaits
    have pairOrArray : p.kind = .pair ∨ p.kind = .array := by simpa using inside
    refine ⟨front, p, by simpa using chain, pairOrArray.resolve_left fun pair => ?_⟩
    rw [entered_concat, enter, pair] at awaits
    exact not_awaits_enterPair p t awaits
  next => exact absurd awaits (not_awaits_apply leaf)

/-- With the place on a literal, no array is the last node of the chain. -/
theorem locate_openedBy_of_literal {range : Nat × Nat} (root : d.root.isNamed)
    (literal : literalAt? d offset = some range) :
    List.Forall₂ OpenedBy (openersAt d offset) (locate d offset) := by
  obtain ⟨before, t, chain, leaf⟩ := exists_chain_of_literalAt? literal
  refine locate_openedBy root fun u last array => ?_
  obtain rfl : t = u := by simpa [chain] using last
  rw [Tree.isLeaf, array] at leaf
  exact Bool.noConfusion leaf

end Literal

/-- On a literal that is a value, the path to it is the path of completion, so that it also names the element that the
literal is, but for two cases of broken text. If the innermost container is open through a bracket that stands
loose, the path stops in front of the index: then, and only then, an element lacks its index. The other case is a
literal that is written into an array of the tree behind a loose brace and a name: there the path stops in front
of the name. -/
theorem literal_address (d : Document) (offset : Nat) (range : Nat × Nat) (root : d.root.isNamed)
    (literal : (contextAt d offset).replace = some range) (value : (contextAt d offset).slot = .value) :
    (pathAt d offset = completionPathAt d offset ∨
        ∃ step, completionPathAt d offset = pathAt d offset ++ [step]) ∧
      ((∃ index, completionPathAt d offset = pathAt d offset ++ [.index index]) ↔
        (openersAt d offset).head? = some .openBracket) ∧
      ∀ key, completionPathAt d offset = pathAt d offset ++ [.key key] →
        (openersAt d offset).head? = some .openBrace ∧
          ∃ before array t, d.chainAt offset = before ++ [array, t] ∧ array.kind = .array := by
  have own := locate_openedBy_of_literal root literal
  refine ⟨pathThrough_of_value value, ?_, fun key ahead => ?_⟩
  · exact (exists_congr fun index => ahead_by_index_iff).trans (exists_array_iff own)
  · obtain ⟨before, t, chain, leaf⟩ := exists_chain_of_literalAt? literal
    have awaits := ahead_by_key_iff.mp ahead
    obtain ⟨front, array, ends, isArray⟩ := in_array_of_awaits chain leaf awaits
    obtain ⟨outer, opened⟩ := openers_last offset leaf front []
    refine ⟨?_, front, array, t, ends, isArray⟩
    rw [openersAt, ends, opened, opensIn, isArray] at own ⊢
    exact head_of_awaits own awaits

/-- The second element of an array whose bracket stands loose. -/
theorem literal_address_of_second_element :
    let d := Document.parse "[3, 4,"
    d.root.isNamed ∧ (contextAt d 4).replace = some (4, 5) ∧ (contextAt d 4).slot = .value ∧
      (openersAt d 4).head? = some .openBracket ∧
      ∃ index, completionPathAt d 4 = pathAt d 4 ++ [.index index] := by
  intro d
  have root : d.root.isNamed := by decide +kernel
  have literal : (contextAt d 4).replace = some (4, 5) := by decide +kernel
  have value : (contextAt d 4).slot = .value := by decide +kernel
  have loose : (openersAt d 4).head? = some .openBracket := by decide +kernel
  exact ⟨root, literal, value, loose, (literal_address d 4 (4, 5) root literal value).2.1.mpr loose⟩

/-- The path to a literal need not name the element that it is. -/
theorem not_literal_addressed : ¬∀ (d : Document) (offset : Nat) (range : Nat × Nat),
    (contextAt d offset).replace = some range → (contextAt d offset).slot = .value →
      pathAt d offset = completionPathAt d offset := by
  intro addressed
  have same := addressed (.parse "[1,") 1 (1, 2) (by decide +kernel) (by decide +kernel)
  have path : pathAt (.parse "[1,") 1 = [] := by decide +kernel
  have completion : completionPathAt (.parse "[1,") 1 = [.index 0] := by decide +kernel
  rw [path, completion] at same
  exact absurd same (by decide)

end JsonAssist.Cursor
