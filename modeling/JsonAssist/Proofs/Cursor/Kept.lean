import JsonAssist.Proofs.Cursor.Opened

namespace JsonAssist

namespace Syntax

theorem Kind.not_isBracket_of_isNamed {k : Kind} (named : k.isNamed) : ¬k.isBracket := by
  revert named
  cases k <;> decide

namespace Tree

def isContainer (t : Tree) : Bool := t.kind = .object || t.kind = .array

theorem isContainer_iff {t : Tree} : t.isContainer ↔ t.kind = .object ∨ t.kind = .array := by
  simp only [isContainer, Bool.or_eq_true, decide_eq_true_eq]

end Tree

end Syntax

namespace Cursor

open Syntax

/-- What becomes of containers in a replay: they stay, below those that it opened for loose brackets. -/
def Grown (frames after : Frames) : Prop :=
  ∃ loose opened frames', after = opened ++ frames' ∧ Touched frames frames' ∧ (∀ k ∈ loose, IsLoose k) ∧
    List.Forall₂ OpenedBy loose opened

section Turns

variable {d : Document} {boundary : Nat} {frames after : Frames}

theorem grown_apply (token : Tree) (grown : Grown frames after) : Grown frames (apply d frames.length token after) := by
  obtain ⟨loose, opened, under, rfl, touched, kinds, own⟩ := grown
  obtain ⟨opened', under', step, touched', own'⟩ := apply_opened d token under kinds own
  rw [touched.length_eq] at step
  exact ⟨_, opened', under', step, touched.trans touched', isLoose_of_mem_bracketsBehind kinds, own'⟩

theorem grown_turn (w : Walk) (grown : Grown frames after) :
    Grown frames (turn d boundary frames.length w after).2 := by
  unfold turn
  split
  · exact grown
  · split
    · exact grown
    · dsimp only
      split
      · exact grown_apply w.here grown
      · exact grown

theorem grown_advance (turns : Nat) (first : Option Walk) (grown : Grown frames after) :
    Grown frames ((advance d boundary frames.length)^[turns] (first, after)).2 := by
  induction turns generalizing first after with
  | zero => exact grown
  | succ turns ih =>
    rw [Function.iterate_succ_apply]
    cases first with
    | none => exact ih none grown
    | some w => exact ih _ (grown_turn w grown)

end Turns

/-- A container of the answer that an object or array of the tree stands for. That of an object has the names of its
pairs. -/
inductive Stands (d : Document) : Tree → Frame → Prop
  | object {t : Tree} {keys : List String} {member : Option Member} (isObject : t.kind = .object)
      (known : objectKeys d t ⊆ keys) : Stands d t (.object keys member)
  | array {t : Tree} {index : Nat} {onElement : Bool} (isArray : t.kind = .array) :
      Stands d t (.array index onElement)

section Entering

variable {d : Document} {offset : Nat} {t : Tree} {around chain : List Tree} {frames after : Frames}

theorem Touched.stands (touched : Touched frames after) (kept : List.SublistForall₂ (Stands d) around frames) :
    List.SublistForall₂ (Stands d) around after := by
  cases touched with
  | refl => exact kept
  | object grows =>
    cases kept with
    | nil => exact .nil
    | cons first others =>
      cases first with
      | object isObject known => exact .cons (.object isObject (List.Subset.trans known grows)) others
    | cons_right others => exact .cons_right others
  | array =>
    cases kept with
    | nil => exact .nil
    | cons first others =>
      cases first with
      | array isArray => exact .cons (.array isArray) others
    | cons_right others => exact .cons_right others

theorem stands_opened (opened : Frames) (kept : List.SublistForall₂ (Stands d) around frames) :
    List.SublistForall₂ (Stands d) around (opened ++ frames) := by
  induction opened with
  | nil => exact kept
  | cons _ _ ih => exact .cons_right ih

theorem replay_stands (boundary : Nat) (kept : List.SublistForall₂ (Stands d) around frames) :
    List.SublistForall₂ (Stands d) around (replay d t boundary frames) := by
  obtain ⟨opened, after, split, touched, _⟩ := replay_opened d t boundary frames
  rw [split]
  exact stands_opened opened (touched.stands kept)

/-- One step down keeps what stands, and an object or array adds its own container. -/
theorem enter_stands (offset : Nat) (outer : Option Kind) (next : Option Tree) (plain : ¬t.kind.isBracket)
    (kept : List.SublistForall₂ (Stands d) around frames) :
    List.SublistForall₂ (Stands d) (if t.isContainer then t :: around else around)
      (enter d offset outer t next frames) := by
  have started := (touched_startValue frames).stands kept
  have added (container : t.kind = .object ∨ t.kind = .array) :
      (if t.isContainer then t :: around else around) = t :: around := if_pos (Tree.isContainer_iff.mpr container)
  have same (other : ¬(t.kind = .object ∨ t.kind = .array)) :
      (if t.isContainer then t :: around else around) = around := if_neg (Tree.isContainer_iff.not.mpr other)
  unfold enter
  cases kind : t.kind with
  | object =>
    rw [added (.inl kind)]
    exact replay_stands _ (.cons (.object kind (List.Subset.refl _)) started)
  | array =>
    rw [added (.inr kind)]
    exact replay_stands _ (.cons (.array kind) started)
  | document | error =>
    rw [same (by simp [kind])]
    exact replay_stands _ kept
  | pair =>
    rw [same (by simp [kind])]
    exact (touched_enterPair d t next offset frames).stands kept
  | _ =>
    rw [same (by simp [kind])]
    dsimp only
    split
    · exact kept
    · exact (touched_apply plain frames).stands kept

theorem enterAll_stands (outer : Option Kind) (plain : ∀ t ∈ chain, ¬t.kind.isBracket)
    (kept : List.SublistForall₂ (Stands d) around frames) :
    List.SublistForall₂ (Stands d) ((chain.filter Tree.isContainer).reverse ++ around)
      (enterAll d offset outer chain frames) := by
  induction chain generalizing outer around frames with
  | nil => exact kept
  | cons t rest ih =>
    obtain ⟨first, others⟩ := List.forall_mem_cons.mp plain
    have entered := ih (some t.kind) others (enter_stands offset outer rest.head? first kept)
    by_cases container : t.isContainer
    · rw [if_pos container] at entered
      rw [List.filter_cons_of_pos container, List.reverse_cons, List.append_assoc, List.singleton_append]
      exact entered
    · rw [if_neg container] at entered
      rw [List.filter_cons_of_neg container]
      exact entered

end Entering

theorem locate_stands (d : Document) (offset : Nat) :
    List.SublistForall₂ (Stands d) ((d.chainAt offset).filter Tree.isContainer).reverse (locate d offset) := by
  obtain ⟨below, chain⟩ : ∃ below, d.root.chain offset = d.root :: below := ⟨_, Tree.chain_eq offset d.root⟩
  have plain : ∀ t ∈ below, ¬t.kind.isBracket := fun t member => by
    obtain ⟨_, _, named, _⟩ := Tree.exists_crosses (show t ∈ (d.root.chain offset).tail from chain ▸ member)
    exact Kind.not_isBracket_of_isNamed named
  rw [locate, Document.chainAt, chain, ← List.append_nil (List.reverse _)]
  by_cases container : d.root.isContainer
  · have rootPlain : ¬d.root.kind.isBracket := by
      rcases Tree.isContainer_iff.mp container with kind | kind <;> simp [kind, Kind.isBracket]
    exact enterAll_stands none (List.forall_mem_cons.mpr ⟨rootPlain, plain⟩) .nil
  · rw [List.filter_cons_of_neg container]
    exact enterAll_stands _ plain .nil

/-- At no turn of a replay is a container gone that there was before it, and only of the innermost one does a replay
change what it tells of its names and of the place in it. So each object and each array on the way to a place has a
container of its kind in the answer, one after the other in the order of the way, whatever brackets, commas and colons
stand loose in the errors around. -/
theorem locate_keeps_containers (d : Document) (offset : Nat) :
    (∀ t boundary frames turns, ∃ opened frames', Touched frames frames' ∧
      ((advance d boundary frames.length)^[turns] (firstToken? t, frames)).2 = opened ++ frames') ∧
    (∀ t boundary frames, ∃ opened frames', Touched frames frames' ∧ replay d t boundary frames = opened ++ frames') ∧
    List.SublistForall₂ (Stands d) ((d.chainAt offset).filter Tree.isContainer) (locate d offset).reverse := by
  refine ⟨fun t boundary frames turns => ?_, fun t boundary frames => ?_, ?_⟩
  · have start : Grown frames frames := ⟨[], [], frames, rfl, .refl frames, List.forall_mem_nil _, .nil⟩
    obtain ⟨_, opened, frames', split, touched, _⟩ := grown_advance turns (firstToken? t) start
    exact ⟨opened, frames', touched, split⟩
  · obtain ⟨opened, frames', split, touched, _⟩ := replay_opened d t boundary frames
    exact ⟨opened, frames', touched, split⟩
  · obtain ⟨frames, stands, sublist⟩ := List.sublistForall₂_iff.mp (locate_stands d offset)
    refine List.sublistForall₂_iff.mpr ⟨frames.reverse, ?_, sublist.reverse⟩
    exact List.reverse_reverse (List.filter _ _) ▸ List.rel_reverse stands

end Cursor

end JsonAssist
