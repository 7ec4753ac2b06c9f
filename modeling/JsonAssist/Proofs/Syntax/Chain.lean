import Mathlib.Data.List.Chain
import JsonAssist.Proofs.Syntax.Address
import JsonAssist.Proofs.Syntax.Checked

namespace JsonAssist.Syntax

namespace Tree

/-- How the nodes of a chain follow each other: into a named child that holds the place. -/
def Crosses (offset : Nat) (outer inner : Tree) : Prop :=
  inner ∈ outer.children ∧ inner.isNamed ∧ inner.holds offset

mutual

theorem isChain_chain {offset : Nat} : ∀ t : Tree, (t.chain offset).IsChain (Crosses offset)
  | .node k s e m cs => by
    rw [chain]
    split
    · exact .singleton _
    · exact isChain_chainAmong cs (List.Subset.refl _)

theorem isChain_chainAmong {offset : Nat} {outer : Tree} : ∀ ts : List Tree, ts ⊆ outer.children →
    (outer :: chainAmong offset ts).IsChain (Crosses offset)
  | [], _ => .singleton _
  | t :: rest, inside => by
    obtain ⟨first, others⟩ := List.cons_subset.mp inside
    rw [chainAmong]
    split
    next passes =>
      simp only [Bool.and_eq_true] at passes
      have inner : (t.chain offset).IsChain (Crosses offset) := isChain_chain t
      cases t
      exact .cons_cons ⟨first, passes.1.1, passes.2⟩ inner
    next => exact isChain_chainAmong rest others

end

section

variable {offset : Nat} {t u outer inner : Tree} {before after : List Tree}

theorem crosses_of_chain (split : t.chain offset = before ++ outer :: inner :: after) :
    Crosses offset outer inner := by
  have linked : (t.chain offset).IsChain (Crosses offset) := isChain_chain t
  rw [split, List.isChain_append_cons_cons] at linked
  exact linked.2.1

/-- All nodes of a chain but the first one were crossed into. -/
theorem exists_crosses (member : u ∈ (t.chain offset).tail) : ∃ outer, Crosses offset outer u := by
  obtain ⟨before, after, split⟩ := List.append_of_mem member
  have chain : t.chain offset = t :: (before ++ u :: after) := by rw [← split, t.chain_eq, List.tail_cons]
  rcases List.eq_nil_or_concat before with rfl | ⟨front, outer, rfl⟩
  · exact ⟨t, crosses_of_chain (chain.trans (List.nil_append _).symm)⟩
  · rw [List.concat_eq_append, List.append_assoc, List.singleton_append, ← List.cons_append] at chain
    exact ⟨outer, crosses_of_chain chain⟩

theorem crosses_of_mem_chain (member : u ∈ t.chain offset) : u = t ∨ ∃ outer, Crosses offset outer u := by
  have chain : t.chain offset = t :: (t.chain offset).tail := by rw [t.chain_eq, List.tail_cons]
  rw [chain] at member
  exact (List.mem_cons.mp member).imp_right exists_crosses

/-- All nodes of a chain are named if its first one is. -/
theorem isNamed_of_mem_chain (named : t.isNamed) (member : u ∈ t.chain offset) : u.isNamed := by
  rcases crosses_of_mem_chain member with rfl | ⟨_, _, own, _⟩
  · exact named
  · exact own

/-- All nodes of a chain but the first one are there because they hold the place. -/
theorem holds_of_mem_chain (member : u ∈ t.chain offset) : u = t ∨ u.holds offset :=
  (crosses_of_mem_chain member).imp_right fun ⟨_, _, _, holds⟩ => holds

end

mutual

/-- The nodes below a node in the order of the text, each in front of those below it. What is in a string is left
out. -/
def descendants : Tree → List Tree
  | .node k _ _ _ cs => if k = .string then [] else descendantsAmong cs

def descendantsAmong : List Tree → List Tree
  | [] => []
  | t :: rest => t :: (t.descendants ++ descendantsAmong rest)

end

/-- Whether a node is named, is no comment and has the place in its range. -/
def covers (offset : Nat) (t : Tree) : Bool :=
  t.isNamed && t.kind != .comment && t.start ≤ offset && offset < t.stop

section

variable {offset : Nat} {t u : Tree} {ts : List Tree}

theorem covers_iff : covers offset t ↔
    (t.isNamed ∧ t.kind ≠ .comment) ∧ t.start ≤ offset ∧ offset < t.stop := by
  simp only [covers, Bool.and_eq_true, bne_iff_ne, decide_eq_true_eq, and_assoc]

theorem mem_descendantsAmong : u ∈ descendantsAmong ts ↔ ∃ t ∈ ts, u = t ∨ u ∈ t.descendants := by
  induction ts with
  | nil => simp [descendantsAmong]
  | cons t ts ih =>
    rw [descendantsAmong, List.mem_cons, List.mem_append, ih,
      List.exists_mem_cons_iff (fun c => u = c ∨ u ∈ c.descendants), or_assoc]

theorem exists_child_of_mem_descendants (member : u ∈ t.descendants) : ∃ c ∈ t.children, u = c ∨ u ∈ c.descendants := by
  obtain ⟨k, s, e, m, cs⟩ := t
  rw [descendants] at member
  split at member
  · cases member
  · exact mem_descendantsAmong.mp member

namespace WellFormed

/-- Each node lies inside those it is below. -/
theorem range_of_mem_descendants (sound : t.WellFormed) (member : u ∈ t.descendants) :
    t.start ≤ u.start ∧ u.stop ≤ t.stop := by
  induction sound with
  | @node k s e cs form order inside wide children ih =>
    obtain ⟨c, inChildren, same | inner⟩ := exists_child_of_mem_descendants member
    · exact same ▸ inside c inChildren
    · have outer : s ≤ c.start ∧ c.stop ≤ e := inside c inChildren
      have within := ih c inChildren inner
      exact ⟨Nat.le_trans outer.1 within.1, Nat.le_trans within.2 outer.2⟩

theorem ne_document_of_mem_descendants (sound : t.WellFormed) (member : u ∈ t.descendants) : u.kind ≠ .document := by
  induction sound with
  | node form _ _ _ _ ih =>
    obtain ⟨c, inChildren, same | inner⟩ := exists_child_of_mem_descendants member
    · exact same ▸ form.ne_document inChildren
    · exact ih c inChildren inner

/-- Below a node that is not around a place, no node is. -/
theorem filter_descendants_of_apart (sound : t.WellFormed) (apart : ¬covers offset t) :
    t.descendants.filter (covers offset) = [] := by
  refine List.filter_eq_nil_iff.mpr fun u member around => apart (covers_iff.mpr ⟨?_, ?_⟩)
  · obtain ⟨c, inChildren, _⟩ := exists_child_of_mem_descendants member
    have group : ¬t.kind.isToken := fun token => by simp [sound.children_of_token token] at inChildren
    rw [isNamed]
    cases kind : t.kind <;> simp_all [Kind.isToken, Kind.isNamed]
  · have within := sound.range_of_mem_descendants member
    have own := (covers_iff.mp around).2
    omega

end WellFormed

/-- Behind a node that reaches over a place, no node does. -/
theorem filter_descendantsAmong_of_before (sound : ∀ c ∈ ts, c.WellFormed) (before : ∀ c ∈ ts, offset < c.start) :
    (descendantsAmong ts).filter (covers offset) = [] := by
  refine List.filter_eq_nil_iff.mpr fun u member around => ?_
  obtain ⟨c, inList, own⟩ := mem_descendantsAmong.mp member
  have begins : c.start ≤ u.start := by
    rcases own with rfl | inner
    · exact Nat.le_refl _
    · exact ((sound c inList).range_of_mem_descendants inner).1
  have notReached := before c inList
  have reached := (covers_iff.mp around).2.1
  omega

/-- Of siblings in order, the way down takes the one around the place, and then those around it that are below. -/
theorem filter_descendantsAmong (sound : ∀ c ∈ ts, c.WellFormed ∧ c.kind ≠ .document)
    (order : ts.Pairwise fun a b => a.stop ≤ b.start)
    (below : ∀ c ∈ ts, c.descendants.filter (covers offset) = (c.chain offset).tail) :
    (descendantsAmong ts).filter (covers offset) = chainAmong offset ts := by
  induction ts with
  | nil => rfl
  | cons t ts ih =>
    obtain ⟨⟨own, part⟩, others⟩ := List.forall_mem_cons.mp sound
    obtain ⟨before, ordered⟩ := List.pairwise_cons.mp order
    obtain ⟨inner, inOthers⟩ := List.forall_mem_cons.mp below
    have holds_iff : t.holds offset ↔ t.start ≤ offset ∧ offset < t.stop := own.holds_iff part
    have covered : covers offset t ↔ t.isNamed && t.kind != .comment && t.holds offset := by
      simp only [covers_iff, Bool.and_eq_true, bne_iff_ne, holds_iff]
    rw [descendantsAmong, List.filter_cons, List.filter_append, chainAmong]
    by_cases taken : covers offset t
    · have behind : ∀ c ∈ ts, offset < c.start := fun c member =>
        Nat.lt_of_lt_of_le (covers_iff.mp taken).2.2 (before c member)
      rw [if_pos taken, if_pos (covered.mp taken), inner,
        filter_descendantsAmong_of_before (fun c member => (others c member).1) behind, List.append_nil, t.chain_eq,
        List.tail_cons]
    · rw [if_neg taken, if_neg (covered.not.mp taken), own.filter_descendants_of_apart taken, List.nil_append,
        ih others ordered inOthers]

namespace WellFormed

theorem filter_descendants (sound : t.WellFormed) :
    t.descendants.filter (covers offset) = (t.chain offset).tail := by
  induction sound with
  | @node k s e cs form order inside wide children ih =>
    have siblings : ∀ c ∈ cs, c.WellFormed ∧ c.kind ≠ .document := fun c member =>
      ⟨children c member, form.ne_document member⟩
    rw [chain_eq, List.tail_cons, descendants]
    by_cases isString : k = .string
    · rw [if_pos isString, if_pos (by rw [isLeaf, kind, isString]; rfl), List.filter_nil]
    · rw [if_neg isString, filter_descendantsAmong siblings order ih]
      -- A literal other than a string has nothing below it.
      split
      next leaf =>
        have token : k.isToken := by cases k <;> simp_all [isLeaf, kind, Kind.isLeaf, Kind.isToken]
        have empty := (WellFormed.node form order inside wide children).children_of_token token
        rw [show cs = [] from empty, chainAmong]
      next => rfl

theorem isClosed_of_inside {c : Tree} (sound : t.WellFormed) (member : c ∈ t.children) (inside : Inside c u) :
    u.isClosed := by
  induction inside generalizing t with
  | self => exact (sound.child member).isClosed (sound.form.ne_document member)
  | child inner _ ih => exact ih (sound.child member) inner

/-- Of the children of a node, one at most holds a place. -/
theorem pairwise_not_holds (sound : t.WellFormed) :
    t.children.Pairwise fun a b => ¬(a.holds offset ∧ b.holds offset) := by
  refine sound.order.imp_of_mem fun {a b} first second apart ⟨inFirst, inSecond⟩ => ?_
  have left := ((sound.child first).holds_iff (sound.form.ne_document first)).mp inFirst
  have right := ((sound.child second).holds_iff (sound.form.ne_document second)).mp inSecond
  omega

theorem of_inside (sound : t.WellFormed) (inside : Inside t u) : u.WellFormed := by
  induction inside with
  | self => exact sound
  | child member _ ih => exact ih (sound.child member)

end WellFormed

end

end Tree

/-- In a document of the grammar the way down to a place is the document and then the named nodes around the place,
the outer ones first; comments and what is in a string do not count. For all nodes below the document are closed, so
that none holds the place right behind it, and of the children of a node one at most holds a place. -/
theorem Document.chainAt_covers {d : Document} (sound : d.root.WellFormed) (document : d.root.kind = .document)
    (offset : Nat) :
    d.chainAt offset = d.root :: d.root.descendants.filter (Tree.covers offset) ∧
    (∀ c ∈ d.root.children, ∀ t, Inside c t → t.isClosed) ∧
    ((d.chainAt offset).IsChain fun outer inner => inner ∈ outer.children) ∧
    (∀ t, Inside d.root t → t.children.Pairwise fun a b => ¬(a.holds offset ∧ b.holds offset)) ∧
    d.nodeAt? offset = (d.root.descendants.filter (Tree.covers offset)).getLast? := by
  have chain : d.chainAt offset = d.root :: d.root.descendants.filter (Tree.covers offset) := by
    rw [chainAt, sound.filter_descendants, d.root.chain_eq, List.tail_cons]
  refine ⟨chain, fun c member t inside => sound.isClosed_of_inside member inside, ?_,
    fun t inside => (sound.of_inside inside).pairwise_not_holds, ?_⟩
  · exact (Tree.isChain_chain d.root).imp fun _ _ crosses => crosses.1
  · rw [nodeAt?, chain, List.getLast?_cons]
    cases last : (d.root.descendants.filter (Tree.covers offset)).getLast? with
    | none => simp [document]
    | some t =>
      have below : t ∈ d.root.descendants := (List.mem_filter.mp (List.mem_of_getLast? last)).1
      simp [sound.ne_document_of_mem_descendants below]

/-- Places on and behind an element, in a name, in a comment and at the end of the document. -/
theorem Document.chainAt_covers_of_element :
    let token (kind : Kind) (at' : Nat) : Tree := .node kind at' (at' + 1) false []
    let name : Tree := .node .string 5 8 false [token .quote 5, token .content 6, token .quote 7]
    let array : Tree := .node .array 9 12 false [token .openBracket 9, token .number 10, token .closeBracket 11]
    let pair : Tree := .node .pair 5 12 false [name, token .colon 8, array]
    let object : Tree := .node .object 0 13 false
      [token .openBrace 0, .node .comment 1 5 false [], pair, token .closeBrace 12]
    let d : Document := ⟨"\x7b/**/\"a\":[1]\x7d", .node .document 0 13 false [object]⟩
    d.root.WellFormed ∧ d.chainAt 10 = [d.root, object, pair, array, token .number 10] ∧
      d.chainAt 11 = [d.root, object, pair, array] ∧ d.nodeAt? 6 = some name ∧ d.nodeAt? 3 = some object ∧
      d.nodeAt? 13 = none := by
  intro token name array pair object d
  have sound : d.root.WellFormed := Tree.wellFormed_of_isWellFormed (by decide)
  obtain ⟨onNumber, _⟩ := chainAt_covers sound rfl 10
  obtain ⟨behindNumber, _⟩ := chainAt_covers sound rfl 11
  obtain ⟨_, _, _, _, inName⟩ := chainAt_covers sound rfl 6
  obtain ⟨_, _, _, _, inComment⟩ := chainAt_covers sound rfl 3
  obtain ⟨_, _, _, _, atEnd⟩ := chainAt_covers sound rfl 13
  exact ⟨sound, onNumber, behindNumber, inName, inComment, atEnd⟩

end JsonAssist.Syntax
