import JsonAssist.Proofs.Cursor.Turns
import JsonAssist.Proofs.Syntax.Address

namespace JsonAssist

namespace Syntax

namespace Tree

mutual

/-- Whether the children of each node lie in the order of the text inside it. -/
def inOrder : Tree → Bool
  | .node _ s e _ cs => areInOrder s e cs

/-- Whether trees lie one behind the other between two places. -/
def areInOrder (low high : Nat) : List Tree → Bool
  | [] => low ≤ high
  | t :: rest => low ≤ t.start && t.inOrder && areInOrder t.stop high rest

end

variable {low mid high : Nat} {t u : Tree} {ts us : List Tree}

theorem areInOrder_nil : areInOrder low high [] ↔ low ≤ high := by
  rw [areInOrder, decide_eq_true_iff]

theorem areInOrder_cons :
    areInOrder low high (t :: ts) ↔ low ≤ t.start ∧ t.inOrder ∧ areInOrder t.stop high ts := by
  rw [areInOrder, Bool.and_eq_true, Bool.and_eq_true, decide_eq_true_iff, and_assoc]

theorem areInOrder_children (order : t.inOrder) : areInOrder t.start t.stop t.children := by
  cases t
  exact order

theorem inOrder_of_mem (member : t ∈ ts) (order : areInOrder low high ts) : t.inOrder := by
  induction ts generalizing low with
  | nil => cases member
  | cons u ts ih =>
    obtain ⟨_, first, others⟩ := areInOrder_cons.mp order
    rcases List.mem_cons.mp member with rfl | later
    · exact first
    · exact ih later others

theorem areInOrder_of_le (le : low ≤ mid) (order : areInOrder mid high ts) : areInOrder low high ts := by
  cases ts with
  | nil => exact areInOrder_nil.mpr (Nat.le_trans le (areInOrder_nil.mp order))
  | cons t ts =>
    obtain ⟨begins, rest⟩ := areInOrder_cons.mp order
    exact areInOrder_cons.mpr ⟨Nat.le_trans le begins, rest⟩

theorem areInOrder_append (first : areInOrder low mid ts) (second : areInOrder mid high us) :
    areInOrder low high (ts ++ us) := by
  induction ts generalizing low with
  | nil => exact areInOrder_of_le (areInOrder_nil.mp first) second
  | cons t ts ih =>
    obtain ⟨begins, own, others⟩ := areInOrder_cons.mp first
    exact areInOrder_cons.mpr ⟨begins, own, ih others⟩

/-- The order stays when a node gives way to its children. -/
theorem areInOrder_opened (order : areInOrder low high (t :: ts)) : areInOrder low high (t.children ++ ts) := by
  obtain ⟨begins, own, others⟩ := areInOrder_cons.mp order
  exact areInOrder_of_le begins (areInOrder_append (areInOrder_children own) others)

mutual

theorem start_le_stop : ∀ {t : Tree}, t.inOrder → t.start ≤ t.stop
  | .node _ _ _ _ _, order => le_of_areInOrder order

theorem le_of_areInOrder : ∀ {ts : List Tree} {low high : Nat}, areInOrder low high ts → low ≤ high
  | [], _, _, order => areInOrder_nil.mp order
  | _ :: _, _, _, order =>
    have ⟨begins, own, others⟩ := areInOrder_cons.mp order
    Nat.le_trans begins (Nat.le_trans (start_le_stop own) (le_of_areInOrder others))

end

end Tree

theorem Inside.inOrder {t u : Tree} (inside : Inside t u) (order : t.inOrder) : u.inOrder := by
  induction inside with
  | self => exact order
  | child member _ ih => exact ih (Tree.inOrder_of_mem member (Tree.areInOrder_children order))

end Syntax

namespace Cursor

open Syntax

mutual

/-- What a token comes to: an error that ends at or before `boundary` comes to what its children do, if it has any. -/
def spliced (boundary : Nat) : Tree → List Tree
  | .node kind start stop missing children =>
    if stop ≤ boundary && kind = .error && !children.isEmpty then flattened boundary children
    else [.node kind start stop missing children]

def flattened (boundary : Nat) : List Tree → List Tree
  | [] => []
  | t :: rest => spliced boundary t ++ flattened boundary rest

end

/-- Whether a token of the text stands in front of a place. -/
def standsBefore (boundary : Nat) (t : Tree) : Bool := !t.missing && t.start < boundary && t.stop ≤ boundary

/-- The tokens in a node that stand in front of a place. -/
def tokensBefore (boundary : Nat) (t : Tree) : List Tree :=
  (flattened boundary (contents t)).filter (standsBefore boundary)

section Flattening

variable {boundary low high : Nat} {t : Tree} {ts : List Tree}

theorem flattened_append (ts us : List Tree) :
    flattened boundary (ts ++ us) = flattened boundary ts ++ flattened boundary us := by
  induction ts with
  | nil => rfl
  | cons t ts ih => rw [List.cons_append, flattened, flattened, ih, List.append_assoc]

theorem flattened_of_error (stops : t.stop ≤ boundary) (error : t.kind = .error) (filled : t.children ≠ [])
    (after : List Tree) : flattened boundary (t :: after) = flattened boundary (t.children ++ after) := by
  obtain ⟨k, s, e, m, cs⟩ := t
  simp only [Tree.stop, Tree.kind, Tree.children] at stops error filled
  rw [flattened, spliced, if_pos (by simp [stops, error, filled]), Tree.children, flattened_append]

theorem flattened_of_token (single : t.stop ≤ boundary → t.kind = .error → t.children = []) (after : List Tree) :
    flattened boundary (t :: after) = t :: flattened boundary after := by
  obtain ⟨k, s, e, m, cs⟩ := t
  have closed : ¬(e ≤ boundary && k = .error && !cs.isEmpty) := fun opened => by
    simp only [Bool.and_eq_true, decide_eq_true_eq, Bool.not_eq_true', List.isEmpty_eq_false_iff] at opened
    exact opened.2 (single opened.1.1 opened.1.2)
  rw [flattened, spliced, if_neg closed, List.singleton_append]

/-- Induction on tokens where an error to open up gives way to its children. -/
theorem induction_on_opened (boundary : Nat) {motive : List Tree → Prop} (nil : motive [])
    (error : ∀ t after, t.stop ≤ boundary → t.kind = .error → t.children ≠ [] →
      motive (t.children ++ after) → motive (t :: after))
    (token : ∀ t after, (t.stop ≤ boundary → t.kind = .error → t.children = []) → motive after → motive (t :: after)) :
    ∀ ts, motive ts
  | [] => nil
  | .node k s e m cs :: after => by
    by_cases opened : e ≤ boundary ∧ k = .error ∧ cs ≠ []
    · obtain ⟨stops, isError, filled⟩ := opened
      exact error _ _ stops isError filled (induction_on_opened boundary nil error token (cs ++ after))
    · refine token _ _ (fun stops isError => ?_) (induction_on_opened boundary nil error token after)
      exact not_not.mp fun filled => opened ⟨stops, isError, filled⟩
termination_by ts => Tree.sizeAmong ts
decreasing_by
  · simp only [Tree.sizeAmong, Tree.sizeAmong_append, Tree.size]
    omega
  · simp only [Tree.sizeAmong, Tree.size]
    omega

theorem start_of_mem_flattened {u : Tree} (order : Tree.areInOrder low high ts) (member : u ∈ flattened boundary ts) :
    low ≤ u.start := by
  induction ts using induction_on_opened boundary generalizing low with
  | nil => cases member
  | error t after stops error filled ih =>
    exact ih (Tree.areInOrder_opened order) (flattened_of_error stops error filled after ▸ member)
  | token t after single ih =>
    obtain ⟨begins, own, others⟩ := Tree.areInOrder_cons.mp order
    rw [flattened_of_token single] at member
    rcases List.mem_cons.mp member with rfl | later
    · exact begins
    · exact Nat.le_trans begins (Nat.le_trans (Tree.start_le_stop own) (ih others later))

theorem not_standsBefore {u : Tree} (reached : boundary ≤ u.start) : ¬standsBefore boundary u := by
  simp only [standsBefore, Bool.and_eq_true, decide_eq_true_iff]
  omega

/-- Where a replay comes to its end, no token behind stands in front of the boundary. -/
theorem filter_flattened_of_reached (reached : boundary ≤ t.start) (order : Tree.areInOrder low high (t :: ts)) :
    (flattened boundary (t :: ts)).filter (standsBefore boundary) = [] := by
  obtain ⟨_, others⟩ := Tree.areInOrder_cons.mp order
  have fromHere : Tree.areInOrder t.start high (t :: ts) := Tree.areInOrder_cons.mpr ⟨Nat.le_refl _, others⟩
  exact List.filter_eq_nil_iff.mpr fun u member =>
    not_standsBefore (Nat.le_trans reached (start_of_mem_flattened fromHere member))

theorem replayedTokens_eq (order : Tree.areInOrder low high ts) :
    (replayedTokens boundary ts).1 = (flattened boundary ts).filter (standsBefore boundary) := by
  induction ts using induction_on_opened boundary generalizing low with
  | nil => rfl
  | error t after stops error filled ih =>
    by_cases starts : t.start < boundary
    · rw [replayedTokens_of_error starts stops error filled, flattened_of_error stops error filled]
      exact ih (Tree.areInOrder_opened order)
    · have reached := Nat.le_of_not_lt starts
      rw [replayedTokens_of_reached reached, filter_flattened_of_reached reached order]
  | token t after single ih =>
    by_cases starts : t.start < boundary
    · have own : standsBefore boundary t ↔ t.stop ≤ boundary ∧ ¬t.missing := by
        simp only [standsBefore, starts, decide_true, Bool.and_true, Bool.and_eq_true, decide_eq_true_iff,
          Bool.not_eq_true', Bool.not_eq_true, and_comm]
      rw [replayedTokens_of_token starts single, flattened_of_token single, List.filter_cons,
        ih (Tree.areInOrder_cons.mp order).2.2]
      by_cases kept : t.stop ≤ boundary ∧ ¬t.missing
      · rw [if_pos kept, if_pos (own.mpr kept), List.singleton_append]
      · rw [if_neg kept, if_neg (own.not.mpr kept), List.nil_append]
    · have reached := Nat.le_of_not_lt starts
      rw [replayedTokens_of_reached reached, filter_flattened_of_reached reached order]

theorem areInOrder_contents (order : t.inOrder) : ∃ low high, Tree.areInOrder low high (contents t) := by
  have children := Tree.areInOrder_children order
  rw [contents]
  split
  next none => exact ⟨_, _, none ▸ children⟩
  next c rest some =>
    rw [some] at children
    split
    · exact ⟨_, _, (Tree.areInOrder_cons.mp children).2.2⟩
    · exact ⟨_, _, children⟩

theorem replayed_eq (order : t.inOrder) : replayed boundary t = tokensBefore boundary t := by
  obtain ⟨low, high, inside⟩ := areInOrder_contents order
  exact replayedTokens_eq inside

end Flattening

/-- What a token does depends on the text, and not on the tree the token stands in. -/
theorem apply_of_text {d other : Document} (text : other.text = d.text) : apply other = apply d := by
  obtain ⟨_, _⟩ := d
  obtain ⟨_, _⟩ := other
  obtain rfl := text
  rfl

/-- A replay of a node whose tree is in order ends, and folds over the tokens in front of the boundary, each of which
may end only containers that were not there before. So it does the same at any node of the same text, in a tree of any
shape, that has the same tokens in front of the boundary. -/
theorem replay_folds {d : Document} (order : d.root.inOrder) {t : Tree} (node : Inside d.root t) (boundary : Nat)
    (frames : Frames) :
    (∃ turns < t.size, (advance d boundary frames.length)^[turns] (firstToken? t, frames) =
      (none, replay d t boundary frames)) ∧
    replay d t boundary frames =
      (tokensBefore boundary t).foldl (fun fs token => apply d frames.length token fs) frames ∧
    ∀ other : Document, other.text = d.text → other.root.inOrder → ∀ u, Inside other.root u →
      tokensBefore boundary u = tokensBefore boundary t →
        replay other u boundary frames = replay d t boundary frames := by
  have folds : ∀ e : Document, e.root.inOrder → ∀ v, Inside e.root v → replay e v boundary frames =
      (tokensBefore boundary v).foldl (fun fs token => apply e frames.length token fs) frames :=
    fun e order v node => by rw [replay_eq_foldl, replayed_eq (node.inOrder order)]
  refine ⟨replay_ends d boundary t frames, folds d order t node, fun other text order' u node' same => ?_⟩
  rw [folds d order t node, folds other order' u node', same, apply_of_text text]

/-- The same tokens with errors nested around some of them, and side by side. -/
theorem replay_folds_of_nested :
    let name : Tree :=
      .node .string 1 4 false [.node .quote 1 2 false [], .node .content 2 3 false [], .node .quote 3 4 false []]
    let token (kind : Kind) (at' : Nat) : Tree := .node kind at' (at' + 1) false []
    let nested : Tree := .node .error 0 8 false [token .openBrace 0, .node .error 1 5 false [name, token .colon 4],
      .node .error 5 8 false [.node .error 5 7 false [token .openBracket 5, token .number 6], token .comma 7]]
    let flat : Tree := .node .error 0 8 false [token .openBrace 0, name, token .colon 4, token .openBracket 5,
      token .number 6, token .comma 7, .node .closeBracket 8 8 true []]
    let d (error : Tree) : Document := ⟨"\x7b\"a\":[1,", .node .document 0 8 false [error]⟩
    (d nested).root.inOrder ∧ (d flat).root.inOrder ∧
      replay (d nested) nested 8 [] = [.array 1 false, .object ["a"] (some ⟨"a", .value⟩)] ∧
      replay (d flat) flat 8 [] = replay (d nested) nested 8 [] := by
  intro name token nested flat d
  have order : (d nested).root.inOrder := by decide
  have order' : (d flat).root.inOrder := by decide
  have node (error : Tree) : Inside (d error).root error := .child List.mem_cons_self (.self _)
  obtain ⟨_, folds, alike⟩ := replay_folds order (node nested) 8 []
  exact ⟨order, order', folds.trans (by decide), alike (d flat) rfl order' flat (node flat) rfl⟩

end Cursor

end JsonAssist
