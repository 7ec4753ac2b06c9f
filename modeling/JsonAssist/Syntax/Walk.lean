import JsonAssist.Syntax.Tree

namespace JsonAssist

namespace Syntax

namespace Tree

mutual

/-- The number of nodes of a tree. -/
def size : Tree → Nat
  | .node _ _ _ _ cs => sizeAmong cs + 1

def sizeAmong : List Tree → Nat
  | [] => 0
  | t :: rest => size t + sizeAmong rest

end

theorem sizeAmong_append (ts us : List Tree) : sizeAmong (ts ++ us) = sizeAmong ts + sizeAmong us := by
  induction ts with
  | nil => exact (Nat.zero_add _).symm
  | cons t ts ih => rw [List.cons_append, sizeAmong, sizeAmong, ih, Nat.add_assoc]

theorem size_pos (t : Tree) : 0 < t.size := by
  cases t
  exact Nat.succ_pos _

end Tree

/-- A place on a walk: the node there with the siblings behind it, and the same of each node around it, the innermost
first. The outermost of them is where the walk began. -/
structure Walk where
  here : Tree
  behind : List Tree
  around : List (Tree × List Tree)

namespace Walk

/-- The beginning of a walk. -/
def start (t : Tree) : Walk := ⟨t, [], []⟩

def firstChild? (w : Walk) : Option Walk :=
  match w.here.children with
  | [] => none
  | c :: rest => some ⟨c, rest, (w.here, w.behind) :: w.around⟩

def nextSibling? (w : Walk) : Option Walk :=
  match w.behind with
  | [] => none
  | t :: rest => some ⟨t, rest, w.around⟩

def parent? (w : Walk) : Option Walk :=
  match w.around with
  | [] => none
  | (t, behind) :: outer => some ⟨t, behind, outer⟩

/-- Whether the walk is where it began. -/
def isStart (w : Walk) : Bool := w.around.isEmpty

theorem around_of_parent? {w outer : Walk} (up : w.parent? = some outer) :
    w.around = (outer.here, outer.behind) :: outer.around := by
  obtain ⟨_, _, _ | ⟨⟨t, behind⟩, around⟩⟩ := w
  · cases up
  · cases up
    rfl

/-- The place behind all that is at this one or below it: the next sibling of the node, or of the innermost node
around it that has one. None is left when the walk is back where it began. -/
def onward? (w : Walk) : Option Walk :=
  match w.nextSibling? with
  | some next => some next
  | none =>
    match _up : w.parent? with
    | none => none
    | some outer => if outer.isStart then none else outer.onward?
termination_by w.around.length
decreasing_by
  rw [around_of_parent? _up]
  exact Nat.lt_succ_self _

/-- The number of nodes behind all that is at this place or below it. -/
def ahead (w : Walk) : Nat := Tree.sizeAmong (w.behind ++ w.around.flatMap Prod.snd)

/-- The number of nodes from this place on. -/
def left (w : Walk) : Nat := w.here.size + w.ahead

theorem left_of_firstChild? {w inner : Walk} (down : w.firstChild? = some inner) : inner.left < w.left := by
  obtain ⟨⟨k, s, e, m, _ | ⟨c, cs⟩⟩, behind, around⟩ := w
  · cases down
  · cases down
    simp only [left, ahead, Tree.size, Tree.sizeAmong, Tree.sizeAmong_append, List.flatMap_cons]
    omega

theorem left_of_nextSibling? {w next : Walk} (aside : w.nextSibling? = some next) : next.left = w.ahead := by
  obtain ⟨here, _ | ⟨t, behind⟩, around⟩ := w
  · cases aside
  · cases aside
    rfl

theorem ahead_of_parent? {w outer : Walk} (up : w.parent? = some outer) : outer.ahead ≤ w.ahead := by
  rw [ahead, ahead, around_of_parent? up, List.flatMap_cons, Tree.sizeAmong_append w.behind]
  exact Nat.le_add_left _ _

theorem left_of_onward? {w next : Walk} (on : w.onward? = some next) : next.left ≤ w.ahead := by
  fun_induction onward? w with
  | case1 w aside found =>
    cases on
    exact Nat.le_of_eq (left_of_nextSibling? found)
  | case2 => cases on
  | case3 => cases on
  | case4 w _ outer up _ ih => exact Nat.le_trans (ih on) (ahead_of_parent? up)

end Walk

end Syntax

end JsonAssist
