import Mathlib.Logic.Function.Iterate
import JsonAssist.Cursor.Frame

namespace JsonAssist

namespace Syntax.Walk

/-- The nodes where a walk is still going to be if it enters none of them. -/
def agenda (w : Walk) : List Tree := w.here :: (w.behind ++ w.around.dropLast.flatMap Prod.snd)

variable {w next inner : Walk}

theorem agenda_of_firstChild? (below : ¬w.isStart) (down : w.firstChild? = some inner) :
    ¬inner.isStart ∧ inner.agenda = w.here.children ++ w.agenda.tail := by
  obtain ⟨⟨k, s, e, m, _ | ⟨c, cs⟩⟩, behind, around⟩ := w
  · cases down
  · cases down
    have entered : around ≠ [] := fun same => below (List.isEmpty_iff.mpr same)
    refine ⟨Bool.false_ne_true, ?_⟩
    simp only [agenda, List.dropLast_cons_of_ne_nil entered, List.flatMap_cons, Tree.children, List.tail_cons,
      List.cons_append]

theorem agenda_of_nextSibling? (aside : w.nextSibling? = some next) : next.agenda = w.agenda.tail := by
  obtain ⟨here, _ | ⟨t, behind⟩, around⟩ := w
  · cases aside
  · cases aside
    rfl

theorem behind_of_nextSibling? (last : w.nextSibling? = none) : w.behind = [] := by
  obtain ⟨here, _ | ⟨t, behind⟩, around⟩ := w
  · rfl
  · cases last

theorem agenda_of_parent? {outer : Walk} (last : w.nextSibling? = none) (up : w.parent? = some outer)
    (below : ¬outer.isStart) : outer.agenda.tail = w.agenda.tail := by
  have entered : outer.around ≠ [] := fun same => below (List.isEmpty_iff.mpr same)
  simp only [agenda, List.tail_cons, behind_of_nextSibling? last, around_of_parent? up, List.nil_append,
    List.dropLast_cons_of_ne_nil entered, List.flatMap_cons]

/-- Onward from a node comes what is on the agenda next. -/
theorem agenda_of_onward? (below : ¬w.isStart) (on : w.onward? = some next) :
    ¬next.isStart ∧ next.agenda = w.agenda.tail := by
  fun_induction onward? w with
  | case1 w aside found =>
    cases on
    refine ⟨fun same => below ?_, agenda_of_nextSibling? found⟩
    obtain ⟨here, _ | ⟨t, behind⟩, around⟩ := w
    · cases found
    · cases found
      exact same
  | case2 => cases on
  | case3 => cases on
  | case4 w last outer up notStart ih =>
    obtain ⟨inside, same⟩ := ih notStart on
    exact ⟨inside, same.trans (agenda_of_parent? last up notStart)⟩

theorem agenda_of_end (ends : w.onward? = none) : w.agenda.tail = [] := by
  fun_induction onward? w with
  | case1 => cases ends
  | case2 w last top =>
    obtain ⟨here, behind, _ | ⟨⟨t, rest⟩, around⟩⟩ := w
    · obtain rfl : behind = [] := behind_of_nextSibling? last
      rfl
    · cases top
  | case3 w last outer up atStart =>
    have first : outer.around = [] := List.isEmpty_iff.mp atStart
    simp only [agenda, List.tail_cons, behind_of_nextSibling? last, around_of_parent? up, first, List.nil_append,
      List.dropLast_singleton, List.flatMap_nil]
  | case4 w last outer up notStart ih => exact (agenda_of_parent? last up notStart).symm.trans (ih ends)

end Syntax.Walk

namespace Cursor

open Syntax

mutual

/-- The tokens that a replay up to `boundary` applies, an error opened up, and whether it ends there. -/
def replayedToken (boundary : Nat) : Tree → List Tree × Bool
  | .node kind start stop missing children =>
    if boundary ≤ start then ([], true)
    else if stop ≤ boundary && kind = .error && !children.isEmpty then replayedTokens boundary children
    else if stop ≤ boundary && !missing then ([.node kind start stop missing children], false)
    else ([], false)

def replayedTokens (boundary : Nat) : List Tree → List Tree × Bool
  | [] => ([], false)
  | t :: rest =>
    match replayedToken boundary t with
    | (tokens, true) => (tokens, true)
    | (tokens, false) => (tokens ++ (replayedTokens boundary rest).1, (replayedTokens boundary rest).2)

end

/-- The children of a node, without the bracket that opens a container. -/
def contents (t : Tree) : List Tree :=
  match t.children with
  | [] => []
  | c :: rest => if opens t c then rest else c :: rest

/-- The tokens in a node that are replayed up to a place. -/
def replayed (boundary : Nat) (t : Tree) : List Tree := (replayedTokens boundary (contents t)).1

section Tokens

variable {boundary : Nat} {t : Tree} {before ts : List Tree}

theorem replayedTokens_append (before after : List Tree) :
    replayedTokens boundary (before ++ after) =
      if (replayedTokens boundary before).2 then replayedTokens boundary before
      else ((replayedTokens boundary before).1 ++ (replayedTokens boundary after).1,
        (replayedTokens boundary after).2) := by
  induction before with
  | nil => rfl
  | cons t before ih =>
    rw [List.cons_append, replayedTokens, replayedTokens, ih]
    rcases replayedToken boundary t with ⟨tokens, _ | _⟩
    · by_cases ended : (replayedTokens boundary before).2
      · simp only [if_pos ended]
      · simp only [if_neg ended, List.append_assoc]
    · rfl

theorem replayedTokens_of_reached (reached : boundary ≤ t.start) (after : List Tree) :
    replayedTokens boundary (t :: after) = ([], true) := by
  obtain ⟨k, s, e, m, cs⟩ := t
  simp only [replayedTokens, replayedToken, if_pos (show boundary ≤ s from reached)]

theorem replayedTokens_at_boundary (t : Tree) (after : List Tree) :
    replayedTokens t.start (t :: after) = ([], true) :=
  replayedTokens_of_reached (Nat.le_refl _) after

/-- An error in front of the boundary might as well not stand around its tokens. -/
theorem replayedTokens_of_error (starts : t.start < boundary) (stops : t.stop ≤ boundary) (error : t.kind = .error)
    (filled : t.children ≠ []) (after : List Tree) :
    replayedTokens boundary (t :: after) = replayedTokens boundary (t.children ++ after) := by
  obtain ⟨k, s, e, m, cs⟩ := t
  have opened : replayedToken boundary (.node k s e m cs) = replayedTokens boundary cs := by
    simp only [Tree.start, Tree.stop, Tree.kind, Tree.children] at starts stops error filled
    rw [replayedToken, if_neg (by omega), if_pos (by simp [stops, error, filled])]
  rw [replayedTokens, opened, Tree.children, replayedTokens_append]
  rcases replayedTokens boundary cs with ⟨tokens, _ | _⟩ <;> rfl

/-- A token that is no error to open up is applied if it ends in front of the boundary and was not made up. -/
theorem replayedTokens_of_token (starts : t.start < boundary)
    (single : t.stop ≤ boundary → t.kind = .error → t.children = []) (after : List Tree) :
    replayedTokens boundary (t :: after) =
      ((if t.stop ≤ boundary ∧ ¬t.missing then [t] else []) ++ (replayedTokens boundary after).1,
        (replayedTokens boundary after).2) := by
  have own : replayedToken boundary t = (if t.stop ≤ boundary ∧ ¬t.missing then [t] else [], false) := by
    obtain ⟨k, s, e, m, cs⟩ := t
    have notReached : ¬boundary ≤ s := Nat.not_le.mpr starts
    have closed : ¬(e ≤ boundary && k = .error && !cs.isEmpty) := fun opened => by
      simp only [Bool.and_eq_true, decide_eq_true_eq, Bool.not_eq_true', List.isEmpty_eq_false_iff] at opened
      exact opened.2 (single opened.1.1 opened.1.2)
    have same : (e ≤ boundary && !m) ↔ e ≤ boundary ∧ ¬m := by simp
    rw [replayedToken, if_neg notReached, if_neg closed]
    exact (apply_ite (·, false) _ _ _).symm.trans (congrArg (·, false) (if_congr same rfl rfl))
  simp only [replayedTokens, own]

/-- Tokens that end before the boundary are applied one after the other. -/
theorem replayedTokens_of_before {before : List Tree} (after : List Tree)
    (ends : ∀ t ∈ before, t.start < boundary ∧ t.stop ≤ boundary)
    (real : ∀ t ∈ before, t.kind ≠ .error ∧ t.missing = false) :
    replayedTokens boundary (before ++ after) =
      (before ++ (replayedTokens boundary after).1, (replayedTokens boundary after).2) := by
  induction before with
  | nil => rfl
  | cons t before ih =>
    obtain ⟨⟨starts, stops⟩, endsRest⟩ := List.forall_mem_cons.mp ends
    obtain ⟨⟨noError, notMissing⟩, realRest⟩ := List.forall_mem_cons.mp real
    rw [List.cons_append, replayedTokens_of_token starts fun _ error => absurd error noError, ih endsRest realRest,
      if_pos ⟨stops, by simp [notMissing]⟩]
    rfl

/-- Where no error is opened up, nothing else is applied than what stands there. -/
theorem replayedTokens_subset (noError : ∀ t ∈ ts, t.kind ≠ .error) : (replayedTokens boundary ts).1 ⊆ ts := by
  induction ts with
  | nil => exact List.Subset.refl []
  | cons t ts ih =>
    obtain ⟨single, noErrors⟩ := List.forall_mem_cons.mp noError
    by_cases starts : t.start < boundary
    · rw [replayedTokens_of_token starts fun _ error => absurd error single]
      refine List.append_subset.mpr ⟨?_, List.subset_cons_of_subset t (ih noErrors)⟩
      split
      · exact List.cons_subset_cons t (List.nil_subset ts)
      · exact List.nil_subset _
    · rw [replayedTokens_of_reached (Nat.le_of_not_lt starts)]
      exact List.nil_subset _

end Tokens

section Turns

variable {d : Document} {boundary base : Nat} {w next : Walk} {frames after : Frames}

/-- The effect of tokens one after the other. The first `base` containers stay. -/
def applyAll (d : Document) (base : Nat) (tokens : List Tree) (frames : Frames) : Frames :=
  tokens.foldl (fun frames token => apply d base token frames) frames

/-- What is left to do at a place on the walk of a replay. -/
def applyLeft (d : Document) (boundary base : Nat) (w : Walk) (frames : Frames) : Frames :=
  applyAll d base (replayedTokens boundary w.agenda).1 frames

theorem children_of_inError? (outside : inError? boundary w = none) (stops : w.here.stop ≤ boundary)
    (error : w.here.kind = .error) : w.here.children = [] := by
  rw [inError?, if_pos ⟨stops, error⟩] at outside
  obtain ⟨⟨k, s, e, m, _ | ⟨c, cs⟩⟩, behind, around⟩ := w
  · rfl
  · cases outside

theorem exists_of_inError? (entered : inError? boundary w = some next) :
    w.here.stop ≤ boundary ∧ w.here.kind = .error ∧ w.here.children ≠ [] ∧ w.firstChild? = some next := by
  obtain ⟨⟨stops, error⟩, down⟩ := Option.ite_none_right_eq_some.mp entered
  refine ⟨stops, error, fun none => ?_, down⟩
  rw [Walk.firstChild?, none] at down
  cases down

/-- Behind a token that is no error to open up there is left to do what is on the agenda next. -/
theorem applyLeft_of_token (starts : w.here.start < boundary) (outside : inError? boundary w = none) :
    applyLeft d boundary base w frames = applyAll d base (replayedTokens boundary w.agenda.tail).1
      (if w.here.stop ≤ boundary ∧ ¬w.here.missing then apply d base w.here frames else frames) := by
  rw [applyLeft, Walk.agenda, replayedTokens_of_token starts (children_of_inError? outside), List.tail_cons, applyAll,
    List.foldl_append]
  split <;> rfl

/-- A turn does a part of what is left to do, or all of it if the replay ends there. -/
theorem applyLeft_of_turn (below : ¬w.isStart) (turned : turn d boundary base w frames = (some next, after)) :
    ¬next.isStart ∧ applyLeft d boundary base w frames = applyLeft d boundary base next after := by
  unfold turn at turned
  split at turned
  · cases turned
  next reached =>
    have starts := Nat.lt_of_not_le reached
    split at turned
    next inner entered =>
      cases turned
      obtain ⟨stops, error, filled, down⟩ := exists_of_inError? entered
      obtain ⟨inside, agenda⟩ := Walk.agenda_of_firstChild? below down
      refine ⟨inside, ?_⟩
      rw [applyLeft, applyLeft, agenda, Walk.agenda, replayedTokens_of_error starts stops error filled, List.tail_cons]
    next outside =>
      obtain ⟨on, rfl⟩ := Prod.mk.inj turned
      obtain ⟨inside, agenda⟩ := Walk.agenda_of_onward? below on
      exact ⟨inside, by rw [applyLeft_of_token starts outside, applyLeft, agenda]⟩

theorem applyLeft_of_end (turned : turn d boundary base w frames = (none, after)) :
    applyLeft d boundary base w frames = after := by
  unfold turn at turned
  split at turned
  next reached =>
    cases turned
    rw [applyLeft, Walk.agenda, replayedTokens_of_reached reached]
    rfl
  next reached =>
    split at turned
    · cases turned
    next outside =>
      obtain ⟨ends, rfl⟩ := Prod.mk.inj turned
      rw [applyLeft_of_token (Nat.lt_of_not_le reached) outside, Walk.agenda_of_end ends]
      rfl

/-- A replay does all that is left to do. -/
theorem replayFrom_eq (below : ¬w.isStart) :
    replayFrom d boundary base w frames = applyLeft d boundary base w frames := by
  fun_induction replayFrom d boundary base w frames with
  | case1 w frames after turned => exact (applyLeft_of_end turned).symm
  | case2 w frames next after turned ih =>
    obtain ⟨inside, same⟩ := applyLeft_of_turn below turned
    exact (ih inside).trans same.symm

/-- A turn of a replay that may have ended. -/
def advance (d : Document) (boundary base : Nat) : Option Walk × Frames → Option Walk × Frames
  | (none, frames) => (none, frames)
  | (some w, frames) => turn d boundary base w frames

/-- A replay ends after as many turns as nodes are left, at the most. -/
theorem replayFrom_ends (d : Document) (boundary base : Nat) (w : Walk) (frames : Frames) :
    ∃ turns ≤ w.left, (advance d boundary base)^[turns] (some w, frames) =
      (none, replayFrom d boundary base w frames) := by
  fun_induction replayFrom d boundary base w frames with
  | case1 w frames after turned => exact ⟨1, Nat.lt_add_right _ w.here.size_pos, turned⟩
  | case2 w frames next after turned ih =>
    obtain ⟨turns, few, ended⟩ := ih
    refine ⟨turns + 1, Nat.lt_of_le_of_lt few (left_of_turn turned), ?_⟩
    rw [Function.iterate_succ_apply]
    exact (congrArg _ turned).trans ended

end Turns

section Replay

variable {d : Document} {boundary : Nat} {t : Tree} {first : Walk} {frames : Frames}

theorem firstToken?_cons {c : Tree} {rest : List Tree} (children : t.children = c :: rest) : firstToken? t =
    if opens t c then (⟨c, rest, [(t, [])]⟩ : Walk).nextSibling? else some ⟨c, rest, [(t, [])]⟩ := by
  have down : (Walk.start t).firstChild? = some ⟨c, rest, [(t, [])]⟩ := by
    rw [Walk.firstChild?, Walk.start, children]
  simp only [firstToken?, down]

/-- A replay begins with the contents of a node. -/
theorem agenda_of_firstToken? (begins : firstToken? t = some first) :
    ¬first.isStart ∧ first.agenda = contents t ∧ first.left < t.size := by
  cases children : t.children with
  | nil =>
    rw [firstToken?, Walk.firstChild?, Walk.start, children] at begins
    cases begins
  | cons c rest =>
    have size : t.size = c.size + Tree.sizeAmong rest + 1 := by
      obtain ⟨k, s, e, m, cs⟩ := t
      obtain rfl : cs = c :: rest := children
      rfl
    rw [firstToken?_cons children] at begins
    rw [contents, children]
    split at begins
    next bracket =>
      cases rest with
      | nil => cases begins
      | cons u rest =>
        cases begins
        refine ⟨Bool.false_ne_true, ?_, ?_⟩
        · simp [Walk.agenda, bracket]
        · simp [Walk.left, Walk.ahead, Tree.sizeAmong] at size ⊢
          omega
    next plain =>
      cases begins
      refine ⟨Bool.false_ne_true, ?_, ?_⟩
      · simp [Walk.agenda, plain]
      · simp [Walk.left, Walk.ahead] at size ⊢
        omega

theorem contents_of_firstToken? (empty : firstToken? t = none) : contents t = [] := by
  cases children : t.children with
  | nil => rw [contents, children]
  | cons c rest =>
    rw [firstToken?_cons children] at empty
    rw [contents, children]
    split at empty
    next bracket => exact (if_pos bracket).trans (Walk.behind_of_nextSibling? empty)
    next => cases empty

/-- A replay applies its tokens one after the other. -/
theorem replay_eq_foldl (t : Tree) (frames : Frames) : replay d t boundary frames =
    (replayed boundary t).foldl (fun fs token => apply d frames.length token fs) frames := by
  rw [replay]
  cases begins : firstToken? t with
  | none => rw [replayed, contents_of_firstToken? begins]; rfl
  | some first =>
    obtain ⟨below, agenda, _⟩ := agenda_of_firstToken? begins
    simp only [replayFrom_eq below, applyLeft, agenda]
    rfl

/-- A replay ends before it has turned to each node once. -/
theorem replay_ends (d : Document) (boundary : Nat) (t : Tree) (frames : Frames) : ∃ turns < t.size,
    (advance d boundary frames.length)^[turns] (firstToken? t, frames) = (none, replay d t boundary frames) := by
  cases begins : firstToken? t with
  | none => exact ⟨0, t.size_pos, by rw [replay, begins]; rfl⟩
  | some first =>
    obtain ⟨_, _, fewer⟩ := agenda_of_firstToken? begins
    obtain ⟨turns, few, ended⟩ := replayFrom_ends d boundary frames.length first frames
    exact ⟨turns, Nat.lt_of_le_of_lt few fewer, by rw [ended, replay, begins]⟩

end Replay

end Cursor

end JsonAssist
