import JsonAssist.Path
import JsonAssist.Syntax.Document
import JsonAssist.Syntax.Walk

namespace JsonAssist

namespace Cursor

open Syntax

/-- Which part of a member a place belongs to: its name, the stretch behind the colon, or the value
that has begun there. -/
inductive Part where
  | name
  | pending
  | value
  deriving DecidableEq, Repr

/-- The member of an object that is being read. -/
structure Member where
  key : String
  part : Part
  deriving DecidableEq, Repr

/-- A container around the place: an object with the names written in it so far, or an array with
the number of the element at hand. -/
inductive Frame where
  | object (keys : List String) (member : Option Member)
  | array (index : Nat) (onElement : Bool)
  deriving DecidableEq, Repr

/-- The containers, the innermost first. -/
abbrev Frames := List Frame

/-- Adds a name that is not there yet. -/
def addKey (keys : List String) (key : String) : List String :=
  if key ∈ keys then keys else keys ++ [key]

namespace Frames

/-- A value begins: a member that awaited one has it. -/
def startValue : Frames → Frames
  | .object keys (some ⟨key, .pending⟩) :: rest => .object keys (some ⟨key, .value⟩) :: rest
  | frames => frames

/-- A string outside any pair: a name where the object awaits one, a value behind a colon. -/
def seeString (text : String) : Frames → Frames
  | .object keys none :: rest => .object (addKey keys text) (some ⟨text, .name⟩) :: rest
  | .object keys (some ⟨key, .pending⟩) :: rest => .object keys (some ⟨key, .value⟩) :: rest
  | frames => frames

/-- A comma ends a member, or leads to the next element. -/
def seeComma : Frames → Frames
  | .object keys _ :: rest => .object keys none :: rest
  | .array index onElement :: rest => .array (index + 1) onElement :: rest
  | [] => []

/-- A colon leads from a name to its value. -/
def seeColon : Frames → Frames
  | .object keys (some ⟨key, .name⟩) :: rest => .object keys (some ⟨key, .pending⟩) :: rest
  | frames => frames

/-- A closing brace ends the innermost container if that is an object beyond the first `base`. -/
def closeObject (base : Nat) : Frames → Frames
  | .object keys member :: rest =>
    if base ≤ rest.length then rest else .object keys member :: rest
  | frames => frames

/-- A closing bracket ends the innermost container if that is an array beyond the first `base`. -/
def closeArray (base : Nat) : Frames → Frames
  | .array index onElement :: rest =>
    if base ≤ rest.length then rest else .array index onElement :: rest
  | frames => frames

end Frames

/-- Whether a colon of the pair ends at or before the place. -/
def colonBefore (pair : Tree) (offset : Nat) : Bool :=
  pair.children.any fun c => c.kind == .colon && !c.missing && c.stop ≤ offset

/-- Whether a pair has a colon and no value from the text. -/
def awaitsValue (pair : Tree) : Bool :=
  colonBefore pair pair.stop && pair.value?.all Tree.missing

/-- A whole pair: its name is written, and it is at hand only as long as it awaits its value. -/
def seePair (d : Document) (pair : Tree) : Frames → Frames
  | .object keys _ :: rest =>
    match d.pairKey? pair with
    | none => .object keys none :: rest
    | some key =>
      let member := if awaitsValue pair then some ⟨key, .pending⟩ else none
      .object (addKey keys key) member :: rest
  | frames => frames

/-- The effect of one whole token or node. The first `base` containers stay. -/
def apply (d : Document) (base : Nat) (token : Tree) (frames : Frames) : Frames :=
  match token.kind with
  | .openBrace => .object [] none :: frames.startValue
  | .openBracket => .array 0 false :: frames.startValue
  | .closeBrace => frames.closeObject base
  | .closeBracket => frames.closeArray base
  | .comma => frames.seeComma
  | .colon => frames.seeColon
  | .string | .content =>
    match d.stringValue? token with
    | some text => frames.seeString text
    | none => frames
  | .pair => seePair d token frames
  | .object | .array | .number | .true | .false | .null => frames.startValue
  | _ => frames

/-- The first token in an error that ends at or before `boundary`. -/
def inError? (boundary : Nat) (w : Walk) : Option Walk :=
  if w.here.stop ≤ boundary ∧ w.here.kind = .error then w.firstChild? else none

/-- One turn of a replay: an error that ends at or before `boundary` is entered, and any other token that does so is
applied unless it was made up. The replay ends where a token starts at the boundary or behind it. -/
def turn (d : Document) (boundary base : Nat) (w : Walk) (frames : Frames) : Option Walk × Frames :=
  if boundary ≤ w.here.start then (none, frames)
  else
    match inError? boundary w with
    | some inner => (some inner, frames)
    | none =>
      (w.onward?, if w.here.stop ≤ boundary ∧ ¬w.here.missing then apply d base w.here frames else frames)

theorem left_of_turn {d : Document} {boundary base : Nat} {w next : Walk} {frames after : Frames}
    (turned : turn d boundary base w frames = (some next, after)) : next.left < w.left := by
  unfold turn at turned
  split at turned
  · cases turned
  · split at turned
    next inner entered =>
      cases turned
      exact Walk.left_of_firstChild? (Option.ite_none_right_eq_some.mp entered).2
    next =>
      obtain ⟨on, _⟩ := Prod.mk.inj turned
      exact Nat.lt_of_le_of_lt (Walk.left_of_onward? on) (Nat.lt_add_of_pos_left w.here.size_pos)

/-- Turn after turn up to the end of a replay. -/
def replayFrom (d : Document) (boundary base : Nat) (w : Walk) (frames : Frames) : Frames :=
  match _turned : turn d boundary base w frames with
  | (none, after) => after
  | (some next, after) => replayFrom d boundary base next after
termination_by w.left
decreasing_by exact left_of_turn _turned

/-- Whether a child is the bracket that opens a container. -/
def opens (t c : Tree) : Bool :=
  (t.kind = .object || t.kind = .array) && (c.kind = .openBrace || c.kind = .openBracket)

/-- Where a replay of a node begins: at its first child, but behind the bracket that opens a container. -/
def firstToken? (t : Tree) : Option Walk :=
  match (Walk.start t).firstChild? with
  | none => none
  | some first => if opens t first.here then first.nextSibling? else some first

/-- Replays what stands in a node before `boundary`. The containers that there are already stay. -/
def replay (d : Document) (t : Tree) (boundary : Nat) (frames : Frames) : Frames :=
  match firstToken? t with
  | none => frames
  | some first => replayFrom d boundary frames.length first frames

/-- The names of the pairs of an object, also of those inside its errors. -/
def objectKeys (d : Document) (object : Tree) : List String :=
  object.namedChildren.foldl (fun keys child =>
    match child.kind with
    | .pair => (d.pairKey? child).toList.foldl addKey keys
    | .error =>
      (child.namedChildren.filter fun n => n.kind = .pair).foldl (fun keys pair =>
        (d.pairKey? pair).toList.foldl addKey keys) keys
    | _ => keys) []

/-- Whether two children of one node are the same one. -/
def sameNode (a b : Tree) : Bool :=
  a.kind = b.kind && a.start = b.start && a.stop = b.stop

/-- The place is inside a pair of the innermost object; `next` is the child of the pair that holds
it. -/
def enterPair (d : Document) (pair : Tree) (next : Option Tree) (offset : Nat) :
    Frames → Frames
  | .object keys _ :: rest =>
    match d.pairKey? pair with
    | none => .object keys none :: rest
    | some key =>
      let onName := match next, pair.key? with
        | some next, some name => sameNode next name
        | _, _ => false
      let part :=
        if onName || !colonBefore pair offset then Part.name
        else if next.isSome then .value
        else .pending
      .object keys (some ⟨key, part⟩) :: rest
  | frames => frames

/-- Enters one node of the chain, given the kind of the node around it and the node further in. -/
def enter (d : Document) (offset : Nat) (outer : Option Kind) (t : Tree) (next : Option Tree)
    (frames : Frames) : Frames :=
  let boundary := (next.map Tree.start).getD offset
  match t.kind with
  | .object => replay d t boundary (.object (objectKeys d t) none :: frames.startValue)
  | .array => replay d t boundary (.array 0 next.isSome :: frames.startValue)
  | .pair => enterPair d t next offset frames
  | .document | .error => replay d t boundary frames
  | _ =>
    if outer = some .pair || outer = some .array then frames else apply d 0 t frames

/-- Enters the nodes of a chain one after the other. -/
def enterAll (d : Document) (offset : Nat) : Option Kind → List Tree → Frames → Frames
  | _, [], frames => frames
  | outer, t :: rest, frames =>
    enterAll d offset (some t.kind) rest (enter d offset outer t rest.head? frames)

/-- The containers from the innermost one at a place outwards. Where the text is well formed they
are read off the tree; inside errors the tokens before the place are replayed in order. -/
def locate (d : Document) (offset : Nat) : Frames := enterAll d offset none (d.chainAt offset) []

/-- The range of the literal at a place. -/
def literalAt? (d : Document) (offset : Nat) : Option (Nat × Nat) :=
  ((d.chainAt offset).getLast?.filter Tree.isLeaf).map fun t => (t.start, t.stop)

end Cursor

end JsonAssist
