import JsonAssist.Cursor.Frame

namespace JsonAssist

namespace Cursor

open Syntax

/-- What is being chosen: the name of a property, or a value. -/
inductive Slot where
  | property
  | value
  deriving DecidableEq, Repr

/-- The step into a container. Completion stops at the object whose member is being named, and
steps into the value or element that is about to be written; a path to a place does neither. -/
def stepInto (completion innermost : Bool) : Frame → Option Step
  | .object _ (some member) =>
    let included := match member.part with
      | .value => true
      | .name => !(completion && innermost)
      | .pending => completion || !innermost
    if included then some (.key member.key) else none
  | .object _ none => none
  | .array index onElement =>
    if onElement || completion || !innermost then some (.index index) else none

/-- The path through the containers, the innermost first. -/
def pathThrough (completion : Bool) : Frames → Path
  | [] => []
  | innermost :: outer =>
    (outer.filterMap (stepInto completion false)).reverse ++
      (stepInto completion true innermost).toList

/-- The names in the nearest object, if there is one. -/
def nearestKeys? : Frames → Option (List String)
  | [] => none
  | .object keys _ :: _ => some keys
  | .array _ _ :: outer => nearestKeys? outer

def slotOf : Frames → Slot
  | .object _ (some member) :: _ => if member.part = .name then .property else .value
  | .array _ _ :: _ => .value
  | _ => .property

/-- The names that are taken while a property is being named: all but the one being typed. -/
def takenKeys (frames : Frames) : List String :=
  let keys := (nearestKeys? frames).getD []
  match frames with
  | .object _ (some ⟨key, .name⟩) :: _ => keys.filter (· != key)
  | _ => keys

/-- The path to the innermost node at a place: a key for every member crossed, an index for every
element. -/
def pathAt (d : Document) (offset : Nat) : Path := pathThrough false (locate d offset)

/-- The path that completion follows at a place. -/
def completionPathAt (d : Document) (offset : Nat) : Path := pathThrough true (locate d offset)

/-- The names written in the nearest object around a place. -/
def existingKeysAt (d : Document) (offset : Nat) : List String :=
  (nearestKeys? (locate d offset)).getD []

/-- What completion needs to know about a place. -/
structure Context where
  path : Path
  slot : Slot
  existing : List String
  replace : Option (Nat × Nat)
  deriving DecidableEq, Repr

def contextAt (d : Document) (offset : Nat) : Context :=
  let frames := locate d offset
  let slot := slotOf frames
  { path := pathThrough true frames
    slot
    existing := match slot with
      | .value => []
      | .property => takenKeys frames
    replace := literalAt? d offset }

end Cursor

end JsonAssist
