import JsonAssist.Path
import JsonAssist.Schema.Basic

namespace JsonAssist

/-- Where a path has led: to the forest itself, to a schema, or into an array, which is described
by the literals or the fields of its elements. -/
inductive Resolved where
  | forest (fields : Forest)
  | node (schema : Schema)
  | elements (values : List Value)
  | fields (fields : Fields Schema)
  deriving Repr

namespace Resolved

/-- The elements of an array: literals if any are known, else fields. -/
def elementsOf (array : Schema) : Option Resolved :=
  match array.values, array.children with
  | some (v :: vs), _ => some (.elements (v :: vs))
  | _, some fs => some (.fields fs)
  | _, none => none

/-- One step further. Only arrays are entered by an index, and never two in a row. -/
def step : Resolved → Step → Option Resolved
  | .node s, .key name => (s.child? name).map .node
  | .node s, .index _ => if s.type = .array then elementsOf s else none
  | .forest fs, .key name => (Fields.get? fs name).map .node
  | .fields fs, .key name => (Fields.get? fs name).map .node
  | _, _ => none

/-- The literals known here. -/
def values : Resolved → Option (List Value)
  | .node s => s.values
  | .elements values => some values
  | _ => none

/-- The properties known here. -/
def properties : Resolved → Option (Fields Schema)
  | .forest fs => some fs
  | .fields fs => some fs
  | .node s => s.children
  | .elements _ => none

/-- Follows a path as far as it leads. An empty name leads nowhere. -/
def follow : Resolved → Path → Resolved
  | here, [] => here
  | here, s :: rest =>
    if s.isEmpty then here
    else
      match here.step s with
      | some next => next.follow rest
      | none => here

end Resolved

/-- Where a path leads in a forest. -/
def Forest.resolve (forest : Forest) (path : Path) : Resolved := (Resolved.forest forest).follow path

end JsonAssist
