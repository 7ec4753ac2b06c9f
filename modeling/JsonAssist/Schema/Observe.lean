import JsonAssist.Schema.Join

namespace JsonAssist

namespace Schema

mutual

/-- What one value tells about its location. -/
def observe : Value → Schema
  | .null => .node .null none none
  | .object ms => .node .object (some (observeMembers ms)) none
  | .array xs => observeElements none none xs
  | .boolean b => .node .boolean none (some [.boolean b])
  | .number n => .node .number none (some [.number n])
  | .string s => .node .string none (some [.string s])

def observeMembers : List (String × Value) → Fields Schema
  | [] => []
  | (name, v) :: rest => (name, observe v) :: observeMembers rest

/-- The array node of some elements, given the fields and values of those before them. The members
of object elements become fields of the array itself, other elements than arrays and `null` become
values; an array with neither still reads as a container. -/
def observeElements (fields : Option (Fields Schema)) (values : Option (List Value)) :
    List Value → Schema
  | [] =>
    match fields, values with
    | none, none => .node .array (some []) none
    | _, _ => .node .array fields values
  | .object ms :: rest => observeElements (some (mergeMembers (fields.getD []) ms)) values rest
  | .null :: rest => observeElements fields values rest
  | .array _ :: rest => observeElements fields values rest
  | scalar :: rest => observeElements fields (some (pushUnique (values.getD []) scalar)) rest

/-- Joins each member onto the field of its name. -/
def mergeMembers (fields : Fields Schema) : List (String × Value) → Fields Schema
  | [] => fields
  | (name, v) :: rest =>
    mergeMembers (Fields.insert fields name (joinOnto (Fields.get? fields name) (observe v))) rest

end

/-- Joins one observed value onto what was known, if anything was. -/
def merge (known : Option Schema) (v : Value) : Schema := joinOnto known (observe v)

end Schema

namespace Forest

/-- Adds a document. Only an object has keys to add. -/
def add (forest : Forest) : Value → Forest
  | .object ms => Schema.mergeMembers forest ms
  | _ => forest

/-- The forest of a corpus. -/
def build (documents : List Value) : Forest := documents.foldl add []

end Forest

end JsonAssist
