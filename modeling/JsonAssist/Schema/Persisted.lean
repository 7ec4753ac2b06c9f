import JsonAssist.Schema.Basic
import JsonAssist.Json.Printer
import JsonAssist.Json.Skip

namespace JsonAssist

namespace Schema

mutual

/-- The schema as a JSON value. -/
def toValue : Schema → Value
  | .node t c v => .object (("type", .string t.name) :: childrenPart c ++ valuesPart v)

def childrenPart : Option (List (String × Schema)) → List (String × Value)
  | none => []
  | some fields => [("children", .object (fieldValues fields))]

def fieldValues : List (String × Schema) → List (String × Value)
  | [] => []
  | (name, s) :: rest => (name, toValue s) :: fieldValues rest

def valuesPart : Option (List Value) → List (String × Value)
  | none => []
  | some values => [("values", .array values)]

end

/-- The parts of a schema read so far. -/
structure Parts where
  type : Option JsonType
  children : Option (Option (Fields Schema))
  values : Option (Option (List Value))

namespace Parts

def start : Parts := ⟨none, none, none⟩

def toSchema (type : JsonType) (parts : Parts) : Schema :=
  .node type parts.children.join parts.values.join

end Parts

end Schema

namespace Reader

/-- The name of a type, as a string. -/
def typeName : Reader JsonType := do
  let name ← stringOnly "variant identifier"
  match JsonType.ofName? name with
  | some t => pure t
  | none => fail (.unknownVariant name (JsonType.all.map JsonType.name))

/-- A type: its name, or an object whose one member has that name and the value `null`. -/
def jsonType (depth : Nat) : Reader JsonType := do
  match ← peek with
  | none => fail .eofInValue
  | some c =>
    if c = '"' then typeName
    else if c = '\x7b' then nested depth fun _ => do
      drop
      let t ← typeName
      colon
      within (.key t.name) do
        match ← peek with
        | some 'n' => do drop; word ['u', 'l', 'l']
        | _ => wrongType "unit"
      match ← peek with
      | none => fail .eofInObject
      | some d => if d = '\x7d' then drop else fail .expectedValue
      pure t
    else failPast .expectedValue

/-- Reads the member `name` of a schema; an unknown one is passed over. -/
def schemaMember (types : Reader JsonType) (children : Reader (Option (Fields Schema)))
    (values : Reader (Option (List Value))) (parts : Schema.Parts) (name : String) :
    Reader Schema.Parts :=
  if name = "type" then
    if parts.type.isSome then failAfterObject (.duplicateField name)
    else do return { parts with type := some (← memberValue name types) }
  else if name = "children" then
    if parts.children.isSome then failAfterObject (.duplicateField name)
    else do return { parts with children := some (← memberValue name children) }
  else if name = "values" then
    if parts.values.isSome then failAfterObject (.duplicateField name)
    else do return { parts with values := some (← memberValue name values) }
  else do
    memberValue name skipValue
    pure parts

/-- A schema from the list of its parts, the last two of which may be left out. -/
def schemaList (types : Reader JsonType) (children : Reader (Option (Fields Schema)))
    (values : Reader (Option (List Value))) : Reader Schema := do
  drop
  if ← nextElement true then
    let type ← within (.index 0) types
    let mut parts := Schema.Parts.start
    if ← nextElement false then
      parts := { parts with children := some (← within (.index 1) children) }
      if ← nextElement false then
        parts := { parts with values := some (← within (.index 2) values) }
    closeList
    pure (parts.toSchema type)
  else do
    closeList
    fail (.wrongLength 0 "struct RawSchemaNode with 3 elements")

/-- A schema inside which lists and objects nest at most `depth` deep. -/
def schema : (depth : Nat) → Reader Schema
  | 0 => do
    match ← peek with
    | some '[' => failPast .tooDeep
    | some '\x7b' => failPast .tooDeep
    | _ => wrongType "struct RawSchemaNode"
  | 1 => schemaWith 0 (fieldsOnly 0 fun _ => wrongType "struct RawSchemaNode")
  | depth + 2 => schemaWith (depth + 1) (fieldsOnly (depth + 1) fun _ => schema depth)
where
  /-- A schema whose parts nest at most `depth` deep. -/
  schemaWith (depth : Nat) (children : Reader (Fields Schema)) : Reader Schema := do
    let types := jsonType depth
    let children := optional children
    let values := optional (listOnly depth value)
    match ← peek with
    | some '[' => schemaList types children values
    | some '\x7b' => do
      drop
      let parts ← membersFrom (schemaMember types children values) ((← look).length + 1) true
        Schema.Parts.start
      match parts.type with
      | some t => do tryCloseObject; pure (parts.toSchema t)
      | none => failAfterObject (.missingField "type")
    | _ => wrongType "struct RawSchemaNode"

end Reader

/-- The schema that a text begins with. -/
def Schema.load (source : String) : Except LoadError Schema :=
  Reader.load (Reader.schema Reader.nestingLimit) source

namespace Forest

def toValue (forest : Forest) : Value := .object (Schema.fieldValues forest)

/-- The text in which a forest is stored. -/
def text (forest : Forest) : String := forest.toValue.pretty

/-- The forest that a text begins with. -/
def load (source : String) : Except LoadError Forest :=
  Reader.load (Reader.fieldsOnly Reader.nestingLimit Reader.schema) source

end Forest

end JsonAssist
