import JsonAssist.Json.Reader

namespace JsonAssist

/-- A row of the table: documents whose path contains `pattern` follow the schema in the file
`schema`. -/
structure CategoryRow where
  pattern : String
  schema : String
  deriving DecidableEq, Repr

/-- The table that holds where no other one is given. -/
def builtInTable : List CategoryRow :=
  [⟨"Server/Item/Items", "Items.json"⟩, ⟨"Server/NPC/Roles", "Roles.json"⟩]

namespace Reader

/-- What has been read of a row. -/
structure RowParts where
  pattern : Option String
  schema : Option String

/-- Reads the member `name` of a row; no others are allowed. -/
def rowMember (parts : RowParts) (name : String) : Reader RowParts :=
  let text := memberValue name (stringOnly "a string")
  if name = "pattern" then
    if parts.pattern.isSome then failAfterObject (.duplicateField name)
    else do return { parts with pattern := some (← text) }
  else if name = "schema" then
    if parts.schema.isSome then failAfterObject (.duplicateField name)
    else do return { parts with schema := some (← text) }
  else do
    tryCloseObject
    within (.key name) (fail (.unknownField name ["pattern", "schema"]))

def rowObject : Reader CategoryRow := do
  drop
  let parts ← membersFrom rowMember ((← look).length + 1) true ⟨none, none⟩
  match parts.pattern, parts.schema with
  | some pattern, some schema => do tryCloseObject; pure ⟨pattern, schema⟩
  | none, _ => failAfterObject (.missingField "pattern")
  | _, none => failAfterObject (.missingField "schema")

/-- Stops because a row written as a list has too few elements. -/
def shortRow (length : Nat) : Reader CategoryRow := do
  closeList
  fail (.wrongLength length "struct CategoryEntry with 2 elements")

/-- A row written as a list of the pattern and the schema. -/
def rowList : Reader CategoryRow := do
  drop
  if ← nextElement true then
    let pattern ← within (.index 0) (stringOnly "a string")
    if ← nextElement false then
      let schema ← within (.index 1) (stringOnly "a string")
      closeList
      pure ⟨pattern, schema⟩
    else shortRow 1
  else shortRow 0

def row : Reader CategoryRow := do
  match ← peek with
  | some '[' => rowList
  | some '\x7b' => rowObject
  | _ => wrongType "struct CategoryEntry"

end Reader

/-- The table that a text begins with. -/
def loadTable (source : String) : Except LoadError (List CategoryRow) :=
  Reader.load (Reader.listOnly Reader.nestingLimit fun _ => Reader.row) source

end JsonAssist
