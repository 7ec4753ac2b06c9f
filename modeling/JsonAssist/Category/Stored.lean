import JsonAssist.Category.Registry
import JsonAssist.Notice
import JsonAssist.Schema.Persisted

namespace JsonAssist

/-- The name of the file in which a folder of schemas keeps its table. -/
def tableName : String := "categories.json"

/-- The table of a folder, and what there is to say about it. -/
def storedTable (files : Files) (folder : String) : List CategoryRow × List Notice :=
  let path := PathText.join folder tableName
  if files.isFile path then
    match files.load loadTable path with
    | .ok rows => (rows, [])
    | .error e => (builtInTable, [.builtInTable e])
  else (builtInTable, [])

/-- The name of a category: that of its schema file without the ending. -/
def CategoryRow.name (row : CategoryRow) : String := (PathText.stem? row.schema).getD row.schema

/-- The category of a row of the table. -/
def CategoryRow.load (files : Files) (folder : String) (row : CategoryRow) :
    Except SourceError Category :=
  match files.load Forest.load (PathText.join folder row.schema) with
  | .ok forest => .ok ⟨row.pattern, row.name, forest⟩
  | .error e => .error e

/-- The categories whose schemas can be loaded from a folder, in the order of the table. -/
def Registry.load (files : Files) (folder : String) : Registry × List Notice :=
  let (rows, notices) := storedTable files folder
  (rows.filterMap fun row => (row.load files folder).toOption,
    notices ++ rows.filterMap fun row => match row.load files folder with
      | .ok _ => none
      | .error e => some (.skippedCategory row.pattern e))

end JsonAssist
