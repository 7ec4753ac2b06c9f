import JsonAssist.Category.Table
import JsonAssist.Completion.Plan
import JsonAssist.Item.Catalog

namespace JsonAssist

/-- A category: the part of a path that marks its documents, its name, and the forest of what is
known about them. -/
structure Category where
  pattern : String
  name : String
  forest : Forest

/-- The categories, the first of which that fits a document counts. -/
abbrev Registry := List Category

/-- Whether the characters stand somewhere in the text, one behind the other. -/
def occursIn (part : List Char) : List Char → Bool
  | [] => part.isEmpty
  | c :: rest => part.isPrefixOf (c :: rest) || occursIn part rest

/-- A path with slashes for separators. -/
def withSlashes (path : String) : List Char :=
  path.toList.map fun c => if c = '\\' then '/' else c

namespace Registry

/-- The category of a document. -/
def select (registry : Registry) (path : String) : Option Category :=
  registry.find? fun c => occursIn c.pattern.toList (withSlashes path)

end Registry

/-- The candidates for a place in a document: those of its category, and after them the items. -/
def complete (registry : Registry) (catalog : Option Catalog) (path text : String)
    (offset : Nat) : List Candidate :=
  let known := match registry.select path with
    | some category =>
      Completion.plan category.forest (Cursor.contextAt (Syntax.Document.parse text) offset)
    | none => []
  known ++ (catalog.map Catalog.candidates).getD []

end JsonAssist
