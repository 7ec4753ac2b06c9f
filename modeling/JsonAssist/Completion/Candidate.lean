import JsonAssist.Json.Value

namespace JsonAssist

/-- A candidate is a literal, the name of a property, or the id of an item. -/
inductive CandidateKind where
  | value
  | property
  | item
  deriving DecidableEq, Repr

def CandidateKind.name : CandidateKind → String
  | .value => "value"
  | .property => "property"
  | .item => "item"

/-- One candidate. The sort text puts values before properties before items. The range to replace
counts bytes; without one the text goes in at the place itself. -/
structure Candidate where
  label : String
  kind : CandidateKind
  detail : Option String
  documentation : Option String
  filterText : Option String
  insertText : String
  sortText : String
  replace : Option (Nat × Nat)
  deriving DecidableEq, Repr

namespace Candidate

/-- A member that is left out when there is no text. -/
def textMember (name : String) (text : Option String) : List (String × Value) :=
  text.toList.map fun t => (name, .string t)

def rangeValue (range : Nat × Nat) : Value :=
  .object [("start", .number (.integer range.1)), ("end", .number (.integer range.2))]

def toValue (c : Candidate) : Value :=
  .object ([("label", .string c.label), ("kind", .string c.kind.name)] ++
    textMember "detail" c.detail ++ textMember "documentation" c.documentation ++
    textMember "filter_text" c.filterText ++
    [("insert_text", .string c.insertText), ("sort_text", .string c.sortText)] ++
    c.replace.toList.map fun range => ("replace", rangeValue range))

end Candidate

end JsonAssist
