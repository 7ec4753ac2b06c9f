import JsonAssist.Json.Printer
import JsonAssist.Text.Quoted

namespace JsonAssist

/-- One step down: into the member of a name, or into the element at an index. -/
inductive Step where
  | key (name : String)
  | index (position : Nat)
  deriving DecidableEq, Repr

abbrev Path := List Step

namespace Step

/-- Whether the step names nothing. -/
def isEmpty : Step → Bool
  | .key name => name == ""
  | .index _ => false

/-- The step as a reader sees it: a name in quotes, an index in digits. -/
def text : Step → String
  | .key name => Quoted.text name
  | .index i => toString i

def toValue : Step → Value
  | .key name => .string name
  | .index i => .number (.integer i)

end Step

def Path.toValue (path : Path) : Value := .array (path.map Step.toValue)

end JsonAssist
