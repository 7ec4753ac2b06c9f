namespace JsonAssist

/-- Entries under names, in the order in which the names were first written. Every operation that adds one keeps the
names distinct. -/
abbrev Fields (α : Type) := List (String × α)

namespace Fields

variable {α : Type}

def names (fields : Fields α) : List String := fields.map Prod.fst

/-- The entry under `name`. -/
def get? : Fields α → String → Option α
  | [], _ => none
  | (key, value) :: rest, name => if key = name then some value else get? rest name

def has (fields : Fields α) (name : String) : Bool := (get? fields name).isSome

/-- Puts `value` under `name`: in its place when the name is there, else at the end. -/
def insert : Fields α → String → α → Fields α
  | [], name, value => [(name, value)]
  | (key, old) :: rest, name, value =>
    if key = name then (key, value) :: rest else (key, old) :: insert rest name value

/-- The entries of a list in which a later entry of a name replaces an earlier one. -/
def ofList (entries : List (String × α)) : Fields α :=
  entries.foldl (fun fields entry => insert fields entry.1 entry.2) []

end Fields

end JsonAssist
