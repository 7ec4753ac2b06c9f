import JsonAssist.Completion.Candidate
import JsonAssist.Completion.Resolved
import JsonAssist.Cursor.Context

namespace JsonAssist

namespace Completion

/-- How many known values the documentation of a property shows. -/
def previewLimit : Nat := 8

/-- The number in at least five digits. -/
def rankText (rank : Nat) : String :=
  let digits := Nat.toDigits 10 rank
  String.ofList (List.replicate (5 - digits.length) '0' ++ digits)

/-- Drops each entry whose literal the entry before it has. -/
def dropRepeats : List (String × JsonType) → List (String × JsonType)
  | a :: b :: rest =>
    if a.1 = b.1 then dropRepeats (a :: rest) else a :: dropRepeats (b :: rest)
  | entries => entries

/-- The literals of values in the order of their text, each once, with their types. -/
def literals (values : List Value) : List (String × JsonType) :=
  let entries := values.map fun v => (v.compact, v.type)
  dropRepeats (entries.mergeSort fun a b => !(b.1 < a.1))

/-- A candidate for each literal; its place among them decides its sort text. -/
def valueCandidates (values : List Value) (replace : Option (Nat × Nat)) : List Candidate :=
  (literals values).zipIdx.map fun ((literal, type), rank) =>
    { label := literal
      kind := .value
      detail := some type.name
      documentation := none
      filterText := some literal
      insertText := literal
      sortText := "0_" ++ rankText rank
      replace }

/-- Some of the values known of a property. -/
def propertyNote (s : Schema) : Option String :=
  match s.values with
  | none => none
  | some [] => none
  | some values =>
    let shown := (values.take previewLimit).map fun v => "`" ++ v.compact ++ "`"
    let more :=
      if previewLimit < values.length then
        ["… " ++ toString (values.length - previewLimit) ++ " more"]
      else []
    some ("Known values: " ++ ", ".intercalate (shown ++ more))

def propertyCandidate (replace : Option (Nat × Nat)) (name : String) (s : Schema) : Candidate :=
  let quoted := (Value.string name).compact
  { label := name
    kind := .property
    detail := some s.type.name
    documentation := propertyNote s
    filterText := some quoted
    insertText := quoted
    sortText := "1_" ++ name
    replace }

/-- A candidate for each property whose name is not taken. -/
def propertyCandidates (properties : Fields Schema) (taken : List String)
    (replace : Option (Nat × Nat)) : List Candidate :=
  (properties.filter fun p => p.1 ∉ taken).map fun p => propertyCandidate replace p.1 p.2

/-- The candidates for a place. Known literals are offered wherever there are some; names of
properties only where a property is being named. -/
def plan (forest : Forest) (context : Cursor.Context) : List Candidate :=
  let resolved := forest.resolve context.path
  match resolved.values with
  | some (v :: vs) => valueCandidates (v :: vs) context.replace
  | _ =>
    match context.slot, resolved.properties with
    | .property, some properties =>
      propertyCandidates properties context.existing context.replace
    | _, _ => []

end Completion

end JsonAssist
