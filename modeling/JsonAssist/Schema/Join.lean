import JsonAssist.Schema.Basic

namespace JsonAssist

/-- Adds a value at the end unless an equal one is there. -/
def pushUnique (values : List Value) (v : Value) : List Value :=
  if v.isIn values then values else values ++ [v]

def joinValues (a b : List Value) : List Value := b.foldl pushUnique a

namespace Schema

/-- Joins parts of which either may be absent. -/
def joinOptions {α : Type} (both : α → α → α) : Option α → Option α → Option α
  | none, b => b
  | a, none => a
  | some a, some b => some (both a b)

/-- The fields on the right whose names are not on the left. -/
def newFields (a b : Fields Schema) : Fields Schema := b.filter fun entry => !Fields.has a entry.1

mutual

/-- What both samples together tell. -/
def join : Schema → Schema → Schema
  | .node t c v, .node t' c' v' =>
    .node (t.max t') (joinChildren c c') (joinOptions joinValues v v')

def joinChildren : Option (List (String × Schema)) → Option (Fields Schema) →
    Option (Fields Schema)
  | none, b => b
  | some a, none => some a
  | some a, some b => some (joinShared a b ++ newFields a b)

/-- The fields on the left, each joined with the field of its name on the right. -/
def joinShared : List (String × Schema) → Fields Schema → Fields Schema
  | [], _ => []
  | (name, s) :: rest, b =>
    (name, match Fields.get? b name with
      | some t => join s t
      | none => s) :: joinShared rest b

end

/-- Joins a new sample to what was known, if anything was. -/
def joinOnto (known : Option Schema) (sample : Schema) : Schema :=
  match known with
  | none => sample
  | some s => s.join sample

end Schema

end JsonAssist
