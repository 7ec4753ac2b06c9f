import JsonAssist.Json.Value

namespace JsonAssist

/-- The type of a JSON value. -/
inductive JsonType where
  | null
  | boolean
  | number
  | string
  | array
  | object
  deriving DecidableEq, Repr, Inhabited

namespace JsonType

/-- Place in the dominance order: containers win over scalars, and `null` loses to everything. -/
def rank : JsonType → Nat
  | .null => 0
  | .boolean => 1
  | .number => 2
  | .string => 3
  | .array => 4
  | .object => 5

/-- The dominant one of two types. -/
def max (a b : JsonType) : JsonType := if a.rank ≤ b.rank then b else a

def name : JsonType → String
  | .null => "null"
  | .boolean => "boolean"
  | .number => "number"
  | .string => "string"
  | .array => "array"
  | .object => "object"

def all : List JsonType := [.null, .boolean, .number, .string, .array, .object]

def ofName? (name : String) : Option JsonType := all.find? fun t => t.name == name

end JsonType

/-- The type of a value. -/
def Value.type : Value → JsonType
  | .null => .null
  | .boolean _ => .boolean
  | .number _ => .number
  | .string _ => .string
  | .array _ => .array
  | .object _ => .object

/-- A schema of one location. Documents that disagree may leave both children and values; a place
that only ever held `null` has neither. The children of an array are the fields of its object
elements, its values the scalar elements. -/
inductive Schema where
  | node (type : JsonType) (children : Option (List (String × Schema)))
      (values : Option (List Value))
  deriving Repr, Inhabited

namespace Schema

def type : Schema → JsonType
  | .node t _ _ => t

def children : Schema → Option (Fields Schema)
  | .node _ c _ => c

def values : Schema → Option (List Value)
  | .node _ _ v => v

/-- The schema of the field `name`. -/
def child? (s : Schema) (name : String) : Option Schema :=
  s.children.bind fun fields => Fields.get? fields name

mutual

/-- Equality of schemas: the order of fields does not matter, that of values does. -/
def same : Schema → Schema → Bool
  | .node t c v, .node t' c' v' =>
    t == t' && sameChildren c c' &&
      match v, v' with
      | none, none => true
      | some xs, some ys => Value.sameElements xs ys
      | _, _ => false

def sameChildren : Option (List (String × Schema)) → Option (Fields Schema) → Bool
  | none, none => true
  | some a, some b => a.length == b.length && sameFields a b
  | _, _ => false

/-- Each field on the left has an equal one under its name on the right. -/
def sameFields : List (String × Schema) → Fields Schema → Bool
  | [], _ => true
  | (name, s) :: rest, b =>
    (match Fields.get? b name with
      | some t => same s t
      | none => false) && sameFields rest b

end

/-- Which parts a schema has. -/
inductive Shape where
  | unknown
  | leaf
  | container
  | mixed
  deriving DecidableEq, Repr

def shape (s : Schema) : Shape :=
  match s.children, s.values with
  | none, none => .unknown
  | none, some _ => .leaf
  | some _, none => .container
  | some _, some _ => .mixed

end Schema

/-- The schemas of the top-level keys of one category of documents. -/
abbrev Forest := Fields Schema

end JsonAssist
