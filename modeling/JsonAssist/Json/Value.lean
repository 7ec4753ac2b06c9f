import JsonAssist.Json.Fields
import JsonAssist.Json.Double

namespace JsonAssist

/-- A JSON number: an integer of at most 64 bits, or a binary64 number. It keeps the form in which it was written, so
that an integer never equals a number with a fraction or an exponent. -/
inductive Number where
  | integer (value : Int)
  | real (value : Double)
  deriving DecidableEq, Repr

def Number.same : Number → Number → Bool
  | .integer a, .integer b => a == b
  | .real x, .real y => x.same y
  | _, _ => false

/-- A JSON value. Members of an object stand in the order in which their names first appeared. -/
inductive Value where
  | null
  | boolean (value : Bool)
  | number (value : Number)
  | string (value : String)
  | array (elements : List Value)
  | object (members : List (String × Value))
  deriving Repr, Inhabited

namespace Value

mutual

/-- JSON equality: the order of members does not matter, and the two zeros are equal. -/
def same : Value → Value → Bool
  | .null, .null => true
  | .boolean a, .boolean b => a == b
  | .number a, .number b => a.same b
  | .string a, .string b => a == b
  | .array xs, .array ys => sameElements xs ys
  | .object ms, .object ns => ms.length == ns.length && sameMembers ms ns
  | _, _ => false

def sameElements : List Value → List Value → Bool
  | [], [] => true
  | x :: xs, y :: ys => same x y && sameElements xs ys
  | _, _ => false

/-- Each member on the left has an equal one under its name on the right. -/
def sameMembers : List (String × Value) → List (String × Value) → Bool
  | [], _ => true
  | (name, v) :: rest, ns =>
    (match Fields.get? ns name with
      | some w => same v w
      | none => false) && sameMembers rest ns

end

/-- Whether the value is equal to one in the list. -/
def isIn (v : Value) (values : List Value) : Bool := values.any fun w => w.same v

end Value

end JsonAssist
