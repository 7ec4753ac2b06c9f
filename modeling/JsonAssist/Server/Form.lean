import JsonAssist.Json.Fault
import JsonAssist.Json.Printer
import JsonAssist.Text.Position
import JsonAssist.Uri.Basic

namespace JsonAssist

/-- Why a value does not have the form that is asked for. -/
inductive Misfit where
  | cause (cause : Cause)
  | outOfRange (value : Int) (expected : String)
  | noVariant (type : String)
  | badUri (error : UriError) (text : String)
  deriving DecidableEq, Repr

def Misfit.message : Misfit → String
  | .cause c => c.describe
  | .outOfRange i expected =>
    "invalid value: " ++ (Found.integer i).describe ++ ", expected " ++ expected
  | .noVariant type => "data did not match any variant of untagged enum " ++ type
  | .badUri e text => e.message ++ ": " ++ Quoted.text text

/-- What stands there, as a fault names it. -/
def Value.found : Value → Found
  | .null => .null
  | .boolean b => .boolean b
  | .number (.integer i) => .integer i
  | .number (.real x) => .floating x
  | .string s => .string s
  | .array _ => .sequence
  | .object _ => .map

/-- A reading of values. -/
abbrev Form (α : Type) := Value → Except Misfit α

namespace Form

variable {α : Type}

def wrongType (expected : String) (v : Value) : Except Misfit α :=
  .error (.cause (.wrongType v.found expected))

def anything : Form Unit := fun _ => .ok ()

/-- A form of which only the fit matters. -/
def part (form : Form α) : Form Unit := fun v => (form v).map fun _ => ()

def text : Form String
  | .string s => .ok s
  | v => wrongType "a string" v

def flag : Form Bool
  | .boolean b => .ok b
  | v => wrongType "a boolean" v

def integer (low high : Int) (expected : String) : Form Int
  | .number (.integer i) =>
    if low ≤ i && i ≤ high then .ok i else .error (.outOfRange i expected)
  | v => wrongType expected v

def signed : Form Int := integer (-2147483648) 2147483647 "i32"

def unsigned : Form Nat := fun v => (integer 0 4294967295 "u32" v).map Int.toNat

def uri : Form Uri
  | .string s => (Uri.ofText s).mapError fun e => .badUri e s
  | v => wrongType "a string representing an URL" v

def optional (form : Form α) : Form (Option α)
  | .null => .ok none
  | v => (form v).map some

def listOf (form : Form α) : Form (List α)
  | .array xs => xs.mapM form
  | v => wrongType "a sequence" v

/-- One of some words. -/
def word (known : List String) : Form Unit
  | .string s =>
    if s ∈ known then .ok () else .error (.cause (.unknownVariant s known))
  | .object _ => .ok ()
  | v => wrongType "string or map" v

/-- A mark by which progress is reported: a number or a text. -/
def token : Form Unit := fun v =>
  match signed v, text v with
  | .error _, .error _ => .error (.noVariant "NumberOrString")
  | _, _ => .ok ()

/-- Checks the members that have a form, in the order of the text. -/
def checkMembers (fields : List (String × Form Unit)) (ms : Fields Value) : Except Misfit Unit :=
  ms.forM fun (name, v) =>
    match Fields.get? fields name with
    | some form => form v
    | none => .ok ()

/-- The elements of a record that is written as a list, under the names of its fields. -/
def elements (name : String) (count : Nat) :
    List (String × Form Unit) → List Value → Except Misfit (Fields Value)
  | [], [] => .ok []
  | [], extra => .error (.cause (.wrongLength (count + extra.length) "fewer elements in array"))
  | rest, [] =>
    let expected := "struct " ++ name ++ " with " ++ toString count ++
      (if count = 1 then " element" else " elements")
    .error (.cause (.wrongLength (count - rest.length) expected))
  | (field, form) :: fields, v :: values => do
    form v
    return (field, v) :: (← elements name count fields values)

/-- The members of a record. -/
def record (name : String) (fields : List (String × Form Unit)) : Form (Fields Value)
  | .object ms => do
    checkMembers fields ms
    return ms
  | .array xs => elements name fields.length fields xs
  | v => wrongType ("struct " ++ name) v

/-- The members of a record that takes in the members of others. -/
def members (name : String) : Form (Fields Value)
  | .object ms => .ok ms
  | v => wrongType ("struct " ++ name) v

/-- A member that must be there. -/
def given (ms : Fields Value) (name : String) (form : Form α) : Except Misfit α :=
  match Fields.get? ms name with
  | some v => form v
  | none => .error (.cause (.missingField name))

/-- A member that may be absent. -/
def maybe (ms : Fields Value) (name : String) (form : Form α) : Except Misfit (Option α) :=
  match Fields.get? ms name with
  | some v => optional form v
  | none => .ok none

/-- A document, named by its URI. -/
def document : Form Uri := fun v => do
  let ms ← record "TextDocumentIdentifier" [("uri", part uri)] v
  given ms "uri" uri

def position : Form Position := fun v => do
  let fields := [("line", part unsigned), ("character", part unsigned)]
  let ms ← record "Position" fields v
  return ⟨← given ms "line" unsigned, ← given ms "character" unsigned⟩

def range : Form (Position × Position) := fun v => do
  let ms ← record "Range" [("start", part position), ("end", part position)] v
  return (← given ms "start" position, ← given ms "end" position)

/-- The document and the position among the members of a record. -/
def place (ms : Fields Value) : Except Misfit (Uri × Position) := do
  checkMembers [("textDocument", part document), ("position", part position)] ms
  return (← given ms "textDocument" document, ← given ms "position" position)

/-- The marks for reporting progress and partial results. -/
def tokens (names : List String) (ms : Fields Value) : Except Misfit Unit :=
  names.forM fun name => (maybe ms name token).map fun _ => ()

end Form

end JsonAssist
