import JsonAssist.Json.Fields
import JsonAssist.Text.Split

namespace JsonAssist

namespace CommandLine

/-- Why the arguments name no command to run. Asking for help or for the version is no mistake. -/
inductive Usage where
  | help
  | version
  | helpForMissing
  | missingArgument
  | invalidSubcommand
  | unknownArgument
  | invalidValue
  | valueValidation
  | argumentConflict
  | tooManyValues
  deriving DecidableEq, Repr

def Usage.exitCode : Usage → Nat
  | .help | .version => 0
  | _ => 2

/-- What an argument is read as. Only a text may be empty. -/
inductive Kind where
  | path
  | text
  | count
  deriving DecidableEq, Repr

structure Parameter where
  name : String
  kind : Kind
  required : Bool
  deriving DecidableEq, Repr

/-- The parameters of a command: those known by their order, and those known by a name behind two
dashes. -/
structure Signature where
  ordered : List Parameter
  named : List Parameter
  deriving DecidableEq, Repr

/-- A number of 64 bits in decimal digits, perhaps behind a plus sign. -/
def count? (text : String) : Option Nat :=
  let digits := match text.toList with
    | '+' :: rest => rest
    | s => s
  if digits.isEmpty || !digits.all Char.isDigit then none
  else
    let n := digits.foldl (fun n c => 10 * n + (c.toNat - 48)) 0
    if n < Nat.pow 2 64 then some n else none

/-- Why a text is no value of a kind. -/
def Kind.fault? (kind : Kind) (text : String) : Option Usage :=
  match kind with
  | .path => if text = "" then some .invalidValue else none
  | .text => none
  | .count => if (count? text).isNone then some .valueValidation else none

/-- The argument that was read last and is not worked out yet. It is when the next one comes or the end is reached, so
of several faults the first one in that order counts. -/
inductive Pending where
  | nothing
  | name (parameter : Parameter)
  | value (parameter : Parameter) (text : String)
  deriving DecidableEq, Repr

/-- The state of reading: the values so far, the parameters still to come in order, and whether
everything from here on is a value. -/
structure Reading where
  values : Fields String
  pending : Pending
  ordered : List Parameter
  trailing : Bool

namespace Reading

/-- Works out what is pending. No parameter is given twice. -/
def settle (r : Reading) : Except Usage Reading :=
  match r.pending with
  | .nothing => .ok r
  | .name _ => .error .invalidValue
  | .value p text =>
    if Fields.has r.values p.name then .error .argumentConflict
    else match p.kind.fault? text with
      | some fault => .error fault
      | none => .ok { r with values := r.values ++ [(p.name, text)], pending := .nothing }

/-- Takes in an argument by its order. -/
def placed (r : Reading) (text : String) : Except Usage Reading :=
  match r.ordered with
  | [] => .error .unknownArgument
  | p :: rest => do
    let r ← r.settle
    return { r with pending := .value p text, ordered := rest }

/-- Takes in an argument behind two dashes. -/
def long (r : Reading) (signature : Signature) (name : String) (value : Option String) :
    Except Usage Reading :=
  if name = "help" then
    if value.isSome then .error .tooManyValues
    else do
      let _ ← r.settle
      .error .help
  else match signature.named.find? fun p => p.name == name with
    | none => .error .unknownArgument
    | some p => do
      let r ← r.settle
      match value with
      | none => return { r with pending := .name p }
      | some text => settle { r with pending := .value p text }

/-- Takes in an argument behind one dash, where only help is known. -/
def short (r : Reading) (letter : Char) : Except Usage Reading :=
  if letter = 'h' then do
    let _ ← r.settle
    .error .help
  else .error .unknownArgument

/-- Takes in an argument. -/
def next (r : Reading) (signature : Signature) (argument : String) : Except Usage Reading :=
  if r.trailing then r.placed argument
  else match argument.toList with
    | ['-', '-'] => .ok { r with trailing := true }
    | '-' :: '-' :: rest =>
      let (name, value) := cutAt '=' rest
      r.long signature (String.ofList name) (value.map String.ofList)
    | '-' :: letter :: _ => r.short letter
    | _ =>
      match r.pending with
      | .name p => .ok { r with pending := .value p argument }
      | _ => r.placed argument

end Reading

/-- The values of the parameters of a command. -/
def Signature.read (signature : Signature) (arguments : List String) :
    Except Usage (Fields String) := do
  let start : Reading := ⟨[], .nothing, signature.ordered, false⟩
  let r ← arguments.foldlM (fun (r : Reading) argument => r.next signature argument) start
  let r ← r.settle
  let isMissing (p : Parameter) : Bool := p.required && !Fields.has r.values p.name
  if (signature.ordered ++ signature.named).any isMissing then .error .missingArgument
  else .ok r.values

end CommandLine

end JsonAssist
