import JsonAssist.CommandLine.Arguments

namespace JsonAssist

namespace CommandLine

/-- Where the schemas and the items are. -/
structure Resources where
  schemas : String
  items : String
  deriving DecidableEq, Repr

/-- A place in a document, and what is needed to say something about it. -/
structure Query where
  file : String
  offset : Nat
  resources : Resources
  deriving DecidableEq, Repr

inductive Command where
  | generate (folder filename : String)
  | complete (query : Query)
  | hover (query : Query)
  | detect (workspace : Option String)
  | serve (resources : Resources)
  deriving DecidableEq, Repr

def resourceParameters : List Parameter :=
  [⟨"schema-dir", .path, false⟩, ⟨"lang-file", .path, false⟩]

def generateSignature : Signature :=
  ⟨[⟨"folder", .path, true⟩, ⟨"filename", .text, true⟩], []⟩

def querySignature : Signature :=
  ⟨[⟨"file", .path, true⟩], ⟨"offset", .count, true⟩ :: resourceParameters⟩

def detectSignature : Signature := ⟨[⟨"workspace", .path, false⟩], []⟩

def serveSignature : Signature := ⟨[], resourceParameters⟩

def value (values : Fields String) (name standard : String) : String :=
  (Fields.get? values name).getD standard

def Resources.ofValues (values : Fields String) : Resources :=
  ⟨value values "schema-dir" "schema", value values "lang-file" "data/server.lang"⟩

def Query.ofValues (values : Fields String) : Query :=
  ⟨value values "file" "", (count? (value values "offset" "")).getD 0, .ofValues values⟩

/-- The command of a name. -/
def Command.ofName? (name : String) : Option (List String → Except Usage Command) :=
  match name with
  | "generate" => some fun arguments => do
    let values ← generateSignature.read arguments
    return .generate (value values "folder" "") (value values "filename" "")
  | "complete" => some fun arguments => do
    return .complete (.ofValues (← querySignature.read arguments))
  | "hover" => some fun arguments => do
    return .hover (.ofValues (← querySignature.read arguments))
  | "detect" => some fun arguments => do
    return .detect (Fields.get? (← detectSignature.read arguments) "workspace")
  | "serve" => some fun arguments => do
    return .serve (.ofValues (← serveSignature.read arguments))
  | _ => none

def isName (name : String) : Bool := name == "help" || (Command.ofName? name).isSome

/-- What comes of asking for help: help about nothing, about a command, or about help itself. -/
def helpFor : List String → Usage
  | [] => .help
  | [name] => if isName name then .help else .invalidSubcommand
  | _ => .invalidSubcommand

/-- What comes of an argument behind one dash in the place of a command. -/
def shortUsage (letter : Char) : Usage :=
  if letter = 'h' then .help else if letter = 'V' then .version else .unknownArgument

/-- What comes of an argument behind two dashes in the place of a command. -/
def longUsage (rest : List Char) : Usage :=
  let (name, value) := cutAt '=' rest
  let known := match String.ofList name with
    | "help" => some Usage.help
    | "version" => some Usage.version
    | _ => none
  match known, value with
  | none, _ => .unknownArgument
  | some _, some _ => .tooManyValues
  | some usage, none => usage

/-- The command that some arguments stand for. -/
def Command.ofArguments : List String → Except Usage Command
  | [] => .error .helpForMissing
  | first :: rest =>
    match Command.ofName? first with
    | some read => read rest
    | none =>
      if first = "help" then .error (helpFor rest)
      else .error <|
        match first.toList with
        | ['-', '-'] =>
          match rest with
          | [] => .helpForMissing
          | name :: _ => if isName name then .unknownArgument else .invalidSubcommand
        | '-' :: '-' :: name => longUsage name
        | '-' :: letter :: _ => shortUsage letter
        | _ => .invalidSubcommand

end CommandLine

end JsonAssist
