import JsonAssist.Category.Registry
import JsonAssist.Project
import JsonAssist.Server.Operation

namespace JsonAssist

namespace Server

/-- The texts of the documents that are open. -/
abbrev Documents := List (Uri × String)

namespace Documents

/-- The text of a document. -/
def get? (documents : Documents) (uri : Uri) : Option String :=
  (documents.find? fun d => d.1 == uri).map Prod.snd

def erase (documents : Documents) (uri : Uri) : Documents :=
  documents.filter fun d => d.1 != uri

/-- Gives a document a text, whether it was open or not. -/
def put (documents : Documents) (uri : Uri) (text : String) : Documents :=
  (uri, text) :: documents.erase uri

/-- The documents after a change in the editor. Of several new texts the last one counts, and a
document that is not open cannot change. -/
def edit (documents : Documents) : Edit → Documents
  | .opened uri text => documents.put uri text
  | .changed uri texts =>
    match texts.getLast?, documents.get? uri with
    | some text, some _ => documents.put uri text
    | _, _ => documents
  | .closed uri => documents.erase uri

end Documents

/-- A range between two positions. -/
abbrev Span := Position × Position

/-- The range between two byte offsets of a text. -/
def spanOf (text : String) (range : Nat × Nat) : Span :=
  (Position.ofOffset text range.1, Position.ofOffset text range.2)

/-- A candidate with the range that it replaces, as the editor counts it. -/
structure Proposal where
  candidate : Candidate
  span : Option Span
  deriving DecidableEq, Repr

/-- The answer to a request. -/
inductive Answer where
  | nothing
  | capabilities
  | proposals (proposals : List Proposal)
  | hover (shown : String) (span : Span)
  deriving DecidableEq, Repr

/-- What a server offers from. -/
structure Knowledge where
  registry : Registry
  catalog : Catalog

/-- What there is to propose at a position of a document. -/
def Knowledge.proposals (known : Knowledge) (uri : Uri) (text : String) (position : Position) :
    List Proposal :=
  let offset := position.offset text
  (complete known.registry (some known.catalog) uri.documentPath text offset).map fun c =>
    ⟨c, c.replace.map (spanOf text)⟩

/-- What to show about the item at a position. -/
def Knowledge.hover (known : Knowledge) (text : String) (position : Position) : Answer :=
  match known.catalog.hover text (position.offset text) with
  | some (shown, start, stop) => .hover shown (spanOf text (start, stop))
  | none => .nothing

inductive Phase where
  | waiting
  | serving
  | stopped
  | exited
  deriving DecidableEq, Repr

/-- The state of a session. It is enabled if its workspace is a project. -/
structure Session where
  phase : Phase
  enabled : Bool
  documents : Documents

def Session.new : Session := ⟨.waiting, false, []⟩

/-- The message about the project that a session begins with. -/
def Session.greeting (session : Session) (known : Knowledge) : String :=
  if session.enabled then
    "Hytale project detected; " ++ toString known.registry.length ++ " schema categories loaded"
  else "No Hytale project detected; assistance disabled"

/-- What comes of an operation: the next state, the answer, and the messages to the editor. -/
structure Outcome where
  session : Session
  answer : Except Refusal Answer
  messages : List String

/-- Carries out an operation. -/
def Session.perform (session : Session) (known : Knowledge) (files : Files) :
    Operation → Outcome
  | .start root =>
    let enabled := match root.bind Uri.filePath? with
      | some path => isProject files path
      | none => false
    ⟨{ session with enabled }, .ok .capabilities, []⟩
  | .started => ⟨session, .ok .nothing, [session.greeting known]⟩
  | .edit edit => ⟨{ session with documents := session.documents.edit edit }, .ok .nothing, []⟩
  | .complete uri position =>
    let answer := if session.enabled then
        match session.documents.get? uri with
        | some text => .proposals (known.proposals uri text position)
        | none => .proposals []
      else .nothing
    ⟨session, .ok answer, []⟩
  | .hover uri position =>
    let answer := if session.enabled then
        match session.documents.get? uri with
        | some text => known.hover text position
        | none => .nothing
      else .nothing
    ⟨session, .ok answer, []⟩
  | .unsupported => ⟨session, .error .unsupportedMethod, []⟩
  | .stop | .ignored => ⟨session, .ok .nothing, []⟩

/-- A message from the editor. One without an id expects no answer. -/
structure Message where
  id : Option Value
  method : String
  params : Option Value

/-- The path of the workspace with which a message starts a session. -/
def Message.workspace? (message : Message) : Option String :=
  match Method.ofName? message.method with
  | none => none
  | some method =>
    match method.read message.params with
    | .ok (.start root) => root.bind Uri.filePath?
    | _ => none

/-- What a session does on a message: the next state, the answer if one is due, and the messages to
the editor. -/
structure Reaction where
  session : Session
  reply : Option (Except Refusal Answer)
  messages : List String

namespace Session

/-- Nothing happens. -/
def idle (session : Session) : Reaction := ⟨session, none, []⟩

/-- Turns a request down; nothing else happens. -/
def refuse (session : Session) (message : Message) (refusal : Refusal) : Reaction :=
  ⟨session, message.id.map fun _ => .error refusal, []⟩

/-- Why nothing is served in a phase. -/
def Phase.refusal : Phase → Refusal
  | .waiting => .notStarted
  | _ => .invalidRequest

/-- Reads the parameters of a message and carries it out. A request that comes as a notification,
and a notification that comes as a request, are passed over. -/
def carryOut (session : Session) (known : Knowledge) (files : Files) (method : Method)
    (message : Message) : Reaction :=
  if method.isRequest != message.id.isSome then session.idle
  else match method.read message.params with
    | .error refusal => session.refuse message refusal
    | .ok operation =>
      let outcome := session.perform known files operation
      ⟨outcome.session, message.id.map fun _ => outcome.answer, outcome.messages⟩

/-- Takes in a message. None after the exit. -/
def receive (session : Session) (known : Knowledge) (files : Files) (message : Message) :
    Option Reaction :=
  if session.phase = .exited then none
  else some <|
    match Method.ofName? message.method with
    | none => session.refuse message (.unknownMethod message.method)
    | some method =>
      match method.duty with
      | .exit => { session with phase := .exited : Session }.idle
      | .cancel => session.idle
      | .start =>
        if session.phase = .waiting then
          let reaction := session.carryOut known files method message
          match reaction.reply with
          | some (.ok _) =>
            { reaction with session := { reaction.session with phase := .serving } }
          | _ => reaction
        else session.refuse message .invalidRequest
      | .stop =>
        if session.phase = .serving then
          { session with phase := .stopped : Session }.carryOut known files method message
        else session.refuse message (Phase.refusal session.phase)
      | .ordinary =>
        if session.phase = .serving then session.carryOut known files method message
        else session.refuse message (Phase.refusal session.phase)

end Session

end Server

end JsonAssist
