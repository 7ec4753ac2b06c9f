import JsonAssist.Server.Session

namespace JsonAssist

namespace Server

/-- The message that a value stands for. An id is a text, an integer or `null`. -/
def Message.ofValue? : Value → Option Message
  | .object ms => do
    let version ← Fields.get? ms "jsonrpc"
    let method := (Fields.get? ms "method").getD (.string "")
    let id := Fields.get? ms "id"
    let isId (v : Value) : Bool :=
      match v with
      | .string _ | .number (.integer _) | .null => true
      | _ => false
    match version, method with
    | .string "2.0", .string name =>
      if id.all isId then some ⟨id, name, Fields.get? ms "params"⟩ else none
    | _, _ => none
  | _ => none

def number (n : Nat) : Value := .number (.integer n)

def positionValue (p : Position) : Value :=
  .object [("line", number p.line), ("character", number p.column)]

def spanValue (span : Span) : Value :=
  .object [("start", positionValue span.1), ("end", positionValue span.2)]

def markdown (text : String) : Value :=
  .object [("kind", .string "markdown"), ("value", .string text)]

/-- The numbers by which editors know the kinds of candidates. -/
def kindNumber : CandidateKind → Nat
  | .property => 10
  | .value => 12
  | .item => 21

def Proposal.toValue (p : Proposal) : Value :=
  let c := p.candidate
  .object ([("label", .string c.label), ("kind", number (kindNumber c.kind))] ++
    Candidate.textMember "detail" c.detail ++
    (c.documentation.toList.map fun text => ("documentation", markdown text)) ++
    [("sortText", .string c.sortText)] ++
    Candidate.textMember "filterText" c.filterText ++
    [("insertText", .string c.insertText)] ++
    p.span.toList.map fun span =>
      ("textEdit", .object [("range", spanValue span), ("newText", .string c.insertText)]))

/-- The name and the version that the server goes by. -/
def serverInfo : Value :=
  .object [("name", .string "hytale-assist"), ("version", .string "0.1.0")]

/-- What the server can do: it takes whole texts, and completes also after a quote or a colon. -/
def abilities : Value :=
  .object [
    ("textDocumentSync", number 1),
    ("hoverProvider", .boolean true),
    ("completionProvider", .object [
      ("resolveProvider", .boolean false),
      ("triggerCharacters", .array [.string "\"", .string ":"])])]

def Answer.toValue : Answer → Value
  | .nothing => .null
  | .capabilities => .object [("capabilities", abilities), ("serverInfo", serverInfo)]
  | .proposals ps => .array (ps.map Proposal.toValue)
  | .hover shown span => .object [("contents", markdown shown), ("range", spanValue span)]

def Refusal.toValue (refusal : Refusal) : Value :=
  let data := match refusal with
    | .unknownMethod name => [("data", .string name)]
    | _ => []
  .object ([("code", .number (.integer refusal.code)), ("message", .string refusal.message)] ++
    data)

/-- The response to the request of an id. -/
def response (id : Value) (reply : Except Refusal Answer) : Value :=
  let outcome := match reply with
    | .ok answer => ("result", answer.toValue)
    | .error refusal => ("error", refusal.toValue)
  .object [("jsonrpc", .string "2.0"), outcome, ("id", id)]

/-- A message to be shown in the editor's log. -/
def logMessage (text : String) : Value :=
  .object [
    ("jsonrpc", .string "2.0"),
    ("method", .string "window/logMessage"),
    ("params", .object [("type", number 3), ("message", .string text)])]

end Server

end JsonAssist
