import JsonAssist.Server.Form

namespace JsonAssist

namespace Server

/-- A change to the documents that are open in the editor. A change of a text comes as one or more
whole texts. -/
inductive Edit where
  | opened (uri : Uri) (text : String)
  | changed (uri : Uri) (texts : List String)
  | closed (uri : Uri)
  deriving DecidableEq, Repr

/-- A message whose parameters have been read. -/
inductive Operation where
  | start (root : Option Uri)
  | started
  | stop
  | edit (edit : Edit)
  | complete (uri : Uri) (position : Position)
  | hover (uri : Uri) (position : Position)
  | unsupported
  | ignored
  deriving DecidableEq, Repr

/-- Why a request gets no answer. -/
inductive Refusal where
  | notStarted
  | invalidRequest
  | unknownMethod (name : String)
  | unsupportedMethod
  | missingParams
  | unexpectedParams (params : String)
  | misfit (misfit : Misfit)
  deriving DecidableEq, Repr

namespace Refusal

def code : Refusal → Int
  | .notStarted => -32002
  | .invalidRequest => -32600
  | .unknownMethod _ | .unsupportedMethod => -32601
  | .missingParams | .unexpectedParams _ | .misfit _ => -32602

def message : Refusal → String
  | .notStarted => "Server not initialized"
  | .invalidRequest => "Invalid request"
  | .unknownMethod _ | .unsupportedMethod => "Method not found"
  | .missingParams => "Missing params field"
  | .unexpectedParams params => "Unexpected params: " ++ params
  | .misfit m => m.message

end Refusal

namespace Params

open Form

def folder : Form Uri := fun v => do
  let ms ← record "WorkspaceFolder" [("uri", part uri), ("name", part text)] v
  let folder ← given ms "uri" uri
  let _ ← given ms "name" text
  return folder

/-- What the editor can do, of which nothing is used. -/
def capabilities : Form Unit := fun v => do
  let group (name : String) : Form Unit := part (optional (record name []))
  let _ ← record "ClientCapabilities" [
    ("workspace", group "WorkspaceClientCapabilities"),
    ("textDocument", group "TextDocumentClientCapabilities"),
    ("window", group "WindowClientCapabilities"),
    ("general", group "GeneralClientCapabilities"),
    ("experimental", anything)] v

def client : Form Unit := fun v => do
  let ms ← record "ClientInfo" [("name", part text), ("version", part (optional text))] v
  let _ ← given ms "name" text

/-- The root of the workspace: its first folder, or else the root that is given by itself. -/
def start : Form Operation := fun v => do
  let ms ← record "InitializeParams" [
    ("processId", part (optional unsigned)),
    ("rootPath", part (optional text)),
    ("rootUri", part (optional uri)),
    ("initializationOptions", anything),
    ("capabilities", capabilities),
    ("trace", part (optional (word ["off", "messages", "verbose"]))),
    ("workspaceFolders", part (optional (listOf folder))),
    ("clientInfo", part (optional client)),
    ("locale", part (optional text))] v
  given ms "capabilities" capabilities
  let root ← maybe ms "rootUri" uri
  match ← maybe ms "workspaceFolders" (listOf folder) with
  | some (first :: _) => return .start (some first)
  | _ => return .start root

def started : Form Operation := fun v => do
  let _ ← record "InitializedParams" [] v
  return .started

def opened : Form Operation := fun v => do
  let item : Form (Uri × String) := fun v => do
    let ms ← record "TextDocumentItem" [("uri", part uri), ("languageId", part text),
      ("version", part signed), ("text", part text)] v
    let uri ← given ms "uri" uri
    let _ ← given ms "languageId" text
    let _ ← given ms "version" signed
    return (uri, ← given ms "text" text)
  let ms ← record "DidOpenTextDocumentParams" [("textDocument", part item)] v
  let (uri, text) ← given ms "textDocument" item
  return .edit (.opened uri text)

def changed : Form Operation := fun v => do
  let versioned : Form Uri := fun v => do
    let ms ← record "VersionedTextDocumentIdentifier"
      [("uri", part uri), ("version", part signed)] v
    let uri ← given ms "uri" uri
    let _ ← given ms "version" signed
    return uri
  let change : Form String := fun v => do
    let ms ← record "TextDocumentContentChangeEvent" [("range", part (optional range)),
      ("rangeLength", part (optional unsigned)), ("text", part text)] v
    given ms "text" text
  let ms ← record "DidChangeTextDocumentParams"
    [("textDocument", part versioned), ("contentChanges", part (listOf change))] v
  let uri ← given ms "textDocument" versioned
  return .edit (.changed uri (← given ms "contentChanges" (listOf change)))

def closed : Form Operation := fun v => do
  let ms ← record "DidCloseTextDocumentParams" [("textDocument", part document)] v
  return .edit (.closed (← given ms "textDocument" document))

def workDone : List String := ["workDoneToken"]

def partialResult : List String := ["workDoneToken", "partialResultToken"]

def complete : Form Operation := fun v => do
  let context : Form Unit := fun v => do
    let ms ← record "CompletionContext"
      [("triggerKind", part signed), ("triggerCharacter", part (optional text))] v
    let _ ← given ms "triggerKind" signed
  let ms ← members "CompletionParams" v
  checkMembers [("context", part (optional context))] ms
  let (uri, position) ← place ms
  tokens partialResult ms
  return .complete uri position

def hover : Form Operation := fun v => do
  let ms ← members "HoverParams" v
  let (uri, position) ← place ms
  tokens workDone ms
  return .hover uri position

/-- Parameters of a method that is not supported, which name a place in a document. -/
def atPlace (name : String) (marks : List String) : Form Operation := fun v => do
  let ms ← members name v
  let _ ← place ms
  tokens marks ms
  return .unsupported

/-- Parameters of a method that is not supported, which name a document. -/
def ofDocument (name : String) : Form Operation := fun v => do
  let ms ← members name v
  checkMembers [("textDocument", part document)] ms
  let _ ← given ms "textDocument" document
  tokens partialResult ms
  return .unsupported

def references : Form Operation := fun v => do
  let context : Form Unit := fun v => do
    let ms ← record "ReferenceContext" [("includeDeclaration", part flag)] v
    let _ ← given ms "includeDeclaration" flag
  let ms ← members "ReferenceParams" v
  checkMembers [("context", context)] ms
  given ms "context" context
  let _ ← place ms
  tokens partialResult ms
  return .unsupported

def rename : Form Operation := fun v => do
  let ms ← members "RenameParams" v
  checkMembers [("newName", part text)] ms
  let _ ← given ms "newName" text
  let _ ← place ms
  tokens workDone ms
  return .unsupported

def prepareRename : Form Operation := fun v => do
  let ms ← record "TextDocumentPositionParams"
    [("textDocument", part document), ("position", part position)] v
  let _ ← place ms
  return .unsupported

end Params

/-- What a method does to the course of a session. -/
inductive Duty where
  | start
  | stop
  | exit
  | cancel
  | ordinary
  deriving DecidableEq, Repr

/-- A method: its duty, whether an answer is due, and how its parameters are read. -/
structure Method where
  duty : Duty
  isRequest : Bool
  read : Option Value → Except Refusal Operation

namespace Method

/-- Parameters that must be there in a form. -/
def needs (form : Form Operation) : Option Value → Except Refusal Operation
  | none => .error .missingParams
  | some v => (form v).mapError .misfit

/-- Parameters that must not be there. -/
def none (operation : Operation) : Option Value → Except Refusal Operation
  | Option.none => .ok operation
  | some v => .error (.unexpectedParams v.compact)

def request (form : Form Operation) : Method := ⟨.ordinary, true, needs form⟩

def notification (form : Form Operation) : Method := ⟨.ordinary, false, needs form⟩

/-- A request that is known but not supported, whatever its parameters are. -/
def known : Form Operation := fun _ => .ok .unsupported

/-- The forms of the requests that are known but not supported. -/
def unsupported : List (String × Form Operation) := [
  ("textDocument/declaration", Params.atPlace "GotoDefinitionParams" Params.partialResult),
  ("textDocument/definition", Params.atPlace "GotoDefinitionParams" Params.partialResult),
  ("textDocument/typeDefinition", Params.atPlace "GotoDefinitionParams" Params.partialResult),
  ("textDocument/implementation", Params.atPlace "GotoDefinitionParams" Params.partialResult),
  ("textDocument/references", Params.references),
  ("textDocument/prepareCallHierarchy",
    Params.atPlace "CallHierarchyPrepareParams" Params.workDone),
  ("callHierarchy/incomingCalls", known),
  ("callHierarchy/outgoingCalls", known),
  ("textDocument/prepareTypeHierarchy",
    Params.atPlace "TypeHierarchyPrepareParams" Params.workDone),
  ("typeHierarchy/supertypes", known),
  ("typeHierarchy/subtypes", known),
  ("textDocument/documentHighlight",
    Params.atPlace "DocumentHighlightParams" Params.partialResult),
  ("textDocument/documentLink", Params.ofDocument "DocumentLinkParams"),
  ("documentLink/resolve", known),
  ("textDocument/codeLens", Params.ofDocument "CodeLensParams"),
  ("codeLens/resolve", known),
  ("textDocument/foldingRange", Params.ofDocument "FoldingRangeParams"),
  ("textDocument/selectionRange", known),
  ("textDocument/documentSymbol", Params.ofDocument "DocumentSymbolParams"),
  ("textDocument/semanticTokens/full", Params.ofDocument "SemanticTokensParams"),
  ("textDocument/semanticTokens/full/delta", known),
  ("textDocument/semanticTokens/range", known),
  ("textDocument/inlineValue", known),
  ("textDocument/inlayHint", known),
  ("inlayHint/resolve", known),
  ("textDocument/moniker", Params.atPlace "MonikerParams" Params.partialResult),
  ("completionItem/resolve", known),
  ("textDocument/diagnostic", known),
  ("workspace/diagnostic", known),
  ("textDocument/signatureHelp", Params.atPlace "SignatureHelpParams" Params.workDone),
  ("textDocument/codeAction", known),
  ("codeAction/resolve", known),
  ("textDocument/documentColor", Params.ofDocument "DocumentColorParams"),
  ("textDocument/colorPresentation", known),
  ("textDocument/formatting", known),
  ("textDocument/rangeFormatting", known),
  ("textDocument/onTypeFormatting", known),
  ("textDocument/rename", Params.rename),
  ("textDocument/prepareRename", Params.prepareRename),
  ("textDocument/linkedEditingRange",
    Params.atPlace "LinkedEditingRangeParams" Params.workDone),
  ("textDocument/willSaveWaitUntil", known),
  ("workspace/symbol", known),
  ("workspaceSymbol/resolve", known),
  ("workspace/willCreateFiles", known),
  ("workspace/willRenameFiles", known),
  ("workspace/willDeleteFiles", known),
  ("workspace/executeCommand", known)]

/-- Notifications that change nothing. -/
def unheeded : List String := [
  "textDocument/willSave", "textDocument/didSave", "workspace/didChangeConfiguration",
  "workspace/didChangeWorkspaceFolders", "workspace/didCreateFiles",
  "workspace/didRenameFiles", "workspace/didDeleteFiles", "workspace/didChangeWatchedFiles"]

/-- The method of a name. -/
def ofName? (name : String) : Option Method :=
  match name with
  | "initialize" => some ⟨.start, true, needs Params.start⟩
  | "initialized" => some (notification Params.started)
  | "shutdown" => some ⟨.stop, true, none .stop⟩
  | "exit" => some ⟨.exit, false, fun _ => .ok .ignored⟩
  | "$/cancelRequest" => some ⟨.cancel, false, fun _ => .ok .ignored⟩
  | "textDocument/didOpen" => some (notification Params.opened)
  | "textDocument/didChange" => some (notification Params.changed)
  | "textDocument/didClose" => some (notification Params.closed)
  | "textDocument/completion" => some (request Params.complete)
  | "textDocument/hover" => some (request Params.hover)
  | _ =>
    if name ∈ unheeded then some (notification fun _ => .ok .ignored)
    else (Fields.get? unsupported name).map request

end Method

end Server

end JsonAssist
