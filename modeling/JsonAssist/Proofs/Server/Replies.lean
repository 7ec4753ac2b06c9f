import JsonAssist.Proofs.Json.Fields
import JsonAssist.Proofs.Server.Documents

namespace JsonAssist.Server

namespace Message

/-- The operation of a message that neither starts nor ends a session and comes as its method asks. -/
def operation? (message : Message) : Option Operation :=
  (Method.ofName? message.method).bind fun method =>
    if method.duty = .ordinary ∧ method.isRequest = message.id.isSome then
      (method.read message.params).toOption
    else none

/-- The edit that a message tells of. -/
def edit? (message : Message) : Option Edit :=
  match message.operation? with
  | some (.edit edit) => some edit
  | _ => none

end Message

/-- Messages in the order in which they come, each with the files as they are then. -/
abbrev Messages := List (Files × Message)

/-- No message ends the session. -/
def Messages.GoOn (messages : Messages) : Prop :=
  ∀ m ∈ messages, m.2.method ≠ "shutdown" ∧ m.2.method ≠ "exit"

def Messages.edits (messages : Messages) : List Edit := messages.filterMap fun m => m.2.edit?

namespace Session

/-- The session after some messages; none after an exit. -/
def follow (known : Knowledge) : Session → Messages → Option Session
  | session, [] => some session
  | session, (files, message) :: rest => do
    let reaction ← session.receive known files message
    reaction.session.follow known rest

/-- The answer to a request after some messages. -/
def replyAfter (known : Knowledge) (messages : Messages) (request : Message) (files : Files) :
    Option (Except Refusal Answer) := do
  let session ← Session.new.follow known messages
  let reaction ← session.receive known files request
  reaction.reply

end Session

/-- A message starts a session in the workspace `root`. -/
structure Message.Starts (message : Message) (root : Option Uri) : Prop where
  method : message.method = "initialize"
  isRequest : message.id.isSome
  params : Method.needs Params.start message.params = .ok (.start root)

/-- Whether a session that starts in the workspace `root` finds a project there. -/
def foundProject (files : Files) (root : Option Uri) : Bool :=
  (root.bind Uri.filePath?).any (isProject files)

/-- What is read starts no session. -/
def NoStart (read : Except Misfit Operation) : Prop := ∀ root, read ≠ .ok (.start root)

namespace NoStart

theorem bind {α : Type} {x : Except Misfit α} {f : α → Except Misfit Operation}
    (next : ∀ a, NoStart (f a)) : NoStart (x >>= f) := by
  intro root read
  cases x with
  | error e => exact nomatch read
  | ok a => exact next a root read

theorem ok {operation : Operation} (other : ∀ root, operation ≠ .start root) : NoStart (.ok operation) :=
  fun root read => other root (Except.ok.inj read)

theorem atPlace (name : String) (marks : List String) (v : Value) : NoStart (Params.atPlace name marks v) :=
  bind fun _ => bind fun _ => bind fun _ => ok nofun

theorem ofDocument (name : String) (v : Value) : NoStart (Params.ofDocument name v) :=
  bind fun _ => bind fun _ => bind fun _ => bind fun _ => ok nofun

theorem started (v : Value) : NoStart (Params.started v) := bind fun _ => ok nofun

theorem opened (v : Value) : NoStart (Params.opened v) := bind fun _ => bind fun _ => ok nofun

theorem changed (v : Value) : NoStart (Params.changed v) := bind fun _ => bind fun _ => bind fun _ => ok nofun

theorem closed (v : Value) : NoStart (Params.closed v) := bind fun _ => bind fun _ => ok nofun

theorem complete (v : Value) : NoStart (Params.complete v) :=
  bind fun _ => bind fun _ => bind fun _ => bind fun _ => ok nofun

theorem hover (v : Value) : NoStart (Params.hover v) := bind fun _ => bind fun _ => bind fun _ => ok nofun

theorem known (v : Value) : NoStart (Method.known v) := ok nofun

theorem references (v : Value) : NoStart (Params.references v) :=
  bind fun _ => bind fun _ => bind fun _ => bind fun _ => bind fun _ => ok nofun

theorem rename (v : Value) : NoStart (Params.rename v) :=
  bind fun _ => bind fun _ => bind fun _ => bind fun _ => bind fun _ => ok nofun

theorem prepareRename (v : Value) : NoStart (Params.prepareRename v) :=
  bind fun _ => bind fun _ => ok nofun

theorem of_unsupported {name : String} {form : Form Operation}
    (own : Fields.get? Method.unsupported name = some form) (v : Value) : NoStart (form v) := by
  have all : ∀ entry ∈ Method.unsupported, NoStart (entry.2 v) := by
    simp only [Method.unsupported, List.forall_mem_cons]
    and_intros
    all_goals first
      | exact known v
      | exact atPlace _ _ v
      | exact ofDocument _ v
      | exact references v
      | exact rename v
      | exact prepareRename v
      | exact nofun
  exact all _ (Fields.mem_of_get? own)

theorem of_form {form : Form Operation} (own : ∀ v, NoStart (form v)) (params : Option Value)
    (root : Option Uri) : Method.needs form params ≠ .ok (.start root) := by
  intro read
  cases params with
  | none => exact nomatch read
  | some v =>
    cases taken : form v with
    | error e => simp [Method.needs, taken, Except.mapError] at read
    | ok operation =>
      simp only [Method.needs, taken, Except.mapError, Except.ok.injEq] at read
      exact own v root (taken.trans (congrArg _ read))

end NoStart

/-- Of the methods that do not end a session only the first request starts one. -/
theorem Method.ofName?_cases {name : String} {method : Method} (own : Method.ofName? name = some method)
    (goesOn : name ≠ "shutdown" ∧ name ≠ "exit") :
    method.duty = .start ∨ method.duty = .cancel ∨
      method.duty = .ordinary ∧ ∀ params root, method.read params ≠ .ok (.start root) := by
  have ordinary {form : Form Operation} (isRequest : Bool) (noStart : ∀ v, NoStart (form v))
      (same : method = ⟨.ordinary, isRequest, Method.needs form⟩) :
      method.duty = .start ∨ method.duty = .cancel ∨
        method.duty = .ordinary ∧ ∀ params root, method.read params ≠ .ok (.start root) := by
    subst same
    exact Or.inr (Or.inr ⟨rfl, NoStart.of_form noStart⟩)
  unfold Method.ofName? at own
  split at own
  next => exact Or.inl (Option.some.inj own ▸ rfl)
  next => exact ordinary false NoStart.started (Option.some.inj own).symm
  next => exact absurd rfl goesOn.1
  next => exact absurd rfl goesOn.2
  next => exact Or.inr (Or.inl (Option.some.inj own ▸ rfl))
  next => exact ordinary false NoStart.opened (Option.some.inj own).symm
  next => exact ordinary false NoStart.changed (Option.some.inj own).symm
  next => exact ordinary false NoStart.closed (Option.some.inj own).symm
  next => exact ordinary true NoStart.complete (Option.some.inj own).symm
  next => exact ordinary true NoStart.hover (Option.some.inj own).symm
  next =>
    split at own
    next =>
      exact ordinary false (fun _ => (NoStart.ok nofun : NoStart (.ok .ignored))) (Option.some.inj own).symm
    next =>
      obtain ⟨form, unsupported, same⟩ := Option.map_eq_some_iff.mp own
      exact ordinary true (NoStart.of_unsupported unsupported) same.symm

section Steps

variable (known : Knowledge) (files : Files) {session : Session} {message : Message}

theorem Session.session_perform (session : Session) (operation : Operation)
    (notStart : ∀ root, operation ≠ .start root) : (session.perform known files operation).session =
      { session with documents := match operation with
          | .edit edit => session.documents.edit edit
          | _ => session.documents } := by
  cases operation with
  | start root => exact absurd rfl (notStart root)
  | _ => rfl

/-- A session that has started goes on with the documents as the message edits them. -/
theorem receive_of_serving (serving : session.phase = .serving)
    (goesOn : message.method ≠ "shutdown" ∧ message.method ≠ "exit") :
    ∃ reaction, session.receive known files message = some reaction ∧
      reaction.session =
        { session with documents := message.edit?.toList.foldl Documents.edit session.documents } := by
  obtain ⟨_, enabled, documents⟩ := session
  obtain rfl := serving
  refine ⟨_, if_neg (by simp), ?_⟩
  cases named : Method.ofName? message.method with
  | none => simp [Session.refuse, Message.edit?, Message.operation?, named]
  | some method =>
    rcases Method.ofName?_cases named goesOn with duty | duty | ⟨duty, notStart⟩
    · simp [Message.edit?, Message.operation?, named, duty, Session.refuse]
    · simp [Message.edit?, Message.operation?, named, duty, Session.idle]
    · simp only [duty, if_true, Session.carryOut]
      by_cases comes : method.isRequest = message.id.isSome
      · cases read : method.read message.params with
        | error refusal =>
          simp [Message.edit?, Message.operation?, named, duty, comes, read, Session.refuse, Except.toOption]
        | ok operation =>
          have done := Session.session_perform known files ⟨.serving, enabled, documents⟩ operation
            fun root same => notStart message.params root (read.trans (congrArg _ same))
          cases operation <;>
            simp [Message.edit?, Message.operation?, named, duty, comes, read, Except.toOption, done]
      · simp [Message.edit?, Message.operation?, named, duty, comes, Session.idle]

/-- The session after some messages has the documents as all of them edit them. -/
theorem follow_of_serving (serving : session.phase = .serving) {messages : Messages}
    (goOn : messages.GoOn) : session.follow known messages =
      some { session with documents := messages.edits.foldl Documents.edit session.documents } := by
  induction messages generalizing session with
  | nil => rfl
  | cons m rest ih =>
    obtain ⟨first, others⟩ := List.forall_mem_cons.mp goOn
    obtain ⟨reaction, received, next⟩ := receive_of_serving known m.1 serving first
    have after := @ih reaction.session (by rw [next]; exact serving) others
    rw [Session.follow, received, Option.bind_eq_bind, Option.bind_some, after, next]
    cases edit : m.2.edit? <;> simp [Messages.edits, edit]

/-- The first request starts the session, with no document open. -/
theorem receive_start {root : Option Uri} (starts : message.Starts root) : ∃ reaction,
    Session.new.receive known files message = some reaction ∧
      reaction.session = ⟨.serving, foundProject files root, []⟩ := by
  refine ⟨_, if_neg (by simp [Session.new]), ?_⟩
  obtain ⟨id, isRequest⟩ := Option.isSome_iff_exists.mp starts.isRequest
  have named : Method.ofName? message.method = some ⟨.start, true, Method.needs Params.start⟩ := by
    rw [starts.method]
    rfl
  simp only [named, Session.new, Session.carryOut, starts.params, isRequest, Session.perform, foundProject]
  cases root.bind Uri.filePath? <;> rfl

/-- A session that has started answers a request by carrying it out. -/
theorem reply_of_serving (serving : session.phase = .serving) {operation : Operation}
    (asked : message.operation? = some operation) (due : message.id.isSome) :
    (session.receive known files message).bind Reaction.reply =
      some (session.perform known files operation).answer := by
  obtain ⟨method, named, read⟩ := Option.bind_eq_some_iff.mp asked
  obtain ⟨id, isRequest⟩ := Option.isSome_iff_exists.mp due
  simp only [Option.ite_none_right_eq_some] at read
  obtain ⟨⟨duty, comes⟩, read⟩ := read
  have params : method.read message.params = .ok operation := by
    cases taken : method.read message.params <;> simp_all [Except.toOption]
  simp [Session.receive, serving, named, duty, Session.carryOut, comes, isRequest, params]

end Steps

section Replies

variable (known : Knowledge) {root : Option Uri} {files files' : Files} {start request : Message}
  {messages : Messages}

/-- A request is carried out on the documents that the edits before it left. -/
theorem replyAfter_eq (starts : start.Starts root) (goOn : messages.GoOn) {operation : Operation}
    (asked : request.operation? = some operation) (due : request.id.isSome) :
    Session.replyAfter known ((files, start) :: messages) request files' =
      some (Session.perform ⟨.serving, foundProject files root, messages.edits.foldl Documents.edit []⟩
        known files' operation).answer := by
  obtain ⟨reaction, received, started⟩ := receive_start known files starts
  have serving : reaction.session.phase = .serving := by rw [started]
  have after : reaction.session.follow known messages =
      some ⟨.serving, foundProject files root, messages.edits.foldl Documents.edit []⟩ := by
    rw [follow_of_serving known serving goOn, started]
  simp only [Session.replyAfter, Session.follow, received, Option.bind_eq_bind, Option.bind_some, after]
  exact reply_of_serving known files' rfl asked due

variable (files files' request) in
/-- Once a session has started, whatever messages follow that do not end it, completion and hover answer
from the latest text of the document that is asked about, if it is open; what the messages say about other
documents does not matter. -/
theorem replies_from_latest_text (starts : start.Starts root) (goOn : messages.GoOn) (due : request.id.isSome)
    (uri : Uri) (position : Position) :
    let reply (messages : Messages) := Session.replyAfter known ((files, start) :: messages) request files'
    (∃ latest : Option String, (∀ text, latest = some text ↔ OpenWith messages.edits uri text) ∧
      (request.operation? = some (.complete uri position) → reply messages = some (.ok (
        if foundProject files root then
          match latest with
          | some text =>
            let offset := position.offset text
            .proposals ((complete known.registry (some known.catalog) uri.documentPath text offset).map fun c =>
              ⟨c, c.replace.map fun r => (Position.ofOffset text r.1, Position.ofOffset text r.2)⟩)
          | none => .proposals []
        else .nothing))) ∧
      (request.operation? = some (.hover uri position) → reply messages = some (.ok (
        if foundProject files root then
          match latest with
          | some text =>
            match known.catalog.hover text (position.offset text) with
            | some (shown, start, stop) =>
              .hover shown (Position.ofOffset text start, Position.ofOffset text stop)
            | none => .nothing
          | none => .nothing
        else .nothing)))) ∧
    (request.operation? = some (.complete uri position) ∨
        request.operation? = some (.hover uri position) →
      ∀ others : Messages, others.GoOn →
        others.edits.filter (fun edit => edit.uri = uri) =
          messages.edits.filter (fun edit => edit.uri = uri) →
        reply others = reply messages) := by
  intro reply
  refine ⟨⟨Documents.get? (messages.edits.foldl Documents.edit []) uri,
    Documents.get?_foldl_edit messages.edits uri, fun asked => ?_, fun asked => ?_⟩,
    fun asked others goOn' same => ?_⟩
  · exact replyAfter_eq known starts goOn asked due
  · exact replyAfter_eq known starts goOn asked due
  · have latest : Documents.get? (others.edits.foldl Documents.edit []) uri =
        Documents.get? (messages.edits.foldl Documents.edit []) uri :=
      Option.ext fun text => by
        rw [Documents.get?_foldl_edit, Documents.get?_foldl_edit, ← openWith_filter others.edits, same,
          openWith_filter]
    rcases asked with asked | asked <;>
      simp only [reply, replyAfter_eq known starts goOn asked due, replyAfter_eq known starts goOn' asked due,
        Session.perform, latest]

end Replies

/-- A document that is given two texts at once and then none, while another one is opened and closed, and a question
about the word in it. -/
theorem replies_from_latest_text_of_changed :
    let known : Knowledge := ⟨[], ⟨[("Bone", ⟨"Bone", "Bone", "Hard."⟩)]⟩⟩
    let files : Files := ⟨[("w", .folder [(".hytale", .folder [])])], []⟩
    let text (s : String) : Value := .string s
    let document (name : String) : String × Value := ("textDocument", .object [("uri", text name)])
    let versioned (name : String) : String × Value :=
      ("textDocument", .object [("uri", text name), ("version", .number (.integer 2))])
    let start : Message := ⟨some .null, "initialize",
      some (.object [("capabilities", .object []), ("rootUri", text "file:///w")])⟩
    let opened (name content : String) : Message := ⟨none, "textDocument/didOpen", some (.object
      [("textDocument", .object [("uri", text name), ("languageId", text "json"),
        ("version", .number (.integer 1)), ("text", text content)])])⟩
    let changed (name : String) (contents : List String) : Message := ⟨none, "textDocument/didChange",
      some (.object [versioned name,
        ("contentChanges", .array (contents.map fun content => .object [("text", text content)]))])⟩
    let closed (name : String) : Message := ⟨none, "textDocument/didClose", some (.object [document name])⟩
    let request : Message := ⟨some (.number (.integer 7)), "textDocument/hover", some (.object
      [document "file:///a.json", ("position", .object
        [("line", .number (.integer 0)), ("character", .number (.integer 2))])])⟩
    let messages : Messages := [opened "file:///a.json" "[]", opened "file:///b.json" "Bone",
      changed "file:///a.json" ["Bone", "[Bone]"], closed "file:///b.json",
      changed "file:///a.json" []].map fun m => (files, m)
    OpenWith messages.edits ⟨"file", "", some "", none, "/a.json", none, none⟩ "[Bone]" ∧
      Session.replyAfter known ((files, start) :: messages) request files =
        some (.ok (.hover "### Bone\n\nHard." (⟨0, 1⟩, ⟨0, 5⟩))) := by
  intro known files text document versioned start opened changed closed request messages
  let a : Uri := ⟨"file", "", some "", none, "/a.json", none, none⟩
  let b : Uri := ⟨"file", "", some "", none, "/b.json", none, none⟩
  have starts : start.Starts (some ⟨"file", "", some "", none, "/w", none, none⟩) :=
    ⟨rfl, rfl, by decide +kernel⟩
  have goOn : messages.GoOn := by simp [Messages.GoOn, messages, opened, changed, closed]
  have edits : messages.edits =
      [.opened a "[]", .opened b "Bone", .changed a ["Bone", "[Bone]"], .closed b, .changed a []] := by
    decide +kernel
  have isOpen : OpenWith messages.edits a "[Bone]" := by
    rw [edits]
    exact ⟨⟨[], _, _, rfl, ⟨"[]", rfl⟩, by decide⟩, ⟨[_, _], _, _, rfl, by decide, by decide⟩⟩
  obtain ⟨⟨latest, own, _, hover⟩, _⟩ :=
    replies_from_latest_text known files files request starts goOn rfl a ⟨0, 2⟩
  have path : Uri.filePath? ⟨"file", "", some "", none, "/w", none, none⟩ = some "/w" := by decide +kernel
  have parts : PathText.parts "/w" = ["w"] := by decide +kernel
  have short : ¬ Files.nameLimit < "w".utf8ByteSize := by decide
  have isThere : files.find "/w" = .ok (.folder [(".hytale", .folder [])]) := by
    simp [files, Files.find, Files.locate, Files.walk, parts, short, Files.entry?, Entry.at?, Files.origin,
      PathText.isAbsolute, Fields.get?, bind, Except.bind]
  have found : foundProject files (some ⟨"file", "", some "", none, "/w", none, none⟩) := by
    simp [foundProject, path, isProject, isThere, Project.search, Project.searchEntry, Project.Signs.look,
      Project.isExcluded]
  refine ⟨isOpen, (hover (by decide +kernel)).trans ?_⟩
  rw [if_pos found, (own "[Bone]").mpr isOpen]
  decide +kernel

end JsonAssist.Server
