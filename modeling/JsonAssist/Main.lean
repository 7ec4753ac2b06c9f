import JsonAssist.CommandLine.Run
import JsonAssist.Disk
import JsonAssist.Server.Wire

open JsonAssist CommandLine

/-- Writes a notice for the user. -/
def reportNotice (notice : Notice) : IO Unit :=
  let details := notice.details.map fun (name, text) => " " ++ name ++ "=" ++ text
  IO.eprintln (notice.severity.name ++ " " ++ notice.message ++ String.join details)

/-- Takes in the schemas that a table names, and the items. -/
def lookAtResources (files : Files) (resources : Resources) : IO Files := do
  let mut files ← Disk.look files resources.schemas
  for row in (storedTable files resources.schemas).1 do
    files ← Disk.look files (PathText.join resources.schemas row.schema)
  Disk.look files resources.items

/-- Takes in what a command needs. -/
def lookFor (command : Command) : IO Files := do
  let files ← Disk.here
  match command with
  | .generate folder filename => Disk.look (← Disk.look files folder) (schemaPath filename)
  | .complete query | .hover query =>
    lookAtResources (← Disk.look files query.file) query.resources
  | .detect workspace => Disk.look files (workspace.getD (currentFolder files))
  | .serve resources => lookAtResources files resources

/-- Brings a schema that was generated to the disk. -/
def bringOut (files : Files) (filename : String) : IO Unit := do
  let path := schemaPath filename
  match files.readText path with
  | .ok text =>
    IO.FS.createDirAll ((PathText.parent? path).getD "")
    IO.FS.writeFile path text
  | .error _ => pure ()

/-- The length that the lines before a message give. -/
partial def readLength (input : IO.FS.Stream) (known : Option Nat) : IO (Option Nat) := do
  let line ← input.getLine
  if line.isEmpty then return none
  else
    let text := line.trimAscii.toString
    if text.isEmpty then return known
    else
      let length := match text.splitOn ":" with
        | [name, value] =>
          if name.toLower = "content-length" then value.trimAscii.toString.toNat? else known
        | _ => known
      readLength input length

partial def readBody (input : IO.FS.Stream) (length : Nat) (start : ByteArray) :
    IO ByteArray := do
  if length ≤ start.size then return start
  else
    let more ← input.read (length - start.size).toUSize
    if more.isEmpty then return start else readBody input length (start ++ more)

def send (output : IO.FS.Stream) (v : Value) : IO Unit := do
  let text := v.compact
  output.putStr ("Content-Length: " ++ toString text.utf8ByteSize ++ "\r\n\r\n" ++ text)
  output.flush

/-- Answers message after message until the exit or the end of the input. -/
partial def serve (known : Server.Knowledge) (input output : IO.FS.Stream)
    (session : Server.Session) : IO Unit := do
  let some length ← readLength input none | return
  let body ← readBody input length ByteArray.empty
  let message := do
    let text ← String.fromUTF8? body
    let value ← (Value.load text).toOption
    Server.Message.ofValue? value
  match message with
  | none => serve known input output session
  | some message =>
    let files ← Disk.here
    let files ← match message.workspace? with
      | some path => Disk.look files path
      | none => pure files
    let some reaction := session.receive known files message | return
    for text in reaction.messages do
      send output (Server.logMessage text)
    match reaction.reply with
    | some reply => send output (Server.response (message.id.getD .null) reply)
    | none => pure ()
    serve known input output reaction.session

def usageText : String :=
  "Usage: hytale-assist <COMMAND>\n\n" ++
  "  generate <FOLDER> <FILENAME>\n" ++
  "  complete --offset <OFFSET> <FILE>\n" ++
  "  hover --offset <OFFSET> <FILE>\n" ++
  "  detect [WORKSPACE]\n" ++
  "  serve"

def runCommand (command : Command) : IO UInt32 := do
  let files ← lookFor command
  let report := command.run files
  report.notices.forM reportNotice
  IO.print report.printed
  IO.eprint report.remarks
  match report.failure, command with
  | some failure, _ =>
    IO.eprintln ("Error: " ++ failure.message)
    return 1
  | none, .generate _ filename =>
    bringOut report.files filename
    return 0
  | none, .serve resources =>
    let known : Server.Knowledge :=
      ⟨(Registry.load files resources.schemas).1, (Catalog.load files resources.items).1⟩
    serve known (← IO.getStdin) (← IO.getStdout) .new
    return 0
  | none, _ => return 0

def main (arguments : List String) : IO UInt32 := do
  match Command.ofArguments arguments with
  | .ok command => runCommand command
  | .error .version =>
    IO.println "hytale-assist 0.1.0"
    return 0
  | .error .help =>
    IO.println usageText
    return 0
  | .error usage =>
    IO.eprintln usageText
    return UInt32.ofNat usage.exitCode
