import JsonAssist.Category.Stored
import JsonAssist.CommandLine.Command
import JsonAssist.Corpus
import JsonAssist.Files.Change
import JsonAssist.Item.Stored
import JsonAssist.Project
import JsonAssist.Schema.Persisted

namespace JsonAssist

namespace CommandLine

/-- Why a command could not be carried out. -/
inductive Failure where
  | unreadable (path : String) (cause : FileError)
  | pastEnd (offset : Nat) (path : String) (size : Nat)
  | folderNotMade (path : String) (cause : FileError)
  | notWritten (path : String) (cause : FileError)
  deriving DecidableEq, Repr

def Failure.message : Failure → String
  | .unreadable path cause => "failed to read " ++ path ++ ": " ++ cause.message
  | .pastEnd offset path size =>
    "offset " ++ toString offset ++ " is past the end of " ++ path ++ " (" ++ toString size ++
      " bytes)"
  | .folderNotMade path cause => "failed to create " ++ path ++ ": " ++ cause.message
  | .notWritten path cause => "failed to write " ++ path ++ ": " ++ cause.message

/-- What a command leaves behind: what it prints, the notices on the way, and the tree of files. -/
structure Report where
  printed : String
  remarks : String
  notices : List Notice
  failure : Option Failure
  files : Files

namespace Report

def failed (files : Files) (notices : List Notice) (failure : Failure) : Report :=
  ⟨"", "", notices, some failure, files⟩

def ofPrinted (files : Files) (notices : List Notice) (printed : String) : Report :=
  ⟨printed, "", notices, none, files⟩

def ofRemarks (files : Files) (notices : List Notice) (remarks : String) : Report :=
  ⟨"", remarks, notices, none, files⟩

end Report

/-- The path at which a schema of a name is kept. -/
def schemaPath (filename : String) : String := PathText.join "schema" filename

/-- Writes a text to a file, with the folders above it that are missing. -/
def save (files : Files) (path text : String) : Files × Option Failure :=
  let parent := (PathText.parent? path).getD ""
  match files.createFolders parent with
  | (files, some cause) => (files, some (.folderNotMade parent cause))
  | (files, none) =>
    match files.write path text.toUTF8 with
    | .ok files => (files, none)
    | .error cause => (files, some (.notWritten path cause))

/-- The forest of the corpus below a folder; an empty one, with a notice, if there is no folder. -/
def corpusForest (files : Files) (folder : String) : Forest × List Notice :=
  match Corpus.read files folder with
  | .ok corpus => (corpus.forest, corpus.notices)
  | .error missing => ([], [.emptySchema missing])

def runGenerate (files : Files) (folder filename : String) : Report :=
  let (forest, notices) := corpusForest files folder
  let path := schemaPath filename
  match save files path forest.text with
  | (files, some failure) => .failed files notices failure
  | (files, none) =>
    .ofRemarks files notices
      ("wrote " ++ path ++ " (" ++ toString forest.length ++ " top-level keys)\n")

/-- The text of the document, which must reach up to the place in question. -/
def Query.document (files : Files) (query : Query) : Except Failure String :=
  match files.readText query.file with
  | .error cause => .error (.unreadable query.file cause)
  | .ok text =>
    if query.offset ≤ text.utf8ByteSize then .ok text
    else .error (.pastEnd query.offset query.file text.utf8ByteSize)

def runComplete (files : Files) (query : Query) : Report :=
  match query.document files with
  | .error failure => .failed files [] failure
  | .ok text =>
    let (registry, notices) := Registry.load files query.resources.schemas
    let (catalog, more) := Catalog.load files query.resources.items
    let candidates := complete registry (some catalog) query.file text query.offset
    .ofPrinted files (notices ++ more)
      ((Value.array (candidates.map Candidate.toValue)).pretty ++ "\n")

def runHover (files : Files) (query : Query) : Report :=
  match query.document files with
  | .error failure => .failed files [] failure
  | .ok text =>
    let (catalog, notices) := Catalog.load files query.resources.items
    match catalog.hover text query.offset with
    | some (shown, _) => .ofPrinted files notices (shown ++ "\n")
    | none => .ofRemarks files notices "no item under cursor\n"

/-- The path of the current folder. -/
def currentFolder (files : Files) : String := "/" ++ "/".intercalate files.here

def runDetect (files : Files) (workspace : Option String) : Report :=
  let workspace := workspace.getD (currentFolder files)
  let found := if isProject files workspace then "hytale project: " else "not a hytale project: "
  .ofPrinted files [] (found ++ workspace ++ "\n")

/-- What a command does, except that a server only loads what it serves from. -/
def Command.run (files : Files) : Command → Report
  | .generate folder filename => runGenerate files folder filename
  | .complete query => runComplete files query
  | .hover query => runHover files query
  | .detect workspace => runDetect files workspace
  | .serve resources =>
    let (_, notices) := Registry.load files resources.schemas
    let (_, more) := Catalog.load files resources.items
    .ofPrinted files (notices ++ more) ""

end CommandLine

end JsonAssist
