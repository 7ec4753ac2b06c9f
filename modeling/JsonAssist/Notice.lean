import JsonAssist.Files.Source

namespace JsonAssist

/-- A corpus root that is no folder. -/
structure MissingFolder where
  path : String
  deriving DecidableEq, Repr

def MissingFolder.message (e : MissingFolder) : String := "folder does not exist: " ++ e.path

inductive Severity where
  | warning
  | error
  deriving DecidableEq, Repr

def Severity.name : Severity → String
  | .warning => "WARN"
  | .error => "ERROR"

/-- What the user is told about files that could not be used. None of it ends the work. -/
inductive Notice where
  | skippedDocument (error : SourceError)
  | emptySchema (error : MissingFolder)
  | builtInTable (error : SourceError)
  | skippedCategory (pattern : String) (error : SourceError)
  | unreadableItems (path : String) (cause : FileError)
  deriving DecidableEq, Repr

namespace Notice

def severity : Notice → Severity
  | .emptySchema _ | .unreadableItems _ _ => .error
  | _ => .warning

def message : Notice → String
  | .skippedDocument _ => "skipping corpus file"
  | .emptySchema _ => "writing an empty schema"
  | .builtInTable _ => "falling back to built-in category table"
  | .skippedCategory _ _ => "skipping schema category"
  | .unreadableItems _ _ => "failed to read item metadata"

/-- The particulars, each under its name. -/
def details : Notice → Fields String
  | .skippedDocument e | .builtInTable e => [("error", e.message)]
  | .emptySchema e => [("error", e.message)]
  | .skippedCategory pattern e => [("error", e.message), ("pattern", pattern)]
  | .unreadableItems path cause => [("path", path), ("error", cause.message)]

end Notice

end JsonAssist
