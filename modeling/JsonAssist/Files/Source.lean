import JsonAssist.Files.Entry
import JsonAssist.Json.Fault

namespace JsonAssist

/-- Why nothing could be loaded from the file at a path. -/
inductive SourceError where
  | unreadable (path : String) (cause : FileError)
  | malformed (path : String) (cause : LoadError)
  deriving DecidableEq, Repr

def SourceError.message : SourceError → String
  | .unreadable path cause => "failed to read " ++ path ++ ": " ++ cause.message
  | .malformed path cause => cause.message path

/-- What `load` makes of the text in a file. -/
def Files.load {α : Type} (files : Files) (load : String → Except LoadError α) (path : String) :
    Except SourceError α :=
  match files.readText path with
  | .error cause => .error (.unreadable path cause)
  | .ok text =>
    match load text with
    | .error cause => .error (.malformed path cause)
    | .ok x => .ok x

end JsonAssist
