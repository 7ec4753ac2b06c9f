import JsonAssist.Files.PathText
import JsonAssist.Json.Fields

namespace JsonAssist

/-- What stands under a name. A link holds the path that it stands for. Every file can be read and every folder listed:
what the system keeps from its users has no place in a tree. -/
inductive Entry where
  | file (content : ByteArray)
  | link (target : String)
  | folder (entries : List (String × Entry))

/-- Why a file or a folder could not be used. -/
inductive FileError where
  | notFound
  | notFolder
  | isFolder
  | alreadyThere
  | tooManyLinks
  | nameTooLong
  | nulInName
  | notText
  deriving DecidableEq, Repr

def FileError.message : FileError → String
  | .notFound => "No such file or directory (os error 2)"
  | .alreadyThere => "File exists (os error 17)"
  | .notFolder => "Not a directory (os error 20)"
  | .isFolder => "Is a directory (os error 21)"
  | .nameTooLong => "File name too long (os error 36)"
  | .tooManyLinks => "Too many levels of symbolic links (os error 40)"
  | .nulInName => "file name contained an unexpected NUL byte"
  | .notText => "stream did not contain valid UTF-8"

/-- A tree of files with the folder that relative paths begin at. A place in it is given by the
names that lead there from the root, links not followed. -/
structure Files where
  entries : List (String × Entry)
  here : List String

/-- The entry at a place below an entry. -/
def Entry.at? : Entry → List String → Option Entry
  | e, [] => some e
  | .folder entries, name :: rest => (Fields.get? entries name).bind fun e => e.at? rest
  | _, _ :: _ => none

namespace Files

def entry? (files : Files) (place : List String) : Option Entry :=
  (Entry.folder files.entries).at? place

/-- The place that a path begins at. -/
def origin (files : Files) (path : String) : List String :=
  if PathText.isAbsolute path then [] else files.here

/-- The most bytes that a name may take. -/
def nameLimit : Nat := 255

/-- The most links that a path may lead through. -/
def linkLimit : Nat := 40

/-- Follows the parts of a path from a place, and says how many links may still follow. -/
def walk (files : Files) : (links : Nat) → (parts place : List String) →
    Except FileError (List String × Nat)
  | links, [], place => .ok (place, links)
  | links, part :: rest, place =>
    match files.entry? place with
    | some (.folder entries) =>
      if part = "" || part = "." then walk files links rest place
      else if part = ".." then walk files links rest place.dropLast
      else if nameLimit < part.utf8ByteSize then .error .nameTooLong
      else match Fields.get? entries part with
        | none => .error .notFound
        | some (.link target) =>
          match links with
          | 0 => .error .tooManyLinks
          | links + 1 =>
            walk files links (PathText.parts target ++ rest)
              (if PathText.isAbsolute target then [] else place)
        | some _ => walk files links rest (place ++ [part])
    | _ => .error .notFolder
termination_by links parts => (links, parts.length)

theorem links_le_of_walk {files : Files} {links left : Nat} {parts place found : List String}
    (walked : files.walk links parts place = .ok (found, left)) : left ≤ links := by
  fun_induction walk files links parts place <;> grind

/-- The place that a path leads to, and how many links may still follow. -/
def locate (files : Files) (path : String) : Except FileError (List String × Nat) :=
  if path.toList.contains '\x00' then .error .nulInName
  else if path = "" then .error .notFound
  else files.walk linkLimit (PathText.parts path) (files.origin path)

/-- The entry that a path leads to. It is never a link. -/
def find (files : Files) (path : String) : Except FileError Entry := do
  let (place, _) ← files.locate path
  match files.entry? place with
  | some e => .ok e
  | none => .error .notFound

def isFolder (files : Files) (path : String) : Bool :=
  match files.find path with
  | .ok (.folder _) => true
  | _ => false

def isFile (files : Files) (path : String) : Bool :=
  match files.find path with
  | .ok (.file _) => true
  | _ => false

/-- The text in the file that a path leads to. -/
def readText (files : Files) (path : String) : Except FileError String := do
  match ← files.find path with
  | .file content =>
    match String.fromUTF8? content with
    | some text => .ok text
    | none => .error .notText
  | _ => .error .isFolder

end Files

end JsonAssist
