import JsonAssist.Json.Reader
import JsonAssist.Notice
import JsonAssist.Schema.Observe

namespace JsonAssist

structure Corpus where
  documents : List Value
  notices : List Notice

namespace Corpus

def isJsonName (name : String) : Bool := ".json".toList.isSuffixOf name.toList

/-- The names that lead to each JSON file among the entries of a folder and below them, behind the
`names` that lead to the folder at `place`. Links are followed as far as a path may lead through
them. -/
def fileNames (files : Files) (links : Nat) (names place : List String) :
    List (String × Entry) → List (List String)
  | [] => []
  | (name, entry) :: rest =>
    let names' := names ++ [name]
    let own := if isJsonName name then [names'] else []
    let found := match entry with
      | .file _ => own
      | .folder entries => fileNames files links names' (place ++ [name]) entries
      | .link target =>
        match links with
        | 0 => []
        | links + 1 =>
          let start := if PathText.isAbsolute target then [] else place
          match walked : files.walk links (PathText.parts target) start with
          | .error _ => []
          | .ok (place', left) =>
            have := Files.links_le_of_walk walked
            match files.entry? place' with
            | some (.folder entries) => fileNames files left names' place' entries
            | some (.file _) => own
            | _ => []
    found ++ fileNames files links names place rest
termination_by entries => (links, sizeOf entries)

/-- The path of a name in a folder; the current folder is left out. -/
def named (folder name : String) : String :=
  if folder = "." then name else PathText.join folder name

/-- How the paths of the files below a folder begin. Runs of slashes become one and the dots at the
start are left out, but an empty name behind such dots leads nowhere. -/
def base? (root : String) : Option String :=
  (PathText.parts root).foldlM
    (fun folder part =>
      if folder = "." && part = "" then none else some (named folder part))
    (if PathText.isAbsolute root then "/" else ".")

/-- Whether one list of names comes before another or is the same, name by name. -/
def inOrder (a b : List String) : Bool := !b.lex a fun x y => x < y

/-- The paths of the JSON files below a folder, in order. -/
def paths (files : Files) (root : String) : List String :=
  match base? root, files.locate root with
  | some base, .ok (place, links) =>
    match files.entry? place with
    | some (.folder entries) =>
      ((fileNames files links [] place entries).mergeSort inOrder).map fun names =>
        names.foldl named base
    | _ => []
  | _, _ => []

/-- The corpus below a folder: the documents that load, in the order of their paths, and a notice about each other file.
Since every folder of a tree can be listed, there is no notice about folders. -/
def read (files : Files) (root : String) : Except MissingFolder Corpus :=
  if files.isFolder root then
    let loaded := (paths files root).map (files.load Value.load)
    .ok {
      documents := loaded.filterMap Except.toOption
      notices := loaded.filterMap fun r => match r with
        | .ok _ => none
        | .error e => some (.skippedDocument e) }
  else .error ⟨root⟩

/-- The forest of a corpus. -/
def forest (corpus : Corpus) : Forest := Forest.build corpus.documents

end Corpus

end JsonAssist
