import JsonAssist.Files.Entry

namespace JsonAssist

namespace Project

/-- What has been seen of a project so far. -/
structure Signs where
  manifest : Bool
  contents : Bool
  deriving DecidableEq, Repr

/-- The state of a search: decided, or going on with what was seen. -/
inductive Search where
  | found
  | seeking (seen : Signs)
  deriving DecidableEq, Repr

/-- Folders that are not looked into, nor seen at all. -/
def isExcluded (name : String) : Entry → Bool
  | .folder _ => name == "node_modules" || name == ".git"
  | _ => false

/-- What an entry adds to the signs. -/
def Signs.see (seen : Signs) (name : String) : Entry → Signs
  | .file _ => { seen with manifest := seen.manifest || name == "manifest.json" }
  | .folder _ => { seen with contents := seen.contents || name == "Common" || name == "Server" }
  | .link _ => seen

/-- Looks at an entry itself. -/
def Signs.look (seen : Signs) (name : String) (entry : Entry) : Search :=
  if name = ".hytale" then .found
  else
    let seen := seen.see name entry
    if seen.manifest && seen.contents then .found else .seeking seen

mutual

/-- Goes through an entry and what is below it, links not followed, up to the decision. -/
def searchEntry (seen : Signs) (name : String) : Entry → Search
  | .folder entries =>
    if isExcluded name (.folder entries) then .seeking seen
    else match seen.look name (.folder entries) with
      | .found => .found
      | .seeking seen => search seen entries
  | .file content => seen.look name (.file content)
  | .link target => seen.look name (.link target)

def search (seen : Signs) : List (String × Entry) → Search
  | [] => .seeking seen
  | (name, entry) :: rest =>
    match searchEntry seen name entry with
    | .found => .found
    | .seeking seen => search seen rest

end

end Project

/-- Whether the workspace at a path is a project. -/
def isProject (files : Files) (workspace : String) : Bool :=
  match files.find workspace with
  | .ok (.folder entries) => Project.search ⟨false, false⟩ entries == .found
  | _ => false

end JsonAssist
