import JsonAssist.Files.Entry

namespace JsonAssist

/-- Puts an entry at a place below an entry; nothing changes unless folders lead there. -/
def Entry.put (new : Entry) : Entry → List String → Entry
  | _, [] => new
  | .folder entries, name :: rest =>
    match rest with
    | [] => .folder (Fields.insert entries name new)
    | _ => match Fields.get? entries name with
      | some below => .folder (Fields.insert entries name (new.put below rest))
      | none => .folder entries
  | old, _ :: _ => old

namespace Files

def put (files : Files) (place : List String) (new : Entry) : Files :=
  match new.put (.folder files.entries) place with
  | .folder entries => { files with entries }
  | _ => files

/-- The place of the folder that the parts before the last one lead to. -/
def folderBefore (files : Files) (links : Nat) (parts place : List String) :
    Except FileError (List String × Nat) :=
  files.walk links (parts.dropLast ++ [""]) place

/-- Makes one folder. The folder in which it stands must be there, and its name must be free. -/
def createFolder (files : Files) (path : String) : Except FileError Files := do
  if path.toList.contains '\x00' then .error .nulInName
  else if path = "" then .error .notFound
  else
    let parts := ((PathText.parts path).reverse.dropWhile (· == "")).reverse
    let (place, _) ← files.folderBefore linkLimit parts (files.origin path)
    match parts.getLast? with
    | none => .error .alreadyThere
    | some name =>
      if name = "." || name = ".." then .error .alreadyThere
      else if nameLimit < name.utf8ByteSize then .error .nameTooLong
      else match files.entry? (place ++ [name]) with
        | some _ => .error .alreadyThere
        | none => .ok (files.put (place ++ [name]) (.folder []))

/-- A path, the path of the folder it stands in, and so on. -/
def ancestors (path : String) : List String := go path.length path
where
  go : Nat → String → List String
    | 0, _ => []
    | fuel + 1, path =>
      match PathText.parent? path with
      | some parent => path :: go fuel parent
      | none => [path]

/-- Makes the first of some folders, of which each stands in the next, and those above it that are
missing. One that is there already, or that a link leads to, is no failure; folders made before a
failure stay. -/
def createAll (files : Files) : List String → Files × Option FileError
  | [] => (files, none)
  | path :: above =>
    match files.createFolder path with
    | .ok files => (files, none)
    | .error .notFound =>
      match files.createAll above with
      | (files, some e) => (files, some e)
      | (files, none) =>
        match files.createFolder path with
        | .ok files => (files, none)
        | .error e => (files, unlessFolder files path e)
    | .error e => (files, unlessFolder files path e)
where
  unlessFolder (files : Files) (path : String) (e : FileError) : Option FileError :=
    if files.isFolder path then none else some e

/-- Makes a folder and those above it that are missing. -/
def createFolders (files : Files) (path : String) : Files × Option FileError :=
  files.createAll (ancestors path)

/-- Writes the file that the parts of a path lead to. A link in the place of the last name is
followed even if nothing stands where it points to. -/
def writeAt (files : Files) (content : ByteArray) : (links : Nat) →
    (parts place : List String) → Except FileError Files
  | links, parts, place =>
    match before : files.folderBefore links parts place with
    | .error e => .error e
    | .ok (place, left) =>
      let name := parts.getLast?.getD ""
      if name = "" || name = "." || name = ".." then .error .isFolder
      else if nameLimit < name.utf8ByteSize then .error .nameTooLong
      else match files.entry? (place ++ [name]) with
        | some (.folder _) => .error .isFolder
        | some (.link target) =>
          match left with
          | 0 => .error .tooManyLinks
          | left + 1 =>
            have := links_le_of_walk before
            writeAt files content left (PathText.parts target)
              (if PathText.isAbsolute target then [] else place)
        | _ => .ok (files.put (place ++ [name]) (.file content))
termination_by links => links

/-- Writes a file, a new one unless it is there. -/
def write (files : Files) (path : String) (content : ByteArray) : Except FileError Files :=
  if path.toList.contains '\x00' then .error .nulInName
  else if path = "" then .error .notFound
  else files.writeAt content linkLimit (PathText.parts path) (files.origin path)

/-- Puts a link, whose name must be free. -/
def createLink (files : Files) (path target : String) : Except FileError Files := do
  let parts := PathText.parts path
  let (place, _) ← files.folderBefore linkLimit parts (files.origin path)
  let place := place ++ [parts.getLast?.getD ""]
  match files.entry? place with
  | some _ => .error .alreadyThere
  | none => .ok (files.put place (.link target))

end Files

end JsonAssist
