import JsonAssist.Files.Change

namespace JsonAssist

namespace Disk

/-- The path of a place. -/
def pathOf (place : List String) : String := "/" ++ "/".intercalate place

/-- What the disk gives about a place, if it gives anything. If it does not the user is told. -/
def attempt {α : Type} (place : List String) (read : IO α) : IO (Option α) := do
  try return some (← read)
  catch cause =>
    IO.eprintln ("WARN skipping unreadable entry error=" ++ toString cause ++ " path=" ++ pathOf place)
    return none

/-- Takes in the entry at a place and all that is below it; of a link also what it points to. A file that cannot be read
is left out, and a folder that cannot be listed stays empty. -/
partial def take (files : Files) (place : List String) : IO Files := do
  let path := (← IO.currentDir) / pathOf place
  let some data ← attempt place path.symlinkMetadata | return files
  match data.type with
  | .file =>
    let some content ← attempt place (IO.FS.readBinFile path) | return files
    return files.put place (.file content)
  | .dir =>
    let mut files := match files.entry? place with
      | some (.folder _) => files
      | _ => files.put place (.folder [])
    for child in (← attempt place path.readDir).getD #[] do
      files ← take files (place ++ [child.fileName])
    return files
  | .symlink =>
    if (files.entry? place).isSome then return files
    else
      try
        let target := (← IO.FS.realPath path).toString
        follow (files.put place (.link target)) (PathText.parts target) []
      catch _ => return files.put place (.link "/")
  | .other => return files
where
  /-- Takes in what the parts of a path lead to, and the folders and links on the way. -/
  follow (files : Files) (parts place : List String) : IO Files := do
    match parts with
    | [] => take files place
    | part :: rest =>
      if part = "" || part = "." then follow files rest place
      else if part = ".." then follow files rest place.dropLast
      else
        let place := place ++ [part]
        let path := (← IO.currentDir) / pathOf place
        match ← (some <$> path.symlinkMetadata) <|> pure none with
        | none => return files
        | some data =>
          match data.type with
          | .dir =>
            let files := match files.entry? place with
              | some (.folder _) => files
              | _ => files.put place (.folder [])
            follow files rest place
          | .symlink =>
            let files ← take files place
            let target ← (some <$> IO.FS.realPath path) <|> pure none
            match target with
            | some target => follow files rest (PathText.parts target.toString)
            | none => return files
          | _ => take files place

/-- A tree of nothing but the current folder of the process. -/
def here : IO Files := do
  let path := (← IO.currentDir).toString
  return (Files.createFolders ⟨[], PathText.parts path⟩ path).1

/-- Takes in what a path leads to. -/
def look (files : Files) (path : String) : IO Files :=
  take.follow files (PathText.parts path) (files.origin path)

end Disk

end JsonAssist
