import JsonAssist.Text.Split

namespace JsonAssist

namespace PathText

def isAbsolute (path : String) : Bool := path.toList.head? == some '/'

/-- The parts of a path behind the slash that makes it absolute. -/
def parts (path : String) : List String :=
  let behind := if isAbsolute path then path.toList.tail else path.toList
  (splitOn '/' behind).map String.ofList

/-- The path of `name` as seen from `folder`; an absolute one stays as it is. -/
def join (folder name : String) : String :=
  if isAbsolute name || folder == "" then name
  else if folder.toList.getLast? = some '/' then folder ++ name
  else folder ++ "/" ++ name

/-- What precedes the names of a path, the slash of an absolute one or a dot, and the rest. -/
def start : List Char → List Char × List Char
  | '/' :: rest => (['/'], rest)
  | ['.'] => (['.'], [])
  | '.' :: '/' :: rest => (['.'], '/' :: rest)
  | path => ([], path)

/-- Whether a part of a path leads nowhere: an empty name, or a single dot behind the start. -/
def isVoid (part : List Char) : Bool := part == [] || part == ['.']

/-- The path of the folder in which the last name of a path stands. -/
def parent? (path : String) : Option String :=
  let (front, body) := start path.toList
  match (splitOn '/' body).reverse.dropWhile isVoid with
  | _ :: before =>
    some (String.ofList (front ++ ['/'].intercalate (before.dropWhile isVoid).reverse))
  | [] => if front = ['.'] then some "" else none

/-- A name without what follows its last dot; a dot at the start of a name is part of it. -/
def withoutEnding (name : List Char) : List Char :=
  match name.reverse.dropWhile (· != '.') with
  | [] => name
  | [_] => name
  | _ :: before => before.reverse

/-- The last name of a path without its ending; none if the path does not end in a name. -/
def stem? (path : String) : Option String :=
  match (splitOn '/' (start path.toList).2).reverse.dropWhile isVoid with
  | [] => none
  | name :: _ => if name = ['.', '.'] then none else some (String.ofList (withoutEnding name))

end PathText

end JsonAssist
