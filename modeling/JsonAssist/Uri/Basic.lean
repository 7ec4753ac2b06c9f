import JsonAssist.Uri.Host

namespace JsonAssist

/-- A URI. The host is absent if no slashes announce one, and may be empty. -/
structure Uri where
  scheme : String
  user : String
  host : Option String
  port : Option Nat
  path : String
  query : Option String
  fragment : Option String
  deriving DecidableEq, Repr

namespace Uri

/-- What a scheme says about the rest. In all but the last kind a backslash is a slash. -/
inductive Kind where
  | file
  | network (port : Nat)
  | other
  deriving DecidableEq, Repr

def Kind.ofScheme (scheme : List Char) : Kind :=
  match String.ofList scheme with
  | "file" => .file
  | "http" | "ws" => .network 80
  | "https" | "wss" => .network 443
  | "ftp" => .network 21
  | _ => .other

def isControl (c : Char) : Bool := c.toNat < 0x20 || 0x7F ≤ c.toNat

def inFragment (c : Char) : Bool := isControl c || " \"<>`".toList.contains c

def inPath (c : Char) : Bool := inFragment c || "#?\x7b\x7d".toList.contains c

def inUser (c : Char) : Bool := inPath c || "/;=@[\\]^|".toList.contains c

def inQuery (kind : Kind) (c : Char) : Bool :=
  isControl c || " \"#<>".toList.contains c || kind != .other && c == '\''

/-- The text without what surrounds it and without line breaks and tabs. -/
def trimmed (s : List Char) : List Char :=
  let isOuter (c : Char) : Bool := c.toNat ≤ 0x20
  (((s.dropWhile isOuter).reverse.dropWhile isOuter).reverse).filter fun c =>
    !(c == '\t' || c == '\n' || c == '\r')

/-- The scheme and what follows its colon. -/
def scheme? (s : List Char) : Option (List Char × List Char) :=
  let isSchemeChar (c : Char) : Bool := c.isAlphanum || c == '+' || c == '-' || c == '.'
  match s.dropWhile isSchemeChar with
  | ':' :: rest =>
    match s with
    | [] => none
    | c :: _ =>
      if c.isAlpha then some ((s.takeWhile isSchemeChar).map Char.toLower, rest) else none
  | _ => none

/-- Whether a part of a path names a drive. -/
def isDrive : List Char → Bool
  | [c, mark] => c.isAlpha && (mark == ':' || mark == '|')
  | _ => false

def isDot (part : List Char) : Bool := part.map Char.toLower ∈ [".", "%2e"].map String.toList

def isDots (part : List Char) : Bool :=
  part.map Char.toLower ∈ ["..", ".%2e", "%2e.", "%2e%2e"].map String.toList

/-- The parts of a path with the dots worked out; `before` holds those to the left, the nearest
first. A drive is never left upwards. -/
def resolved (file : Bool) (before : List (List Char)) : List (List Char) → List (List Char)
  | [] => before.reverse
  | part :: rest =>
    let upwards := match before with
      | [] => []
      | drive :: above => if file && isDrive drive then before else above
    let before :=
      if isDots part then (if rest.isEmpty then [] :: upwards else upwards)
      else if isDot part then (if rest.isEmpty then [] :: before else before)
      else if file && isDrive part then (part.take 1 ++ [':']) :: before
      else Percent.encode inPath part :: before
    resolved file before rest

/-- The normal form of a path that begins with a slash; without one it is put there. -/
def normalPath (kind : Kind) (s : List Char) : List Char :=
  if s.isEmpty && kind == .other then []
  else
    let behind := if s.head? = some '/' then s.tail else s
    let path := ['/'].intercalate (resolved (kind == .file) [] (splitOn '/' behind))
    '/' :: if kind == .file then path.dropWhile (· == '/') else path

/-- The port behind the host; that of the scheme is left out. -/
def portNumber (kind : Kind) (s : List Char) : Except UriError (Option Nat) :=
  if s.isEmpty then .ok none
  else if !s.all Char.isDigit then .error .badPort
  else match digits 10 s with
    | some n =>
      if 65535 < n then .error .badPort
      else .ok (if kind = .network n then none else some n)
    | none => .error .badPort

/-- The host before a colon that stands outside of brackets, and what follows that colon. -/
def hostPart (inside : Bool) : List Char → List Char × Option (List Char)
  | [] => ([], none)
  | c :: rest =>
    if c = ':' && !inside then ([], some rest)
    else
      let inside := if c = '[' then true else if c = ']' then false else inside
      let (host, port) := hostPart inside rest
      (c :: host, port)

/-- The user, the host and the port between the slashes and the path. -/
def authority (kind : Kind) (s : List Char) :
    Except UriError (List Char × List Char × Option Nat) := do
  let behind := (s.reverse.takeWhile (· != '@')).reverse
  let user := if s.contains '@' then s.take (s.length - behind.length - 1) else []
  let (name, portText) := hostPart false behind
  let host ←
    if name.isEmpty then
      if kind != .other || portText.isSome || s.contains '@' then .error .emptyHost else .ok []
    else if kind = .other then plainHost name
    else networkHost name
  return (Percent.encode inUser user, host, ← portNumber kind (portText.getD []))

/-- The URI that a text stands for. -/
def ofText (text : String) : Except UriError Uri := do
  match scheme? (trimmed text.toList) with
  | none => .error .noScheme
  | some (scheme, rest) =>
    let kind := Kind.ofScheme scheme
    let (rest, fragment) := cutAt '#' rest
    let (rest, query) := cutAt '?' rest
    let rest := if kind = .other then rest else rest.map fun c => if c = '\\' then '/' else c
    let make (user : List Char) (host : Option (List Char)) (port : Option Nat)
        (path : List Char) : Uri :=
      { scheme := String.ofList scheme
        user := String.ofList user
        host := host.map String.ofList
        port
        path := String.ofList path
        query := query.map fun q => String.ofList (Percent.encode (inQuery kind) q)
        fragment := fragment.map fun f => String.ofList (Percent.encode inFragment f) }
    let withAuthority (after : List Char) : Except UriError Uri := do
      let (user, host, port) ← authority kind (after.takeWhile (· != '/'))
      return make user (some host) port (normalPath kind (after.dropWhile (· != '/')))
    match kind, rest with
    | .file, '/' :: '/' :: after =>
      let name := after.takeWhile (· != '/')
      if name.isEmpty || isDrive name then return make [] (some []) none (normalPath kind after)
      else
        let host ← networkHost name
        let path := after.dropWhile (· != '/')
        let named := host != "localhost".toList && !(splitOn '/' path).any isDrive
        return make [] (some (if named then host else [])) none (normalPath kind path)
    | .file, rest => return make [] (some []) none (normalPath kind rest)
    | .network _, rest => withAuthority (rest.dropWhile (· == '/'))
    | .other, '/' :: '/' :: after => withAuthority after
    | .other, '/' :: after => return make [] none none (normalPath kind ('/' :: after))
    | .other, rest => return make [] none none (Percent.encode isControl rest)

/-- The path of the file that a URI without a host stands for. -/
def filePath? (uri : Uri) : Option String :=
  let host := uri.host.getD ""
  if host != "" && host != "localhost" || uri.path.toList.head? != some '/' then none
  else
    let path := Percent.chars (Percent.decode uri.path.toList)
    let endsInDrive := 2 < path.length && isDrive (path.drop (path.length - 2))
    some (String.ofList (if endsInDrive then path ++ ['/'] else path))

/-- The path by which the category of a document is found. -/
def documentPath (uri : Uri) : String := uri.filePath?.getD uri.path

end Uri

end JsonAssist
