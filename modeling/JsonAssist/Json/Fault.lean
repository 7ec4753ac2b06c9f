import JsonAssist.Json.Shortest
import JsonAssist.Text.Quoted

namespace JsonAssist

/-- What stood where something else was expected. -/
inductive Found where
  | null
  | boolean (value : Bool)
  | integer (value : Int)
  | floating (value : Double)
  | string (value : String)
  | sequence
  | map
  deriving DecidableEq, Repr

def Found.describe : Found → String
  | .null => "null"
  | .boolean b => "boolean `" ++ toString b ++ "`"
  | .integer i => "integer `" ++ toString i ++ "`"
  | .floating x => "floating point `" ++ String.ofList x.text ++ "`"
  | .string s => "string " ++ Quoted.text s
  | .sequence => "sequence"
  | .map => "map"

/-- The reason for which reading stopped. -/
inductive Cause where
  | eofInValue
  | eofInString
  | eofInObject
  | eofInList
  | expectedValue
  | expectedWord
  | expectedColon
  | expectedListEnd
  | expectedObjectEnd
  | keyNotString
  | trailingComma
  | trailingCharacters
  | invalidNumber
  | numberOutOfRange
  | invalidEscape
  | unfinishedSurrogate
  | loneSurrogate
  | controlCharacter
  | tooDeep
  | wrongType (found : Found) (expected : String)
  | wrongLength (length : Nat) (expected : String)
  | missingField (name : String)
  | duplicateField (name : String)
  | unknownField (name : String) (known : List String)
  | unknownVariant (name : String) (known : List String)
  deriving DecidableEq, Repr

/-- The known names in backquotes: two joined by "or", more of them listed. -/
def oneOf (known : List String) : String :=
  let quoted := known.map fun name => "`" ++ name ++ "`"
  match quoted with
  | [a] => a
  | [a, b] => a ++ " or " ++ b
  | names => "one of " ++ ", ".intercalate names

def Cause.describe : Cause → String
  | .eofInValue => "EOF while parsing a value"
  | .eofInString => "EOF while parsing a string"
  | .eofInObject => "EOF while parsing an object"
  | .eofInList => "EOF while parsing a list"
  | .expectedValue => "expected value"
  | .expectedWord => "expected ident"
  | .expectedColon => "expected `:`"
  | .expectedListEnd => "expected `,` or `]`"
  | .expectedObjectEnd => "expected `,` or `\x7d`"
  | .keyNotString => "key must be a string"
  | .trailingComma => "trailing comma"
  | .trailingCharacters => "trailing characters"
  | .invalidNumber => "invalid number"
  | .numberOutOfRange => "number out of range"
  | .invalidEscape => "invalid escape"
  | .unfinishedSurrogate => "unexpected end of hex escape"
  | .loneSurrogate => "lone leading surrogate in hex escape"
  | .controlCharacter => "control character (\\u0000-\\u001F) found while parsing a string"
  | .tooDeep => "recursion limit exceeded"
  | .wrongType found expected => "invalid type: " ++ found.describe ++ ", expected " ++ expected
  | .wrongLength length expected =>
    "invalid length " ++ toString length ++ ", expected " ++ expected
  | .missingField name => "missing field `" ++ name ++ "`"
  | .duplicateField name => "duplicate field `" ++ name ++ "`"
  | .unknownField name known => "unknown field `" ++ name ++ "`, expected " ++ oneOf known
  | .unknownVariant name known => "unknown variant `" ++ name ++ "`, expected " ++ oneOf known

/-- One step towards the value that was being read. `unknown` stands for a member whose name was
not read yet. -/
inductive Segment where
  | key (name : String)
  | index (position : Nat)
  | unknown
  deriving DecidableEq, Repr

def Segment.text : Segment → String
  | .key name => name
  | .index i => "[" ++ toString i ++ "]"
  | .unknown => "?"

/-- The segments after a first one, each name behind a dot. -/
def Segment.tailText : List Segment → String
  | [] => ""
  | .index i :: rest => Segment.text (.index i) ++ tailText rest
  | segment :: rest => "." ++ segment.text ++ tailText rest

/-- The written form of a path; the root is a dot. -/
def Segment.pathText : List Segment → String
  | [] => "."
  | first :: rest => first.text ++ tailText rest

/-- A stop while reading: the cause, the bytes of the text that were left unread, and the path from
the value being read down to the one at fault. -/
structure Fault where
  cause : Cause
  unread : Nat
  path : List Segment
  deriving DecidableEq, Repr

/-- A place in a text: lines count from one, columns are the bytes since the last line break. -/
structure Location where
  line : Nat
  column : Nat
  deriving DecidableEq, Repr

/-- The place after the first `bytes` bytes. -/
def Location.after : (bytes : Nat) → List Char → Location → Location
  | _, [], here => here
  | 0, _, here => here
  | bytes + 1, c :: rest, here =>
    if c = '\n' then Location.after bytes rest ⟨here.line + 1, 0⟩
    else
      let size := min c.utf8Size (bytes + 1)
      Location.after (bytes + 1 - size) rest ⟨here.line, here.column + size⟩

/-- A text that did not load. -/
structure LoadError where
  cause : Cause
  path : List Segment
  location : Location
  deriving DecidableEq, Repr

namespace LoadError

def pathText (e : LoadError) : String := Segment.pathText e.path

/-- What went wrong and where, without the path. -/
def detail (e : LoadError) : String :=
  e.cause.describe ++ " at line " ++ toString e.location.line ++ " column " ++
    toString e.location.column

/-- The whole sentence about a text that came from `origin`. -/
def message (e : LoadError) (origin : String) : String :=
  "failed to parse " ++ origin ++ " at JSON path " ++ e.pathText ++ " → " ++ e.detail

end LoadError

end JsonAssist
