import JsonAssist.Json.Value
import JsonAssist.Json.Shortest

namespace JsonAssist

def hexDigit (n : Nat) : Char := Nat.digitChar n

/-- The text of one character inside a JSON string. -/
def escapeChar (c : Char) : List Char :=
  if c = '"' then ['\\', '"']
  else if c = '\\' then ['\\', '\\']
  else if c = '\n' then ['\\', 'n']
  else if c = '\r' then ['\\', 'r']
  else if c = '\t' then ['\\', 't']
  else if c.toNat = 8 then ['\\', 'b']
  else if c.toNat = 12 then ['\\', 'f']
  else if c.toNat < 32 then
    ['\\', 'u', '0', '0', hexDigit (c.toNat / 16), hexDigit (c.toNat % 16)]
  else [c]

/-- A JSON string literal. -/
def quoteChars (s : List Char) : List Char := '"' :: s.flatMap escapeChar ++ ['"']

def Number.chars : Number → List Char
  | .integer i => (toString i).toList
  | .real x => x.text

namespace Value

mutual

/-- The compact text, as characters. -/
def chars : Value → List Char
  | .null => "null".toList
  | .boolean true => "true".toList
  | .boolean false => "false".toList
  | .number n => n.chars
  | .string s => quoteChars s.toList
  | .array [] => ['[', ']']
  | .array (x :: xs) => '[' :: chars x ++ elementChars xs ++ [']']
  | .object [] => ['{', '}']
  | .object ((name, v) :: rest) =>
    '{' :: quoteChars name.toList ++ ':' :: chars v ++ memberChars rest ++ ['}']

def elementChars : List Value → List Char
  | [] => []
  | x :: xs => ',' :: chars x ++ elementChars xs

def memberChars : List (String × Value) → List Char
  | [] => []
  | (name, v) :: rest => ',' :: quoteChars name.toList ++ ':' :: chars v ++ memberChars rest

end

/-- The compact text of a value. -/
def compact (v : Value) : String := String.ofList v.chars

/-- A line break and the blanks of a level. -/
def newLine (level : Nat) : List Char := '\n' :: List.replicate (2 * level) ' '

mutual

/-- The text over several lines of a value that stands at `level`, as characters. -/
def prettyChars (level : Nat) : Value → List Char
  | .array (x :: xs) =>
    '[' :: newLine (level + 1) ++ prettyChars (level + 1) x ++ prettyElements level xs ++
      newLine level ++ [']']
  | .object ((name, v) :: rest) =>
    '{' :: newLine (level + 1) ++ quoteChars name.toList ++ ':' :: ' ' ::
      prettyChars (level + 1) v ++ prettyMembers level rest ++ newLine level ++ ['}']
  | .null => "null".toList
  | .boolean true => "true".toList
  | .boolean false => "false".toList
  | .number n => n.chars
  | .string s => quoteChars s.toList
  | .array [] => ['[', ']']
  | .object [] => ['{', '}']

def prettyElements (level : Nat) : List Value → List Char
  | [] => []
  | x :: xs =>
    ',' :: newLine (level + 1) ++ prettyChars (level + 1) x ++ prettyElements level xs

def prettyMembers (level : Nat) : List (String × Value) → List Char
  | [] => []
  | (name, v) :: rest =>
    ',' :: newLine (level + 1) ++ quoteChars name.toList ++ ':' :: ' ' ::
      prettyChars (level + 1) v ++ prettyMembers level rest

end

/-- The text of a value over several lines. -/
def pretty (v : Value) : String := String.ofList (v.prettyChars 0)

end Value

end JsonAssist
