import JsonAssist.Json.Reader

namespace JsonAssist

namespace Reader

inductive Bracket where
  | list
  | object
  deriving DecidableEq, Repr

namespace Bracket

def closer : Bracket → Char
  | .list => ']'
  | .object => '\x7d'

def eof : Bracket → Cause
  | .list => .eofInList
  | .object => .eofInObject

def expectedEnd : Bracket → Cause
  | .list => .expectedListEnd
  | .object => .expectedObjectEnd

end Bracket

/-- How many characters an escape takes after its backslash. -/
def escapeLength : List Char → Except Fault Nat
  | [] => fault .eofInString 0
  | c :: rest =>
    if c ∈ ['"', '\\', '/', 'b', 'f', 'n', 'r', 't'] then .ok 1
    else if c = 'u' then (fourHex rest).map fun _ => 5
    else fault .invalidEscape (byteLength (c :: rest) - 1)

/-- The text after the closing quote. -/
def afterString : (skip : Nat) → List Char → Except Fault (List Char)
  | _, [] => fault .eofInString 0
  | skip + 1, _ :: rest => afterString skip rest
  | 0, c :: rest =>
    if c = '"' then .ok rest
    else if c = '\\' then
      match escapeLength rest with
      | .error e => .error e
      | .ok n => afterString n rest
    else if c.toNat < 32 then fault .controlCharacter (byteLength (c :: rest))
    else afterString 0 rest

def skipString : Reader Unit := do
  drop
  fun s => (afterString 0 s).map fun rest => ((), rest)

def skipExponent : Reader Unit := do
  let s := match ← look with
    | '+' :: rest => rest
    | '-' :: rest => rest
    | rest => rest
  moveTo s
  if startsWithDigit s then moveTo (skipDigits s)
  else if s.isEmpty then fail .invalidNumber
  else failPast .invalidNumber

def skipNumberTail : Reader Unit := do
  match ← look with
  | c :: rest => if c = 'e' ∨ c = 'E' then do moveTo rest; skipExponent else pure ()
  | [] => pure ()

/-- A number after its sign. -/
def skipNumber : Reader Unit := do
  match ← look with
  | [] => fail .invalidNumber
  | c :: rest =>
    if ¬ c.isDigit then failPast .invalidNumber
    else if c = '0' ∧ startsWithDigit rest then do moveTo rest; failPast .invalidNumber
    else do
      moveTo (skipDigits rest)
      match ← look with
      | '.' :: fraction => do
        moveTo (skipDigits fraction)
        if startsWithDigit fraction then skipNumberTail else failPast .invalidNumber
      | _ => skipNumberTail

/-- A scalar, or the bracket that opens a list or an object. -/
def skipHead : Reader (Option Bracket) := do
  match ← peek with
  | none => fail .eofInValue
  | some c =>
    if c = 'n' then do drop; word ['u', 'l', 'l']; pure none
    else if c = 't' then do drop; word ['r', 'u', 'e']; pure none
    else if c = 'f' then do drop; word ['a', 'l', 's', 'e']; pure none
    else if c = '-' then do drop; skipNumber; pure none
    else if c.isDigit then do skipNumber; pure none
    else if c = '"' then do skipString; pure none
    else if c = '[' then do drop; pure (some .list)
    else if c = '\x7b' then do drop; pure (some .object)
    else failPast .expectedValue

/-- What stands before a value inside the bracket: a name and a colon in an object. -/
def skipLabel : Bracket → Reader Unit
  | .list => pure ()
  | .object => do
    match ← peek with
    | none => fail .eofInObject
    | some c =>
      if c = '"' then do skipString; colon
      else failPast .keyNotString

/-- Moves to the next value inside the innermost bracket, closing brackets on the way. The brackets
still open are returned; none are left when the whole value is done. -/
def nextInside : (afterValue : Bool) → List Bracket → Reader (List Bracket)
  | _, [] => pure []
  | afterValue, b :: outer => do
    match ← peek with
    | none => fail b.eof
    | some c =>
      if afterValue ∧ c = ',' then do drop; skipLabel b; pure (b :: outer)
      else if c = b.closer then do drop; nextInside true outer
      else if afterValue then failPast b.expectedEnd
      else do skipLabel b; pure (b :: outer)

/-- Passes over a value inside the given brackets and all that they still hold. Each round takes at
least one character. -/
def skipFrom : (fuel : Nat) → List Bracket → Reader Unit
  | 0, _ => pure ()
  | fuel + 1, brackets => do
    let brackets ← match ← skipHead with
      | some b => nextInside false (b :: brackets)
      | none => nextInside true brackets
    if brackets.isEmpty then pure () else skipFrom fuel brackets

/-- Passes over one value. It is checked more loosely than one that is read: nesting has no limit, and the halves of a
surrogate pair may stand alone. -/
def skipValue : Reader Unit := do
  skipFrom ((← look).length + 1) []

end Reader

end JsonAssist
