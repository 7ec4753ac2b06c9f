import JsonAssist.Json.Value
import JsonAssist.Json.Fault
import JsonAssist.Text.Bytes

namespace JsonAssist

/-- Takes a value off the front of a text, or stops. What is behind the value is handed back, and nothing is said about
it. -/
def Reader (α : Type) := List Char → Except Fault (α × List Char)

namespace Reader

variable {α β : Type}

instance : Monad Reader where
  pure x := fun s => .ok (x, s)
  bind r f := fun s =>
    match r s with
    | .ok (x, rest) => f x rest
    | .error e => .error e

/-- Stops here. -/
def fail (cause : Cause) : Reader α := fun s => .error ⟨cause, byteLength s, []⟩

/-- Stops one byte further on, so that the place names the byte that was looked at. -/
def failPast (cause : Cause) : Reader α := fun s => .error ⟨cause, byteLength s - 1, []⟩

/-- The text left to read. -/
def look : Reader (List Char) := fun s => .ok (s, s)

/-- Continues with another text. -/
def moveTo (rest : List Char) : Reader Unit := fun _ => .ok ((), rest)

/-- Notes in a fault of `r` that `r` was reading the value behind `segment`. -/
def within (segment : Segment) (r : Reader α) : Reader α := fun s =>
  match r s with
  | .ok done => .ok done
  | .error e => .error { e with path := segment :: e.path }

def isBlank (c : Char) : Bool := c == ' ' || c == '\n' || c == '\t' || c == '\r'

/-- The first character that is no blank, left in place. -/
def peek : Reader (Option Char) := fun s =>
  let rest := s.dropWhile isBlank
  .ok (rest.head?, rest)

def drop : Reader Unit := fun s => .ok ((), s.tail)

/-- The remaining letters of a word. -/
def word : List Char → Reader Unit
  | [] => pure ()
  | c :: more => do
    match ← look with
    | [] => fail .eofInValue
    | d :: rest => if c = d then do moveTo rest; word more else failPast .expectedWord

def hexValue (c : Char) : Option Nat :=
  if '0' ≤ c ∧ c ≤ '9' then some (c.toNat - '0'.toNat)
  else if 'a' ≤ c ∧ c ≤ 'f' then some (c.toNat - 'a'.toNat + 10)
  else if 'A' ≤ c ∧ c ≤ 'F' then some (c.toNat - 'A'.toNat + 10)
  else none

def fault (cause : Cause) (unread : Nat) : Except Fault α := .error ⟨cause, unread, []⟩

/-- The number written by the next four bytes. -/
def fourHex (s : List Char) : Except Fault Nat :=
  if byteLength s < 4 then fault .eofInString 0
  else
    match s with
    | a :: b :: c :: d :: _ =>
      match hexValue a, hexValue b, hexValue c, hexValue d with
      | some p, some q, some r, some t => .ok (((p * 16 + q) * 16 + r) * 16 + t)
      | _, _, _, _ => fault .invalidEscape (byteLength s - 4)
    | _ => fault .invalidEscape (byteLength s - 4)

/-- The character written after a backslash and `u`, and how many characters write it. A leading
surrogate needs the escape of a trailing one right behind it. -/
def unicodeEscape (s : List Char) : Except Fault (Char × Nat) := do
  let n ← fourHex s
  let rest := s.drop 4
  if 0xDC00 ≤ n ∧ n ≤ 0xDFFF then fault .loneSurrogate (byteLength rest)
  else if n < 0xD800 ∨ 0xDBFF < n then .ok (Char.ofNat n, 4)
  else
    match rest with
    | [] => fault .eofInString 0
    | '\\' :: [] => fault .eofInString 0
    | '\\' :: 'u' :: low => do
      let m ← fourHex low
      if m < 0xDC00 ∨ 0xDFFF < m then fault .loneSurrogate (byteLength (low.drop 4))
      else .ok (Char.ofNat ((n - 0xD800) * 0x400 + (m - 0xDC00) + 0x10000), 10)
    | '\\' :: other => fault .unfinishedSurrogate (byteLength other - 1)
    | other => fault .unfinishedSurrogate (byteLength other - 1)

/-- The character written after a backslash, and how many characters write it. -/
def escape : List Char → Except Fault (Char × Nat)
  | [] => fault .eofInString 0
  | c :: rest =>
    if c = '"' ∨ c = '\\' ∨ c = '/' then .ok (c, 1)
    else if c = 'b' then .ok (Char.ofNat 8, 1)
    else if c = 'f' then .ok (Char.ofNat 12, 1)
    else if c = 'n' then .ok ('\n', 1)
    else if c = 'r' then .ok ('\r', 1)
    else if c = 't' then .ok ('\t', 1)
    else if c = 'u' then do
      let (x, n) ← unicodeEscape rest
      .ok (x, n + 1)
    else fault .invalidEscape (byteLength (c :: rest) - 1)

/-- The characters up to the closing quote, of which the first `skip` are already accounted for by
an escape. -/
def stringBody : (skip : Nat) → List Char → Except Fault (List Char × List Char)
  | _, [] => fault .eofInString 0
  | skip + 1, _ :: rest => stringBody skip rest
  | 0, c :: rest =>
    if c = '"' then .ok ([], rest)
    else if c = '\\' then
      match escape rest with
      | .error e => .error e
      | .ok (x, n) =>
        match stringBody n rest with
        | .error e => .error e
        | .ok (xs, after) => .ok (x :: xs, after)
    else if c.toNat < 32 then fault .controlCharacter (byteLength rest)
    else
      match stringBody 0 rest with
      | .error e => .error e
      | .ok (xs, after) => .ok (c :: xs, after)

/-- A string whose opening quote comes next. -/
def string : Reader String := do
  drop
  fun s =>
    match stringBody 0 s with
    | .ok (xs, rest) => .ok (String.ofList xs, rest)
    | .error e => .error e

def digitValue (c : Char) : Nat := c.toNat - '0'.toNat

def startsWithDigit : List Char → Bool
  | c :: _ => c.isDigit
  | [] => false

/-- Digits added to `value` as long as the result stays below `bound`; the count of those taken. -/
def takeDigits (bound value taken : Nat) : List Char → Nat × Nat × List Char
  | [] => (value, taken, [])
  | c :: rest =>
    if c.isDigit && value * 10 + digitValue c < bound then
      takeDigits bound (value * 10 + digitValue c) (taken + 1) rest
    else (value, taken, c :: rest)

def skipDigits (s : List Char) : List Char := s.dropWhile Char.isDigit

/-- The number `significand * 10 ^ exponent`. -/
def real (negative : Bool) (significand : Nat) (exponent : Int) : Reader Number := fun s =>
  match Double.ofDecimal negative significand exponent with
  | some x => .ok (.real x, s)
  | none => fail .numberOutOfRange s

/-- What follows an `e`. An exponent too large to count makes a nonzero number overflow at once. -/
def exponentPart (negative : Bool) (significand : Nat) (start : Int) : Reader Number := do
  let (down, s) := match ← look with
    | '+' :: rest => (false, rest)
    | '-' :: rest => (true, rest)
    | rest => (false, rest)
  moveTo s
  match s with
  | [] => fail .eofInValue
  | c :: _ =>
    if c.isDigit then do
      let (power, _, rest) := takeDigits (Nat.pow 2 31) 0 0 s
      if startsWithDigit rest then
        if significand ≠ 0 ∧ ¬ down then do moveTo rest.tail; fail .numberOutOfRange
        else do moveTo (skipDigits rest); pure (.real (.zero negative))
      else do
        moveTo rest
        real negative significand (if down then start - power else start + power)
    else failPast .invalidNumber

/-- An exponent if there is one, else the number as it stands. -/
def realTail (negative : Bool) (significand : Nat) (exponent : Int) : Reader Number := do
  match ← look with
  | c :: rest =>
    if c = 'e' ∨ c = 'E' then do moveTo rest; exponentPart negative significand exponent
    else real negative significand exponent
  | [] => real negative significand exponent

/-- What follows the point. Digits beyond 64 bits are passed over. -/
def fractionPart (negative : Bool) (significand : Nat) (exponent : Int) : Reader Number := do
  let (value, taken, rest) := takeDigits (Nat.pow 2 64) significand 0 (← look)
  moveTo (skipDigits rest)
  if taken = 0 ∧ ¬ startsWithDigit rest then
    if rest.isEmpty then fail .eofInValue else failPast .invalidNumber
  else realTail negative value (exponent - taken)

/-- What follows the integer digits that fit 64 bits. -/
def numberTail (negative : Bool) (significand : Nat) : Reader Number := do
  let s ← look
  let rest := skipDigits s
  let more := s.length - rest.length
  moveTo rest
  match rest with
  | '.' :: fraction => do moveTo fraction; fractionPart negative significand more
  | _ =>
    if more ≠ 0 ∨ rest.head? = some 'e' ∨ rest.head? = some 'E' then
      realTail negative significand more
    else if ¬ negative then pure (.integer significand)
    else if significand = 0 ∨ Nat.pow 2 63 < significand then real true significand 0
    else pure (.integer (-significand))

/-- A number after its sign. -/
def number (negative : Bool) : Reader Number := do
  match ← look with
  | [] => fail .eofInValue
  | c :: rest =>
    if c = '0' then do
      moveTo rest
      if startsWithDigit rest then failPast .invalidNumber else numberTail negative 0
    else if c.isDigit then do
      let (value, _, rest) := takeDigits (Nat.pow 2 64) 0 0 (c :: rest)
      moveTo rest
      numberTail negative value
    else failPast .invalidNumber

/-- Whether another element follows; the comma before it is taken. -/
def nextElement (first : Bool) : Reader Bool := do
  match ← peek with
  | none => fail .eofInList
  | some c =>
    if c = ']' then pure false
    else if first then pure true
    else if c = ',' then do
      drop
      match ← peek with
      | none => fail .eofInValue
      | some d => if d = ']' then failPast .trailingComma else pure true
    else failPast .expectedListEnd

/-- The name of the next member, or none at the closing brace. -/
def nextName (first : Bool) : Reader (Option String) := within .unknown do
  match ← peek with
  | none => fail .eofInObject
  | some c =>
    if c = '\x7d' then pure none
    else if first then
      if c = '"' then some <$> string else failPast .keyNotString
    else if c = ',' then do
      drop
      match ← peek with
      | none => fail .eofInValue
      | some d =>
        if d = '"' then some <$> string
        else if d = '\x7d' then failPast .trailingComma
        else failPast .keyNotString
    else failPast .expectedObjectEnd

def colon : Reader Unit := do
  match ← peek with
  | none => fail .eofInObject
  | some c => if c = ':' then drop else failPast .expectedColon

/-- The closing bracket, or what stands in its place. -/
def closeList : Reader Unit := do
  match ← peek with
  | none => fail .eofInList
  | some c =>
    if c = ']' then drop
    else if c = ',' then do
      drop
      match ← peek with
      | some d => if d = ']' then failPast .trailingComma else failPast .trailingCharacters
      | none => failPast .trailingCharacters
    else failPast .trailingCharacters

/-- Moves past the closing brace if it comes next. -/
def tryCloseObject : Reader Unit := do
  match ← peek with
  | some c => if c = '\x7d' then drop else pure ()
  | none => pure ()

/-- Stops behind the object in which something was wrong, if it ends here. -/
def failAfterObject (cause : Cause) : Reader α := do
  tryCloseObject
  fail cause

/-- The elements up to the closing bracket. Each takes at least one character, so the length of the
text bounds their number. -/
def elementsFrom (item : Reader α) : (fuel index : Nat) → Reader (List α)
  | 0, _ => fail .eofInList
  | fuel + 1, index => do
    if ← nextElement (index == 0) then
      let x ← within (.index index) item
      let xs ← elementsFrom item fuel (index + 1)
      pure (x :: xs)
    else pure []

/-- A list whose opening bracket comes next. -/
def list (item : Reader α) : Reader (List α) := do
  drop
  let elements ← elementsFrom item ((← look).length + 1) 0
  closeList
  pure elements

/-- The members up to the closing brace, folded in order. -/
def membersFrom (step : β → String → Reader β) :
    (fuel : Nat) → (first : Bool) → β → Reader β
  | 0, _, _ => fail .eofInObject
  | fuel + 1, first, state => do
    match ← nextName first with
    | none => pure state
    | some name => do
      let state ← step state name
      membersFrom step fuel false state

/-- An object whose opening brace comes next. -/
def members (step : β → String → Reader β) (start : β) : Reader β := do
  drop
  let state ← membersFrom step ((← look).length + 1) true start
  tryCloseObject
  pure state

/-- The value of the member `name`. -/
def memberValue (name : String) (item : Reader α) : Reader α := do
  colon
  within (.key name) item

/-- An object as fields. -/
def fields (item : Reader α) : Reader (Fields α) :=
  members (fun entries name => do
    let x ← memberValue name item
    pure (Fields.insert entries name x)) []

/-- How many lists and objects may stand inside one another. -/
def nestingLimit : Nat := 127

/-- A value, given what to do at an opening bracket and at an opening brace. -/
def valueWith (onList onObject : Reader Value) : Reader Value := do
  match ← peek with
  | none => fail .eofInValue
  | some c =>
    if c = 'n' then do drop; word ['u', 'l', 'l']; pure .null
    else if c = 't' then do drop; word ['r', 'u', 'e']; pure (.boolean true)
    else if c = 'f' then do drop; word ['a', 'l', 's', 'e']; pure (.boolean false)
    else if c = '-' then do drop; Value.number <$> number true
    else if c.isDigit then Value.number <$> number false
    else if c = '"' then Value.string <$> string
    else if c = '[' then onList
    else if c = '\x7b' then onObject
    else failPast .expectedValue

/-- A value inside which lists and objects nest at most `depth` deep. -/
def value : (depth : Nat) → Reader Value
  | 0 => valueWith (failPast .tooDeep) (failPast .tooDeep)
  | depth + 1 =>
    valueWith (Value.array <$> list (value depth)) (Value.object <$> fields (value depth))

/-- Stops because the value that comes next is not of the expected form. -/
def wrongType (expected : String) : Reader α := do
  match ← peek with
  | none => fail .eofInValue
  | some c =>
    if c = 'n' then do drop; word ['u', 'l', 'l']; fail (.wrongType .null expected)
    else if c = 't' then do
      drop; word ['r', 'u', 'e']; fail (.wrongType (.boolean true) expected)
    else if c = 'f' then do
      drop; word ['a', 'l', 's', 'e']; fail (.wrongType (.boolean false) expected)
    else if c = '-' ∨ c.isDigit then do
      if c = '-' then drop
      match ← number (c = '-') with
      | .integer i => fail (.wrongType (.integer i) expected)
      | .real x => fail (.wrongType (.floating x) expected)
    else if c = '"' then do
      let s ← string
      fail (.wrongType (.string s) expected)
    else if c = '[' then fail (.wrongType .sequence expected)
    else if c = '\x7b' then fail (.wrongType .map expected)
    else failPast .expectedValue

/-- A string, where nothing else will do. -/
def stringOnly (expected : String) : Reader String := do
  match ← peek with
  | some '"' => string
  | _ => wrongType expected

/-- `null`, or what `r` reads. -/
def optional (r : Reader α) : Reader (Option α) := do
  match ← peek with
  | some 'n' => do drop; word ['u', 'l', 'l']; pure none
  | _ => some <$> r

/-- Uses one level of nesting: `r` gets the levels that are left. -/
def nested (depth : Nat) (r : Nat → Reader α) : Reader α :=
  match depth with
  | 0 => failPast .tooDeep
  | depth + 1 => r depth

/-- A list, where nothing else will do. -/
def listOnly (depth : Nat) (item : Nat → Reader α) : Reader (List α) := do
  match ← peek with
  | some '[' => nested depth fun depth => list (item depth)
  | _ => wrongType "a sequence"

/-- An object, where nothing else will do. -/
def fieldsOnly (depth : Nat) (item : Nat → Reader α) : Reader (Fields α) := do
  match ← peek with
  | some '\x7b' => nested depth fun depth => fields (item depth)
  | _ => wrongType "a map"

/-- Runs a reader on a whole text. What follows the value read is not looked at. -/
def load (r : Reader α) (source : String) : Except LoadError α :=
  match r source.toList with
  | .ok (x, _) => .ok x
  | .error e =>
    let text := source.toList
    .error ⟨e.cause, e.path, Location.after (byteLength text - e.unread) text ⟨1, 0⟩⟩

end Reader

/-- The JSON value that a text begins with. -/
def Value.load (source : String) : Except LoadError Value :=
  Reader.load (Reader.value Reader.nestingLimit) source

end JsonAssist
