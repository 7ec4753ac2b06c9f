namespace JsonAssist

namespace Syntax

/-- The tokens of JSON text. Inside a string a run of plain characters is one token; everywhere else blanks separate
tokens. -/
inductive Token where
  | stop
  | openBrace
  | comma
  | closeBrace
  | colon
  | openBracket
  | closeBracket
  | quote
  | content
  | escape
  | number
  | true
  | false
  | null
  | comment
  deriving DecidableEq, Repr, Inhabited

/-- The tokens of the text itself, in a fixed order of preference. -/
def Token.written : List Token :=
  [.openBrace, .comma, .closeBrace, .colon, .openBracket, .closeBracket, .quote, .content, .escape,
    .number, .true, .false, .null, .comment]

/-- A place in a text: the bytes and line breaks before it, and the characters after it. -/
structure Place where
  byte : Nat
  row : Nat
  rest : List Char
  deriving Inhabited

namespace Place

def start (text : List Char) : Place := ⟨0, 0, text⟩

/-- The place behind one more character. -/
def past (p : Place) (c : Char) (rest : List Char) : Place :=
  ⟨p.byte + c.utf8Size, if c = '\n' then p.row + 1 else p.row, rest⟩

def next (p : Place) : Place :=
  match p.rest with
  | [] => p
  | c :: rest => p.past c rest

/-- The place behind the longest run of characters with the property. -/
def skipWhile (f : Char → Bool) (p : Place) : Place := go p.byte p.row p.rest
where
  go (byte row : Nat) : List Char → Place
    | [] => ⟨byte, row, []⟩
    | c :: rest =>
      if f c then go (byte + c.utf8Size) (if c = '\n' then row + 1 else row) rest
      else ⟨byte, row, c :: rest⟩

/-- The place behind the letters if they come next; else the place where they differ. -/
def letters (p : Place) : List Char → Place × Bool
  | [] => (p, Bool.true)
  | c :: more =>
    match p.rest with
    | d :: rest => if c = d then letters (p.past d rest) more else (p, Bool.false)
    | [] => (p, Bool.false)

end Place

/-- Blanks between tokens. -/
def isSpace (c : Char) : Bool := (9 ≤ c.toNat && c.toNat ≤ 13) || c == ' '

/-- Characters that a string holds as they are. -/
def isPlain (c : Char) : Bool := c != '\\' && c != '"' && c != '\n' && c.toNat != 0

/-- The outcome of looking for one token: where it starts after blanks, and either the token with
the place behind it, or how far the text could have been part of one. -/
structure Scan where
  start : Place
  found : Option Token
  reached : Place

namespace Scan

def token (start : Place) (t : Token) (reached : Place) : Scan := ⟨start, some t, reached⟩

def nothing (start reached : Place) : Scan := ⟨start, none, reached⟩

/-- A word of fixed letters. -/
def word (p : Place) (letters : List Char) (t : Token) : Scan :=
  match p.letters letters with
  | (q, Bool.true) => token p t q
  | (q, Bool.false) => nothing p q

/-- The place behind an exponent, or where it would start if there is none. -/
def afterExponent (p : Place) : Place :=
  match p.rest with
  | c :: _ =>
    if c = 'e' ∨ c = 'E' then
      let q := p.next
      let q := if q.rest.head? = some '-' then q.next else q
      let r := q.skipWhile Char.isDigit
      if q.byte < r.byte then r else p
    else p
  | [] => p

/-- The place behind a number, given the one behind its integer digits. -/
def afterInteger (p : Place) : Place :=
  if p.rest.head? = some '.' then afterExponent (p.next.skipWhile Char.isDigit)
  else afterExponent p

/-- A number; `digits` is the place behind its sign. -/
def number (start digits : Place) : Scan :=
  match digits.rest with
  | c :: _ =>
    if c = '0' then token start .number (afterInteger digits.next)
    else if c.isDigit then token start .number (afterInteger (digits.skipWhile Char.isDigit))
    else nothing start digits
  | [] => nothing start digits

/-- The inside of a block comment, `star` after a star: the place behind its end, or where the
comment breaks off. -/
def blockEnd (p : Place) : Place × Bool := go p.byte p.row Bool.false p.rest
where
  go (byte row : Nat) (star : Bool) : List Char → Place × Bool
    | [] => (⟨byte, row, []⟩, Bool.false)
    | c :: rest =>
      if c.toNat = 0 then (⟨byte, row, c :: rest⟩, Bool.false)
      else if star && c = '/' then (⟨byte + 1, row, rest⟩, Bool.true)
      else go (byte + c.utf8Size) (if c = '\n' then row + 1 else row) (c = '*') rest

/-- A comment behind its first slash. -/
def comment (start slash : Place) : Scan :=
  match slash.rest with
  | '/' :: _ =>
    token start .comment (slash.next.skipWhile fun c => c != '\n' && c.toNat != 0)
  | '*' :: _ =>
    match blockEnd slash.next with
    | (q, Bool.true) => token start .comment q
    | (q, Bool.false) => nothing start q
  | _ => nothing start slash

/-- An escape behind its backslash. -/
def escape (start body : Place) : Scan :=
  match body.rest with
  | c :: _ =>
    if c ∈ ['"', '\\', '/', 'b', 'f', 'n', 'r', 't', 'u'] then token start .escape body.next
    else nothing start body
  | [] => nothing start body

/-- The place behind a byte order mark at the very start of a text. -/
def skipMark (p : Place) : Place :=
  match p.rest with
  | c :: rest => if p.byte = 0 ∧ c.toNat = 0xFEFF then p.past c rest else p
  | [] => p

/-- A token outside strings. An escape must come without blanks before it. -/
def ordinary (p : Place) : Scan :=
  let p := skipMark p
  let q := p.skipWhile isSpace
  match q.rest with
  | [] => token q .stop q
  | c :: _ =>
    if c = '"' then token q .quote q.next
    else if c = ',' then token q .comma q.next
    else if c = ':' then token q .colon q.next
    else if c = '[' then token q .openBracket q.next
    else if c = ']' then token q .closeBracket q.next
    else if c = '\x7b' then token q .openBrace q.next
    else if c = '\x7d' then token q .closeBrace q.next
    else if c = '-' then number q q.next
    else if c = '/' then comment q q.next
    else if c = 't' then word q ['t', 'r', 'u', 'e'] .true
    else if c = 'f' then word q ['f', 'a', 'l', 's', 'e'] .false
    else if c = 'n' then word q ['n', 'u', 'l', 'l'] .null
    else if c = '\\' ∧ q.byte = p.byte then escape q q.next
    else if c.isDigit then number q q
    else nothing q q

/-- A token inside a string. Behind a line break only the closing quote and comments are looked
for. -/
def inString (p : Place) : Scan :=
  match p.rest with
  | [] => nothing p p
  | c :: _ =>
    if c = '\n' then
      let q := p.skipWhile isSpace
      match q.rest with
      | '"' :: _ => token q .quote q.next
      | '/' :: _ => comment q q.next
      | _ => nothing q q
    else if c = '"' then token p .quote p.next
    else if c = '\\' then escape p p.next
    else if isPlain c then token p .content (p.skipWhile isPlain)
    else nothing p p

end Scan

/-- What comes next in a text: a token, or characters that belong to none. `start` follows the
blanks. -/
structure Lexeme where
  token : Option Token
  start : Place
  stop : Place
  deriving Inhabited

namespace Lexeme

/-- Extends a stretch of characters that belong to no token, known to end at `stop` or later, up to
where the next token can be read. Every round passes at least one character. -/
def skipped (start : Place) : (fuel : Nat) → (stop : Place) → Lexeme
  | 0, stop => ⟨none, start, stop⟩
  | fuel + 1, stop =>
    let scan := Scan.ordinary stop
    match scan.found with
    | some _ => ⟨none, start, stop⟩
    | none =>
      skipped start fuel (if scan.reached.byte = stop.byte then stop.next else scan.reached)

/-- Reads outside strings. -/
def ordinary (p : Place) : Lexeme :=
  let scan := Scan.ordinary p
  match scan.found with
  | some t => ⟨some t, scan.start, scan.reached⟩
  | none =>
    let stop := if scan.reached.byte = scan.start.byte then scan.start.next else scan.reached
    skipped scan.start p.rest.length stop

/-- Reads at a place inside a string or outside strings; what is no token inside a string is read
as if outside. -/
def read (inString : Bool) (p : Place) : Lexeme :=
  if inString then
    let scan := Scan.inString p
    match scan.found with
    | some t => ⟨some t, scan.start, scan.reached⟩
    | none => ordinary p
  else ordinary p

end Lexeme

end Syntax

end JsonAssist
