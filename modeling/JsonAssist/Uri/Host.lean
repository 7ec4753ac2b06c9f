import JsonAssist.Text.Split
import JsonAssist.Uri.Percent
import JsonAssist.Uri.Punycode

namespace JsonAssist

/-- Why a text is no URI. -/
inductive UriError where
  | noScheme
  | emptyHost
  | badHostName
  | badHostCharacter
  | badIpv4
  | badIpv6
  | badPort
  deriving DecidableEq, Repr

def UriError.message : UriError → String
  | .noScheme => "relative URL without a base"
  | .emptyHost => "empty host"
  | .badHostName => "invalid international domain name"
  | .badHostCharacter => "invalid domain character"
  | .badIpv4 => "invalid IPv4 address"
  | .badIpv6 => "invalid IPv6 address"
  | .badPort => "invalid port number"

namespace Uri

def digits (base : Nat) (s : List Char) : Option Nat :=
  s.foldlM (fun n c => do
    let d ← Percent.hexValue? c
    if d < base then some (base * n + d) else none) 0

/-- A number in an address; `0x` makes it hexadecimal and a leading zero octal. -/
def number? : List Char → Option Nat
  | [] => none
  | '0' :: x :: rest =>
    if x = 'x' || x = 'X' then digits 16 rest else digits 8 (x :: rest)
  | s => digits 10 s

/-- The labels of a name, the empty one behind a dot at the end left out. -/
def labels (name : List Char) : List (List Char) :=
  let parts := splitOn '.' name
  if 1 < parts.length && parts.getLast? == some [] then parts.dropLast else parts

/-- Whether the last label of a name makes it an address. -/
def endsInNumber (name : List Char) : Bool :=
  match (labels name).getLast? with
  | none | some [] => false
  | some label => label.all Char.isDigit ||
    ((label.take 2 == ['0', 'x'] || label.take 2 == ['0', 'X']) && (number? label).isSome)

/-- The address that up to four numbers stand for; the last one fills what the others leave. -/
def address? (numbers : List Nat) : Option Nat :=
  match numbers.reverse with
  | [] => none
  | last :: before =>
    if 4 < numbers.length || before.any (255 < ·) || Nat.pow 256 (4 - before.length) ≤ last then none
    else
      let front := before.reverse.foldl (fun n part => 256 * n + part) 0
      some (front * Nat.pow 256 (4 - before.length) + last)

def ipv4 (name : List Char) : Except UriError (List Char) :=
  match (labels name).mapM number? with
  | none => .error .badIpv4
  | some numbers =>
    match address? numbers with
    | none => .error .badIpv4
    | some n =>
      let byte (k : Nat) := toString (n / Nat.pow 256 k % 256)
      .ok (".".intercalate [byte 3, byte 2, byte 1, byte 0]).toList

/-- How many 16-bit groups the colon-separated parts of an address make up. -/
def groups? : List (List Char) → Option Nat
  | [] => some 0
  | [last] =>
    if last.contains '.' then
      let parts := splitOn '.' last
      let isByte (p : List Char) : Bool :=
        match digits 10 p with
        | some n => !p.isEmpty && n < 256 && (p.length == 1 || p.head? != some '0')
        | none => false
      if parts.length == 4 && parts.all isByte then some 2 else none
    else group last 0
  | part :: rest => (groups? rest).bind (group part)
where
  group (part : List Char) (others : Nat) : Option Nat :=
    if 0 < part.length && part.length ≤ 4 && (digits 16 part).isSome then some (others + 1)
    else none

/-- The text before the first pair of colons, and the one behind it. -/
def cutColons : List Char → Option (List Char × List Char)
  | ':' :: ':' :: rest => some ([], rest)
  | c :: rest => (cutColons rest).map fun (a, b) => (c :: a, b)
  | [] => none

/-- Whether a text is an address of eight groups; a pair of colons stands for the missing ones. -/
def isIpv6 (s : List Char) : Bool :=
  let count (s : List Char) := if s.isEmpty then some 0 else groups? (splitOn ':' s)
  match cutColons s with
  | none => count s == some 8
  | some (a, b) =>
    match count a, count b with
    | some m, some n => m + n ≤ 7 && !a.contains '.'
    | _, _ => false

/-- Characters that no host may hold. -/
def isForbidden (c : Char) : Bool :=
  c.toNat ≤ 0x20 && (c == '\x00' || c == '\t' || c == '\n' || c == '\r' || c == ' ') ||
    "#/:<>?@[\\]^|".toList.contains c

/-- The host in brackets. -/
def bracketed (s : List Char) : Except UriError (List Char) :=
  let inner := s.tail.dropLast
  if s.getLast? = some ']' && isIpv6 inner then .ok (s.map Char.toLower) else .error .badIpv6

/-- The host that a name stands for where names are looked up in the network. Letters of other scripts are expected in
the form to which such names are mapped: small, and composed with their marks. -/
def networkHost (s : List Char) : Except UriError (List Char) :=
  if s.head? = some '[' then bracketed s
  else
    let name := (Percent.chars (Percent.decode s)).map Char.toLower
    if name.isEmpty then .error .emptyHost
    else if name.any fun c => isForbidden c || c.toNat < 0x20 || "%\x7f\uFFFD".toList.contains c then
      .error .badHostName
    else if endsInNumber name then ipv4 name
    else .ok (Punycode.name name)

/-- The host that a name stands for elsewhere. -/
def plainHost (s : List Char) : Except UriError (List Char) :=
  if s.head? = some '[' then bracketed s
  else if s.any isForbidden then .error .badHostCharacter
  else .ok (Percent.encode (fun c => c.toNat < 0x20 || 0x7F ≤ c.toNat) s)

end Uri

end JsonAssist
