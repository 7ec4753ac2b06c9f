namespace JsonAssist

namespace Syntax

/-- What a node is. -/
inductive Kind where
  | document
  | object
  | array
  | pair
  | string
  | content
  | escape
  | number
  | true
  | false
  | null
  | comment
  | error
  | openBrace
  | closeBrace
  | openBracket
  | closeBracket
  | comma
  | colon
  | quote
  deriving DecidableEq, Repr, Inhabited

namespace Kind

def name : Kind → String
  | .document => "document"
  | .object => "object"
  | .array => "array"
  | .pair => "pair"
  | .string => "string"
  | .content => "string_content"
  | .escape => "escape_sequence"
  | .number => "number"
  | .true => "true"
  | .false => "false"
  | .null => "null"
  | .comment => "comment"
  | .error => "ERROR"
  | .openBrace => "\x7b"
  | .closeBrace => "\x7d"
  | .openBracket => "["
  | .closeBracket => "]"
  | .comma => ","
  | .colon => ":"
  | .quote => "\""

/-- Everything but punctuation. -/
def isNamed : Kind → Bool
  | .openBrace | .closeBrace | .openBracket | .closeBracket | .comma | .colon | .quote => Bool.false
  | _ => Bool.true

/-- Literals: a walk down the tree stops at them. -/
def isLeaf : Kind → Bool
  | .string | .content | .number | .true | .false | .null => Bool.true
  | _ => Bool.false

/-- Nodes that stand outside the grammar's rules, anywhere in the text. -/
def isExtra : Kind → Bool
  | .comment | .error => Bool.true
  | _ => Bool.false

end Kind

/-- A syntax tree of a document, which may be broken: then error nodes stand around what could not be placed, and
missing nodes of no width where a closer was made up. Ranges count bytes; a range holds its start and not its stop. -/
inductive Tree where
  | node (kind : Kind) (start stop : Nat) (missing : Bool) (children : List Tree)
  deriving Repr, Inhabited

namespace Tree

def kind : Tree → Kind
  | .node k _ _ _ _ => k

def start : Tree → Nat
  | .node _ s _ _ _ => s

def stop : Tree → Nat
  | .node _ _ e _ _ => e

/-- Whether the node was made up, to stand for something the text lacks. -/
def missing : Tree → Bool
  | .node _ _ _ m _ => m

def children : Tree → List Tree
  | .node _ _ _ _ cs => cs

def isLeaf (t : Tree) : Bool := t.kind.isLeaf

def isNamed (t : Tree) : Bool := t.kind.isNamed

def namedChildren (t : Tree) : List Tree := t.children.filter isNamed

/-- The parts of a node that the grammar asks for. -/
def parts (t : Tree) : List Tree := t.children.filter fun c => !c.kind.isExtra

/-- The name of a pair. -/
def key? (t : Tree) : Option Tree := if t.kind = .pair then t.parts[0]? else none

/-- The value of a pair. -/
def value? (t : Tree) : Option Tree := if t.kind = .pair then t.parts[2]? else none

/-- Whether the last of two or more children is a closer of the given kind from the text. -/
def endsWith (closer : Kind) (t : Tree) : Bool :=
  match t.children.getLast? with
  | some last => 2 ≤ t.children.length && last.kind == closer && !last.missing
  | none => false

/-- Whether a node other than a pair has all that ends it. -/
def isClosedPart (t : Tree) : Bool :=
  if t.missing then false
  else
    match t.kind with
    | .object => t.endsWith .closeBrace
    | .array => t.endsWith .closeBracket
    | .string => t.endsWith .quote
    | .error => false
    | _ => t.start < t.stop

/-- Whether a node has all that ends it: its closer, or the value of a pair. -/
def isClosed (t : Tree) : Bool :=
  if t.kind = .pair && !t.missing then
    match t.value? with
    | some v => v.kind != .pair && v.isClosedPart
    | none => false
  else t.isClosedPart

/-- Whether the node reaches over `offset`. An open node also holds the place right behind it. -/
def holds (t : Tree) (offset : Nat) : Bool :=
  !t.missing && t.start ≤ offset && (offset < t.stop || offset == t.stop && !t.isClosed)

/-- Whether the text of the node is broken: an error or a missing node is in it. -/
def hasError : Tree → Bool
  | .node k _ _ m cs => k == .error || m || anyHasError cs
where
  anyHasError : List Tree → Bool
    | [] => false
    | c :: rest => hasError c || anyHasError rest

mutual

/-- The nodes from this one down to the innermost one at `offset`. -/
def chain (offset : Nat) : Tree → List Tree
  | .node k s e m cs =>
    .node k s e m cs :: if k.isLeaf then [] else chainAmong offset cs

/-- The chain of the first named node that holds the offset; comments hold nothing. -/
def chainAmong (offset : Nat) : List Tree → List Tree
  | [] => []
  | t :: rest =>
    if t.isNamed && t.kind != .comment && t.holds offset then chain offset t
    else chainAmong offset rest

end

end Tree

end Syntax

end JsonAssist
