import JsonAssist.Syntax.Lexer

namespace JsonAssist

namespace Syntax

/-- What a rule of the grammar builds. The last four are lists in the making: a list is one item or two lists. -/
inductive Phrase where
  | document
  | value
  | object
  | pair
  | array
  | string
  | contents
  | values
  | members
  | elements
  deriving DecidableEq, Repr, Inhabited

/-- How far the rules have got. -/
inductive State where
  /-- Nothing is known: tokens are skipped until one fits an earlier state. -/
  | lost
  /-- Before the first value. -/
  | start
  /-- After some values. -/
  | valuesRead
  /-- After two lists of values. -/
  | valuesTwice
  | objectOpened
  | objectEmpty
  | memberFirst
  | objectOne
  | membersRead
  | membersTwice
  | objectMany
  | memberComma
  | memberNext
  | nameRead
  | colonRead
  | pairRead
  | arrayOpened
  | arrayEmpty
  | elementFirst
  | arrayOne
  | elementsRead
  | elementsTwice
  | arrayMany
  | elementComma
  | elementNext
  | stringOpened
  | stringEmpty
  | contentsRead
  | contentsTwice
  | stringClosed
  | valueRead
  /-- After the whole document. -/
  | finished
  deriving DecidableEq, Repr, Inhabited

/-- What to do with a token. -/
inductive Action where
  | shift (next : State)
  /-- A shift that a reduction beside it always takes precedence over. -/
  | shiftLater (next : State)
  /-- Keeps the state: the token stands outside the rules. -/
  | shiftExtra
  | reduce (phrase : Phrase) (count : Nat)
  | accept
  | recover
  deriving DecidableEq, Repr

namespace State

/-- Inside a string the text is read differently. -/
def inString : State → Bool
  | .stringOpened | .contentsRead | .contentsTwice => Bool.true
  | _ => Bool.false

/-- The state after the first token of a value. -/
def openValue : Token → Option State
  | .openBrace => some .objectOpened
  | .openBracket => some .arrayOpened
  | .quote => some .stringOpened
  | .number | .true | .false | .null => some .valueRead
  | _ => none

def startsValue (t : Token) : Bool := (openValue t).isSome

/-- The tokens that may follow a value. -/
def followsValue (t : Token) : Bool :=
  startsValue t || t == .stop || t == .comma || t == .closeBrace || t == .closeBracket

def reduceOn (allowed : Bool) (phrase : Phrase) (count : Nat) : List Action :=
  if allowed then [.reduce phrase count] else []

def shiftTo : Option State → List Action
  | some s => [.shift s]
  | none => []

/-- Shifts on a token where `next` is given for it, reduces a doubled list on the others allowed. -/
def halve (allowed : Bool) (phrase : Phrase) (next : Option State) : List Action :=
  if allowed then
    .reduce phrase 2 :: match next with
      | some s => [.shiftLater s]
      | none => []
  else []

/-- The actions of a state on a token. -/
def actions : State → Token → List Action
  | .lost, .comment => [.shiftExtra]
  | .lost, .content => []
  | .lost, _ => [.recover]
  | _, .comment => [.shiftExtra]
  | .start, .stop => [.reduce .document 0]
  | .start, t => shiftTo (openValue t)
  | .valuesRead, .stop => [.reduce .document 1]
  | .valuesRead, t => shiftTo (openValue t)
  | .valuesTwice, t => halve (startsValue t || t == .stop) .values (openValue t)
  | .objectOpened, .closeBrace => [.shift .objectEmpty]
  | .objectOpened, .quote => [.shift .stringOpened]
  | .objectOpened, _ => []
  | .objectEmpty, t => reduceOn (followsValue t) .object 2
  | .memberFirst, .closeBrace => [.shift .objectOne]
  | .memberFirst, .comma => [.shift .memberComma]
  | .memberFirst, _ => []
  | .objectOne, t => reduceOn (followsValue t) .object 3
  | .membersRead, .closeBrace => [.shift .objectMany]
  | .membersRead, .comma => [.shift .memberComma]
  | .membersRead, _ => []
  | .membersTwice, t =>
    halve (t == .comma || t == .closeBrace) .members
      (if t == .comma then some .memberComma else none)
  | .objectMany, t => reduceOn (followsValue t) .object 4
  | .memberComma, .quote => [.shift .stringOpened]
  | .memberComma, _ => []
  | .memberNext, t => reduceOn (t == .comma || t == .closeBrace) .members 2
  | .nameRead, .colon => [.shift .colonRead]
  | .nameRead, _ => []
  | .colonRead, t => shiftTo (openValue t)
  | .pairRead, t => reduceOn (t == .comma || t == .closeBrace) .pair 3
  | .arrayOpened, .closeBracket => [.shift .arrayEmpty]
  | .arrayOpened, t => shiftTo (openValue t)
  | .arrayEmpty, t => reduceOn (followsValue t) .array 2
  | .elementFirst, .closeBracket => [.shift .arrayOne]
  | .elementFirst, .comma => [.shift .elementComma]
  | .elementFirst, _ => []
  | .arrayOne, t => reduceOn (followsValue t) .array 3
  | .elementsRead, .closeBracket => [.shift .arrayMany]
  | .elementsRead, .comma => [.shift .elementComma]
  | .elementsRead, _ => []
  | .elementsTwice, t =>
    halve (t == .comma || t == .closeBracket) .elements
      (if t == .comma then some .elementComma else none)
  | .arrayMany, t => reduceOn (followsValue t) .array 4
  | .elementComma, t => shiftTo (openValue t)
  | .elementNext, t => reduceOn (t == .comma || t == .closeBracket) .elements 2
  | .stringOpened, .quote => [.shift .stringEmpty]
  | .stringOpened, .content => [.shift .contentsRead]
  | .stringOpened, .escape => [.shift .contentsRead]
  | .stringOpened, _ => []
  | .stringEmpty, t => reduceOn (followsValue t || t == .colon) .string 2
  | .contentsRead, .quote => [.shift .stringClosed]
  | .contentsRead, .content => [.shift .contentsTwice]
  | .contentsRead, .escape => [.shift .contentsTwice]
  | .contentsRead, _ => []
  | .contentsTwice, t =>
    halve (t == .quote || t == .content || t == .escape) .contents
      (if t == .content || t == .escape then some .contentsTwice else none)
  | .stringClosed, t => reduceOn (followsValue t || t == .colon) .string 3
  | .valueRead, t => reduceOn (followsValue t) .value 1
  | .finished, .stop => [.accept]
  | .finished, _ => []

/-- The state after a phrase has been built on top of this state; `lost` where it cannot be. -/
def after : State → Phrase → State
  | .start, .document => .finished
  | .start, .value => .valuesRead
  | .start, .values => .valuesRead
  | .start, .object => .valueRead
  | .start, .array => .valueRead
  | .start, .string => .valueRead
  | .valuesRead, .value => .valuesTwice
  | .valuesRead, .values => .valuesTwice
  | .valuesRead, .object => .valueRead
  | .valuesRead, .array => .valueRead
  | .valuesRead, .string => .valueRead
  | .valuesTwice, .value => .valuesTwice
  | .valuesTwice, .values => .valuesTwice
  | .valuesTwice, .object => .valueRead
  | .valuesTwice, .array => .valueRead
  | .valuesTwice, .string => .valueRead
  | .objectOpened, .pair => .memberFirst
  | .objectOpened, .string => .nameRead
  | .memberFirst, .members => .membersRead
  | .membersRead, .members => .membersTwice
  | .membersTwice, .members => .membersTwice
  | .memberComma, .pair => .memberNext
  | .memberComma, .string => .nameRead
  | .colonRead, .value => .pairRead
  | .colonRead, .object => .valueRead
  | .colonRead, .array => .valueRead
  | .colonRead, .string => .valueRead
  | .arrayOpened, .value => .elementFirst
  | .arrayOpened, .object => .valueRead
  | .arrayOpened, .array => .valueRead
  | .arrayOpened, .string => .valueRead
  | .elementFirst, .elements => .elementsRead
  | .elementsRead, .elements => .elementsTwice
  | .elementsTwice, .elements => .elementsTwice
  | .elementComma, .value => .elementNext
  | .elementComma, .object => .valueRead
  | .elementComma, .array => .valueRead
  | .elementComma, .string => .valueRead
  | .stringOpened, .contents => .contentsRead
  | .contentsRead, .contents => .contentsTwice
  | .contentsTwice, .contents => .contentsTwice
  | _, _ => .lost

/-- The state after a token, with reductions left aside; `lost` where it cannot come. -/
def afterToken (s : State) (t : Token) : State :=
  match (s.actions t).getLast? with
  | some (.shift next) => next
  | some (.shiftLater next) => next
  | some .shiftExtra => s
  | _ => .lost

/-- Whether the first thing to do on the token is a reduction. -/
def reducesOn (s : State) (t : Token) : Bool :=
  match s.actions t with
  | .reduce _ _ :: _ => Bool.true
  | _ => Bool.false

end State

end Syntax

end JsonAssist
