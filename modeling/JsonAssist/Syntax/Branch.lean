import JsonAssist.Syntax.Grammar
import JsonAssist.Syntax.Tree

namespace JsonAssist

namespace Syntax

/-- What a branch is made of: a token, characters that belong to no token, a phrase, an error that
is done, or an error that may still grow. -/
inductive Label where
  | token (token : Token)
  | skipped
  | phrase (phrase : Phrase)
  | error
  | growing
  deriving DecidableEq, Repr, Inhabited

/-- A branch covers the text from `start` to `stop`; `before` is where the branch or token before it
ended. An extra branch stands outside the rules. -/
structure Extent where
  before : Place
  start : Place
  stop : Place
  deriving Inhabited

/-- A branch: its label, its text, whether it is missing from the text or extra, its cost, the
charges of its parts, the count of visible nodes below it, and its parts. -/
inductive Branch where
  | node (label : Label) (extent : Extent) (missing extra : Bool) (cost charges descendants : Nat)
      (parts : List Branch)
  deriving Inhabited

namespace Cost

def recovery : Nat := 500
def missing : Nat := 110
def skippedTree : Nat := 100
def skippedByte : Nat := 1
def skippedLine : Nat := 30

end Cost

namespace Label

/-- Whether nodes with the label appear in the finished tree. -/
def isVisible : Label → Bool
  | .token .stop => Bool.false
  | .token _ => Bool.true
  | .skipped => Bool.true
  | .phrase .document => Bool.true
  | .phrase .object => Bool.true
  | .phrase .pair => Bool.true
  | .phrase .array => Bool.true
  | .phrase .string => Bool.true
  | .phrase _ => Bool.false
  | .error => Bool.true
  | .growing => Bool.false

/-- Skipped characters are errors too. -/
def isError : Label → Bool
  | .skipped => Bool.true
  | .error => Bool.true
  | _ => Bool.false

def tokenRank : Token → Nat
  | .stop => 0
  | .openBrace => 1
  | .comma => 2
  | .closeBrace => 3
  | .colon => 4
  | .openBracket => 5
  | .closeBracket => 6
  | .quote => 7
  | .content => 8
  | .escape => 9
  | .number => 10
  | .true => 11
  | .false => 12
  | .null => 13
  | .comment => 14

def phraseRank : Phrase → Nat
  | .document => 15
  | .value => 16
  | .object => 17
  | .pair => 18
  | .array => 19
  | .string => 20
  | .contents => 21
  | .values => 22
  | .members => 23
  | .elements => 24

/-- The order in which labels are preferred. -/
def rank : Label → Nat
  | .token t => tokenRank t
  | .phrase p => phraseRank p
  | .growing => 25
  | .skipped => 26
  | .error => 26

def kind : Label → Kind
  | .token .stop => .document
  | .token .openBrace => .openBrace
  | .token .comma => .comma
  | .token .closeBrace => .closeBrace
  | .token .colon => .colon
  | .token .openBracket => .openBracket
  | .token .closeBracket => .closeBracket
  | .token .quote => .quote
  | .token .content => .content
  | .token .escape => .escape
  | .token .number => .number
  | .token .true => .true
  | .token .false => .false
  | .token .null => .null
  | .token .comment => .comment
  | .skipped => .error
  | .phrase .object => .object
  | .phrase .pair => .pair
  | .phrase .array => .array
  | .phrase .string => .string
  | .phrase _ => .document
  | .error => .error
  | .growing => .error

end Label

namespace Branch

def label : Branch → Label
  | .node l _ _ _ _ _ _ _ => l

def extent : Branch → Extent
  | .node _ e _ _ _ _ _ _ => e

def missing : Branch → Bool
  | .node _ _ m _ _ _ _ _ => m

def extra : Branch → Bool
  | .node _ _ _ x _ _ _ _ => x

def cost : Branch → Nat
  | .node _ _ _ _ c _ _ _ => c

/-- What the parts add to the cost of an error around this branch if the branch is hidden. -/
def charges : Branch → Nat
  | .node _ _ _ _ _ n _ _ => n

/-- All visible nodes below this one. -/
def descendants : Branch → Nat
  | .node _ _ _ _ _ _ n _ => n

def parts : Branch → List Branch
  | .node _ _ _ _ _ _ _ ps => ps

def isVisible (b : Branch) : Bool := b.label.isVisible

def isError (b : Branch) : Bool := b.label.isError

/-- The bytes of the branch and of the blanks before it. -/
def totalBytes (b : Branch) : Nat := b.extent.stop.byte - b.extent.before.byte

def totalRows (b : Branch) : Nat := b.extent.stop.row - b.extent.before.row

def paddingBytes (b : Branch) : Nat := b.extent.start.byte - b.extent.before.byte

def bytes (b : Branch) : Nat := b.extent.stop.byte - b.extent.start.byte

def withExtra (extra : Bool) : Branch → Branch
  | .node l e m _ c n d ps => .node l e m extra c n d ps

/-- How far a branch advances the count of nodes on a stack. A growing error counts although it is
not visible, so that skipping shows as progress. -/
def weight (b : Branch) : Nat :=
  b.descendants + (if b.isVisible then 1 else 0) + if b.label = .growing then 1 else 0

/-- The end of the text stands outside the rules. -/
def ofLexeme (before : Place) (x : Lexeme) : Branch :=
  match x.token with
  | some t => .node (.token t) ⟨before, x.start, x.stop⟩ false (t == .stop) 0 0 0 []
  | none => .node .skipped ⟨before, x.start, x.stop⟩ false false 0 0 0 []

/-- A token that the text lacks at a place. -/
def ofMissing (t : Token) (p : Place) : Branch :=
  .node (.token t) ⟨p, p, p⟩ true false (Cost.missing + Cost.recovery) 0 0 []

/-- What leaving a branch out of the rules costs. Characters that belong to no token are charged a
recovery of their own, once something else is left out beside them. -/
def charge (b : Branch) : Nat :=
  if b.label = .skipped then Cost.skippedTree + Cost.recovery
  else if b.isVisible then Cost.skippedTree
  else b.charges

/-- What a part adds to the cost of the error around it, its own cost apart. -/
def penalty (part : Branch) : Nat :=
  if part.extra || part.isError && part.parts.isEmpty then 0 else part.charge

/-- The text that parts cover; an empty stretch at `here` if there are none. -/
def extentOf (here : Place) (parts : List Branch) : Extent :=
  match parts.head?, parts.getLast? with
  | some first, some last => ⟨first.extent.before, first.extent.start, last.extent.stop⟩
  | _, _ => ⟨here, here, here⟩

/-- A branch with parts, its cost and counts worked out from theirs. -/
def ofParts (label : Label) (here : Place) (parts : List Branch) : Branch :=
  let extent := extentOf here parts
  let inner := (parts.map fun p => if p.label = .growing then 0 else p.cost).foldr (· + ·) 0
  let isError := label == .error || label == .growing
  let own :=
    if isError then
      (parts.map penalty).foldr (· + ·) 0 + Cost.recovery +
        Cost.skippedByte * (extent.stop.byte - extent.start.byte) +
        Cost.skippedLine * (extent.stop.row - extent.start.row)
    else 0
  let charges := (parts.map charge).foldr (· + ·) 0
  let descendants := (parts.map fun p => p.descendants + if p.isVisible then 1 else 0).foldr (· + ·) 0
  .node label extent false false (inner + own) charges descendants parts

/-- Parts without the extra ones at their end, and those. -/
def splitExtras (parts : List Branch) : List Branch × List Branch :=
  let extras := (parts.reverse.takeWhile extra).reverse
  (parts.take (parts.length - extras.length), extras)

mutual

/-- The order of branches in which two readings of one text are compared: by label, then by the
number of parts, then by the parts from the left. -/
def compare : Branch → Branch → Ordering
  | .node l _ _ _ _ _ _ ps, .node l' _ _ _ _ _ _ qs =>
    (Ord.compare l.rank l'.rank).then
      ((Ord.compare ps.length qs.length).then (compareParts ps qs))

def compareParts : List Branch → List Branch → Ordering
  | p :: ps, q :: qs => (compare p q).then (compareParts ps qs)
  | _, _ => .eq

end

/-- Whether the second of two readings of one text is to be kept. -/
def prefers (a b : Branch) : Bool :=
  if b.cost < a.cost then true
  else if a.cost < b.cost then false
  else if 0 < a.cost then true
  else a.compare b == .gt

/-- Whether two branches on top of the same state are as good as each other: of those with errors
one is enough. -/
def matches? (a b : Branch) : Bool :=
  a.label == b.label &&
    (0 < a.cost && 0 < b.cost ||
      a.paddingBytes == b.paddingBytes && a.bytes == b.bytes &&
        a.parts.length == b.parts.length && a.extra == b.extra)

mutual

/-- The visible nodes of a branch in front of others. -/
def reveal : Branch → List Tree → List Tree
  | .node l e m _ _ _ _ ps, rest =>
    if l.isVisible then .node l.kind e.start.byte e.stop.byte m (revealAll ps []) :: rest
    else revealAll ps rest

def revealAll : List Branch → List Tree → List Tree
  | [], rest => rest
  | p :: ps, rest => reveal p (revealAll ps rest)

end

end Branch

end Syntax

end JsonAssist
