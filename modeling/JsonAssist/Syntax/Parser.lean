import JsonAssist.Syntax.Stack

namespace JsonAssist

namespace Syntax

/-- At most this many versions are kept from round to round. -/
def versionLimit : Nat := 6

/-- This many more may appear within a round. -/
def versionOverflow : Nat := 4

/-- How many parts down an error may reach. -/
def landmarkDepth : Nat := 16

/-- A version so much cheaper than another, for all it has read since, makes the other one void. -/
def costMargin : Nat := 18 * Cost.skippedTree

/-- The parser: the stack, the cheapest finished tree, and how many trees were finished. While the rules apply, a token
is shifted or a phrase is built. Where none applies, a version of the stack either gets a missing token, or it leaves the
rules and skips tokens until one fits a state further down. -/
structure Parser where
  stack : Stack
  best : Option Branch
  finished : Nat

/-- What versions are compared by. -/
structure Standing where
  cost : Nat
  count : Nat
  inError : Bool

/-- The outcome of comparing two versions: which one is to be tried first, and whether the other one
can be dropped. -/
inductive Verdict where
  | takeLeft
  | preferLeft
  | neither
  | preferRight
  | takeRight
  deriving DecidableEq

def Standing.compare (a b : Standing) : Verdict :=
  if !a.inError && b.inError then if a.cost < b.cost then .takeLeft else .preferLeft
  else if a.inError && !b.inError then if b.cost < a.cost then .takeRight else .preferRight
  else if a.cost < b.cost then
    if costMargin < (b.cost - a.cost) * (1 + a.count) then .takeLeft else .preferLeft
  else if b.cost < a.cost then
    if costMargin < (a.cost - b.cost) * (1 + b.count) then .takeRight else .preferRight
  else .neither

namespace Stack

def standing (s : Stack) (v : Nat) : Standing × Stack :=
  let paused := s.isPaused v
  let cost := s.cost v + if paused then Cost.skippedTree else 0
  let (count, s) := s.countSinceError v
  (⟨cost, count, paused || s.state v == .lost⟩, s)

/-- Merges the version into the first of the given earlier ones that has come to the same point. -/
def mergeIntoFirst (s : Stack) (v : Nat) : List Nat → Option Stack
  | [] => none
  | w :: rest =>
    match s.merge? w v with
    | some s => some s
    | none => s.mergeIntoFirst v rest

/-- Of several ways to the same node, the branches of the best phrase and the extra branches behind
it. -/
def choosePhrase (phrase : Phrase) (here : Place) : List (List Branch) → Branch × List Branch
  | [] => (Branch.ofParts (.phrase phrase) here [], [])
  | first :: others =>
    let build (branches : List Branch) : Branch × List Branch :=
      let (parts, extras) := Branch.splitExtras branches
      (Branch.ofParts (.phrase phrase) here parts, extras)
    others.foldl (fun best branches =>
      let next := build branches
      if best.1.prefers next.1 then next else best) (build first)

/-- Puts a phrase on top of each version that taking its parts off has made, and merges those that
have come to the same point as another one. `groups` belong to the versions from `v` on. -/
def pushPhrases (phrase : Phrase) (origin : Nat) :
    (v : Nat) → List (List (List Branch)) → Stack → Stack
  | _, [], s => s
  | v, group :: groups, s =>
    if versionLimit + versionOverflow + s.haltedCount < v then
      pushPhrases phrase origin v groups (s.remove v)
    else
      let (branch, extras) := choosePhrase phrase (s.place v) group
      let next := (s.state v).after phrase
      let s := s.push v (some branch) next
      let s := extras.foldl (fun s x => s.push v (some x) next) s
      match s.mergeIntoFirst v ((List.range v).filter (· != origin)) with
      | some s => pushPhrases phrase origin v groups s
      | none => pushPhrases phrase origin (v + 1) groups s

/-- Builds a phrase of the top `count` parts of a version, in new versions; the first of them, if
any are left after merging. -/
def reduce (s : Stack) (v : Nat) (phrase : Phrase) (count : Nat) : Stack × Option Nat :=
  let size := s.size
  let (s, groups) := s.pop v count
  let s := pushPhrases phrase v size groups s
  (s, if size < s.size then some size else none)

/-- The phrases that any of the tokens lets the state build, each once. -/
def reductions (state : State) (tokens : List Token) : List (Phrase × Nat) :=
  (tokens.flatMap state.actions).foldl (fun found action =>
    match action with
    | .reduce phrase count =>
      if count = 0 ∨ (phrase, count) ∈ found then found else found ++ [(phrase, count)]
    | _ => found) []

/-- Whether one of the tokens can be shifted. -/
def canShift (state : State) (tokens : List Token) : Bool :=
  (tokens.flatMap state.actions).any fun action =>
    match action with
    | .shift _ => true
    | .recover => true
    | _ => false

/-- Builds all phrases that the token, or any token at all, allows on a version and on the versions
that come of it. The flag tells whether the token could then be shifted. -/
def reduceAllFrom (lookahead : Option Token) (origin size : Nat) :
    (fuel : Nat) → (round v : Nat) → (shifts : Bool) → Stack → Stack × Bool
  | 0, _, _, shifts, s => (s, shifts)
  | fuel + 1, round, v, shifts, s =>
    if s.size ≤ v then (s, shifts)
    else
      match s.mergeIntoFirst v ((List.range v).drop size) with
      | some s => reduceAllFrom lookahead origin size fuel (round + 1) v shifts s
      | none =>
        let count := s.size
        let state := s.state v
        let tokens := match lookahead with
          | some t => [t]
          | none => Token.written
        let (s, last) := (reductions state tokens).foldl
          (fun (s, _) (phrase, parts) => s.reduce v phrase parts) (s, none)
        let next := if v = origin then count else v + 1
        if canShift state tokens then
          reduceAllFrom lookahead origin size fuel (round + 1) next true s
        else
          match last with
          | some w =>
            if round < versionLimit then
              reduceAllFrom lookahead origin size fuel (round + 1) v shifts (s.renumber w v)
            else
              let s := if lookahead.isSome then s.remove v else s
              reduceAllFrom lookahead origin size fuel (round + 1) next shifts s
          | none =>
            let s := if lookahead.isSome then s.remove v else s
            reduceAllFrom lookahead origin size fuel (round + 1) next shifts s

/-- A bound on the rounds of `reduceAll`, far above what the grammar allows. -/
def reduceRounds : Nat := 4096

def reduceAll (s : Stack) (v : Nat) (lookahead : Option Token) : Stack × Bool :=
  reduceAllFrom lookahead v s.size reduceRounds 0 v false s

/-- Tries to go on from version `v` as if one of the tokens were written before the lookahead. The
result is none if none of them helps. -/
def insertMissing (lookahead : Token) (place : Place) (v : Nat) :
    List Token → Stack → Stack × Bool
  | [], s => (s, false)
  | t :: rest, s =>
    let state := s.state v
    let next := state.afterToken t
    if next == .lost || next == state || !next.reducesOn lookahead then
      insertMissing lookahead place v rest s
    else
      let w := s.size
      let s := (s.copy v).push w (some (Branch.ofMissing t place)) next
      let (s, shifts) := s.reduceAll w (if lookahead = .stop then none else some lookahead)
      if shifts then (s, true) else insertMissing lookahead place v rest s

/-- Lets the versions leave the rules, after one of them was given a missing token if that helps. -/
def leaveRules (lookahead : Branch) (place : Place) :
    List Nat → (inserted : Bool) → Stack → Stack
  | [], _, s => s
  | v :: rest, inserted, s =>
    let (s, inserted) := match inserted, lookahead.label with
      | false, .token t => s.insertMissing t place v Token.written
      | _, _ => (s, inserted)
    leaveRules lookahead place rest inserted (s.push v none .lost)

/-- Merges as many versions as given, each of them the one at `w`, into version `v`. -/
def mergeAll (v w : Nat) : (count : Nat) → Stack → Stack
  | 0, s => s
  | count + 1, s => mergeAll v w count ((s.merge? v w).getD s)

/-- Wraps what lies above a state further down into an error, on each version made by taking it
off. A version that came to another state is given up, as are further ways to the same version. -/
def wrapError (goal : State) : (v : Nat) → List (List (List Branch)) → Stack → Bool → Stack × Bool
  | _, [], s, done => (s, done)
  | v, group :: groups, s, done =>
    if s.state v != goal then wrapError goal (v + 1) groups (s.halt v) done
    else
      let branches := group.headD []
      let (s, error) := s.popError v
      let earlier := match error with
        | some e => e.parts
        | none => []
      let (parts, extras) := Branch.splitExtras (earlier ++ branches)
      let s :=
        if parts.isEmpty then s
        else
          let error := (Branch.ofParts .error (s.place v) parts).withExtra true
          s.push v (some error) goal
      let s := extras.foldl (fun s x => s.push v (some x) goal) s
      wrapError goal (v + 1) groups s true

/-- Goes back to a state `depth` parts down; what lies above becomes an error. -/
def returnTo (s : Stack) (v depth : Nat) (goal : State) : Stack × Bool :=
  let size := s.size
  let (s, groups) := s.pop v depth
  wrapError goal size groups s false

/-- Removes the versions from `v` on that are not active. -/
def dropInactive (s : Stack) (v : Nat) : Stack :=
  { s with versions := s.versions.take v ++ (s.versions.drop v).filter fun h => h.status.isActive }

end Stack

namespace Parser

/-- Whether some other version, or a finished tree, is clearly better than version `v` would be at
the given cost outside errors. -/
def betterExists (p : Parser) (v cost : Nat) : Bool × Parser :=
  if p.best.any fun b => b.cost ≤ cost then (true, p)
  else
    let byte := (p.stack.place v).byte
    let (count, s) := p.stack.countSinceError v
    let standing : Standing := ⟨cost, count, false⟩
    let (found, s) := (List.range s.size).foldl (fun (found, s) w =>
      if found || w == v || !s.isActive w || (s.place w).byte < byte then (found, s)
      else
        let (other, s) := s.standing w
        match standing.compare other with
        | .takeRight => (true, s)
        | .preferRight => (s.canMerge w v, s)
        | _ => (false, s)) (false, s)
    (found, { p with stack := s })

/-- Keeps the better one of a new tree and the best one so far. -/
def keepBest (p : Parser) (root : Branch) : Parser :=
  match p.best with
  | some b => if b.prefers root then { p with best := some root } else p
  | none => { p with best := some root }

/-- The whole tree: the last branch that is not extra, with the extra ones around it among its
parts. -/
def wholeTree (here : Place) (branches : List Branch) : Option Branch :=
  let after := branches.reverse.takeWhile Branch.extra
  match branches.reverse.drop after.length with
  | [] => none
  | main :: before =>
    some (Branch.ofParts main.label here (before.reverse ++ main.parts ++ after.reverse))

/-- Finishes a version at the end of the text. -/
def accept (p : Parser) (v : Nat) (stop : Branch) : Parser :=
  let here := p.stack.place v
  let s := p.stack.push v (some stop) .start
  let size := s.size
  let (s, groups) := s.popAll v
  let roots := groups.flatten.filterMap (wholeTree here)
  let p := roots.foldl keepBest { p with stack := s, finished := p.finished + roots.length }
  { p with stack := (p.stack.remove size).halt v }

/-- Looks for a state further down that the token fits, the nearest first, and goes back to it in a
new version. -/
def recoverTo (v size : Nat) (lookahead : Branch) (token : Token) (place : Place)
    (cost count : Nat) : List Landmark → Parser → Parser × Bool
  | [], p => (p, false)
  | m :: rest, p =>
    let redundant := (List.range size).any fun w =>
      p.stack.state w == m.state && (p.stack.place w).byte == place.byte
    if m.state == .lost || m.place.byte == place.byte || redundant then
      recoverTo v size lookahead token place cost count rest p
    else
      let newCost := cost + m.depth * Cost.skippedTree +
        (place.byte - m.place.byte) * Cost.skippedByte +
        (place.row - m.place.row) * Cost.skippedLine
      let (better, p) := p.betterExists v newCost
      if better then (p, false)
      else if (m.state.actions token).isEmpty then
        recoverTo v size lookahead token place cost count rest p
      else
        let depth := if 0 < count then m.depth + 1 else m.depth
        let (s, done) := p.stack.returnTo v depth m.state
        if done then ({ p with stack := s }, true)
        else recoverTo v size lookahead token place cost count rest { p with stack := s }

/-- Puts a token that fits nowhere into the growing error on top of a version. -/
def skipToken (p : Parser) (v : Nat) (lookahead : Branch) (count : Nat) : Parser :=
  let lookahead :=
    if lookahead.label == .token .comment then lookahead.withExtra true else lookahead
  let here := p.stack.place v
  let error := Branch.ofParts .growing here [lookahead]
  let (s, error) :=
    if 0 < count then
      let size := p.stack.size
      let (s, groups) := p.stack.pop v 1
      let parts := (groups.headD []).headD []
      let s := { s with versions := s.versions.take (size + 1) }
      (s.renumber size v, Branch.ofParts .growing here (parts ++ [error]))
    else (p.stack, error)
  { p with stack := s.push v (some error) .lost }

/-- Handles a token outside the rules: goes back to a state that it fits if there is one, and also
skips it, unless that is clearly worse than what other versions do. -/
def recover (p : Parser) (v : Nat) (lookahead : Branch) : Parser :=
  let size := p.stack.size
  let place := p.stack.place v
  let (count, s) := p.stack.countSinceError v
  let cost := s.cost v
  let p := { p with stack := s }
  let (p, returned) := match lookahead.label with
    | .token t =>
      recoverTo v size lookahead t place cost count (s.version v).landmarks p
    | _ => (p, false)
  let p := { p with stack := p.stack.dropInactive size }
  if lookahead.label == .token .stop then
    let error := Branch.ofParts .error place []
    ({ p with stack := p.stack.push v (some error) .start }).accept v lookahead
  else if returned && versionLimit < p.stack.size then { p with stack := p.stack.halt v }
  else
    let newCost := cost + Cost.skippedTree + lookahead.totalBytes * Cost.skippedByte +
      lookahead.totalRows * Cost.skippedLine
    let (better, p) := p.betterExists v newCost
    if better then { p with stack := p.stack.halt v } else p.skipToken v lookahead count

/-- Lets a version that cannot go on with a token leave the rules. -/
def handleError (p : Parser) (v : Nat) (lookahead : Branch) : Parser :=
  let size := p.stack.size
  let (s, _) := p.stack.reduceAll v none
  let count := s.size
  let place := s.place v
  let versions := v :: (List.range count).drop size
  let s := s.leaveRules lookahead place versions false
  let s := Stack.mergeAll v size (count - size) s
  ({ p with stack := s.recordLandmarks v landmarkDepth }).recover v lookahead

/-- Works on a version with one token until the token is taken or the version has to wait. -/
def advanceWith (v : Nat) (lookahead : Branch) : (fuel : Nat) → Parser → Parser
  | 0, p => { p with stack := p.stack.halt v }
  | fuel + 1, p =>
    let state := p.stack.state v
    let actions := match lookahead.label with
      | .token t => state.actions t
      | _ => []
    match actions with
    | .shift next :: _ => { p with stack := p.stack.push v (some lookahead) next }
    | .shiftExtra :: _ =>
      { p with stack := p.stack.push v (some (lookahead.withExtra true)) state }
    | .accept :: _ => p.accept v lookahead
    | .recover :: _ => p.recover v lookahead
    | .reduce phrase count :: _ =>
      match p.stack.reduce v phrase count with
      | (s, some w) => advanceWith v lookahead fuel { p with stack := s.renumber w v }
      | (s, none) => { p with stack := s.halt v }
    | _ =>
      if state = .lost then p.recover v lookahead
      else { p with stack := p.stack.pause v lookahead }

/-- Reads the next token of a version and works on it. Between two tokens no more phrases can be
built than there are nodes, a few for each. -/
def advance (p : Parser) (v : Nat) : Parser :=
  let place := p.stack.place v
  let lexeme := Lexeme.read (p.stack.state v).inString place
  p.advanceWith v (Branch.ofLexeme place lexeme) (4 * p.stack.nodes.size + 64)

/-- Advances one version until it has come as far as those before it. -/
def advanceVersion (v : Nat) : (fuel : Nat) → (last : Nat) → Parser → Parser × Nat
  | 0, last, p => (p, last)
  | fuel + 1, last, p =>
    if p.stack.isActive v then
      let p := p.advance v
      let byte := (p.stack.place v).byte
      if last < byte || 0 < v && byte == last then (p, byte) else advanceVersion v fuel last p
    else (p, last)

/-- Advances all versions from `v` on. -/
def advanceAll (fuel : Nat) : (versions : Nat) → (v last : Nat) → Parser → Parser × Nat
  | 0, _, last, p => (p, last)
  | versions + 1, v, last, p =>
    if v < p.stack.size then
      let (p, last) := advanceVersion v fuel last p
      advanceAll fuel versions (v + 1) last p
    else (p, last)

/-- Compares version `i` with those before it. Worse ones are dropped, equal ones merged, better
ones moved to the front. The number of the version to look at next is returned. -/
def weed (standing : Standing) : (fuel : Nat) → (i j : Nat) → Stack → Stack × Nat
  | 0, i, _, s => (s, i + 1)
  | fuel + 1, i, j, s =>
    if i ≤ j then (s, i + 1)
    else
      let (other, s) := s.standing j
      match other.compare standing with
      | .takeLeft => (s.remove i, i)
      | .takeRight => weed standing fuel (i - 1) j (s.remove j)
      | .preferRight =>
        match s.merge? j i with
        | some s => (s, i)
        | none => weed standing fuel i (j + 1) (s.swap i j)
      | _ =>
        match s.merge? j i with
        | some s => (s, i)
        | none => weed standing fuel i (j + 1) s

/-- Drops versions given up and versions clearly worse than others; the least cost of a version
that is not in an error is returned. -/
def weedAll : (fuel : Nat) → (i : Nat) → (least : Option Nat) → Stack → Stack × Option Nat
  | 0, _, least, s => (s, least)
  | fuel + 1, i, least, s =>
    if s.size ≤ i then (s, least)
    else if (s.version i).status.isHalted then weedAll fuel i least (s.remove i)
    else
      let (standing, s) := s.standing i
      let least :=
        if standing.inError then least
        else
          match least with
          | some n => some (min n standing.cost)
          | none => some standing.cost
      let (s, i) := weed standing (2 * s.size + 2) i 0 s
      weedAll fuel i least s

/-- Lets the first waiting version go on if there is no better one, and drops the others. -/
def resumeFrom : (fuel : Nat) → (i : Nat) → (count : Nat) → (found : Bool) →
    (least : Option Nat) → Parser → Parser × Option Nat
  | 0, _, _, _, least, p => (p, least)
  | fuel + 1, i, count, found, least, p =>
    if count ≤ i then (p, least)
    else
      match (p.stack.version i).status with
      | .paused lookahead =>
        if !found && p.finished < versionLimit then
          let cost := p.stack.cost i
          let p := ({ p with stack := p.stack.resume i }).handleError i lookahead
          resumeFrom fuel (i + 1) count true (some cost) p
        else
          resumeFrom fuel i (count - 1) found least { p with stack := p.stack.remove i }
      | _ => resumeFrom fuel (i + 1) count true least p

/-- Sorts out the versions after a round; the least cost they can still lead to is returned. -/
def condense (p : Parser) : Parser × Option Nat :=
  let (s, least) := weedAll (4 * p.stack.size + 4) 0 none p.stack
  let s := { s with versions := s.versions.take versionLimit }
  resumeFrom (2 * s.size + 2) 0 s.size false least { p with stack := s }

/-- Rounds of advancing and sorting out, until no version is left or none can lead to a cheaper
tree than the best one. -/
def run : (fuel : Nat) → (steps last : Nat) → Parser → Parser
  | 0, _, _, p => p
  | fuel + 1, steps, last, p =>
    if p.stack.size = 0 then p
    else
      let (p, last) := p.advanceAll steps (p.stack.size + 64) 0 last
      let (p, least) := p.condense
      match p.best, least with
      | some b, some n => if b.cost < n then p else run fuel steps last p
      | some _, none => p
      | none, _ => run fuel steps last p

/-- The tree of a text. Each round takes at least one character of the text or settles an error
between two, which gives the bound on the rounds. -/
def parse (text : List Char) : Tree :=
  let fuel := 16 * (text.length + 16)
  let p := run fuel fuel 0 ⟨Stack.start text, none, 0⟩
  match p.best.map fun b => b.reveal [] with
  | some (tree :: _) => tree
  | _ => .node .document 0 0 false []

end Parser

end Syntax

end JsonAssist
