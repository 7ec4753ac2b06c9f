import JsonAssist.Syntax.Branch

namespace JsonAssist

namespace Syntax

/-- A way down from a node. A link without a branch marks where the rules were left. -/
structure Link where
  below : Nat
  branch : Option Branch
  deriving Inhabited

/-- A state on the stack, the text before it, the ways down, and the cost and weight of what lies
below. -/
structure Node where
  state : State
  place : Place
  links : List Link
  cost : Nat
  count : Nat
  deriving Inhabited

/-- A version that cannot go on with a token waits until no other can, or is given up. -/
inductive Status where
  | active
  | paused (lookahead : Branch)
  | halted
  deriving Inhabited

/-- A state further down, to which skipping tokens may lead back. -/
structure Landmark where
  place : Place
  depth : Nat
  state : State

/-- One top of the stack. -/
structure Version where
  top : Nat
  status : Status
  countAtError : Nat
  landmarks : List Landmark
  deriving Inhabited

/-- The nodes ever made, and the versions, from the most promising one on. Versions that come to the same state at the
same place for the same cost share a node, which keeps a link for each way down. -/
structure Stack where
  nodes : Array Node
  versions : List Version

namespace Status

def isActive : Status → Bool
  | .active => Bool.true
  | _ => Bool.false

def isPaused : Status → Bool
  | .paused _ => Bool.true
  | _ => Bool.false

def isHalted : Status → Bool
  | .halted => Bool.true
  | _ => Bool.false

end Status

/-- At most this many ways lead down from one node. -/
def linkLimit : Nat := 8

/-- At most this many ways down are followed at a time. -/
def pathLimit : Nat := 64

namespace Stack

/-- The stack before anything is read. -/
def start (text : List Char) : Stack :=
  ⟨#[⟨.start, Place.start text, [], 0, 0⟩], [⟨0, .active, 0, []⟩]⟩

def size (s : Stack) : Nat := s.versions.length

def node (s : Stack) (i : Nat) : Node := s.nodes.getD i default

def version (s : Stack) (v : Nat) : Version := s.versions.getD v default

def topNode (s : Stack) (v : Nat) : Node := s.node (s.version v).top

def state (s : Stack) (v : Nat) : State := (s.topNode v).state

def place (s : Stack) (v : Nat) : Place := (s.topNode v).place

def isActive (s : Stack) (v : Nat) : Bool := (s.version v).status.isActive

def isPaused (s : Stack) (v : Nat) : Bool := (s.version v).status.isPaused

def haltedCount (s : Stack) : Nat := (s.versions.filter fun h => h.status.isHalted).length

def setVersion (s : Stack) (v : Nat) (h : Version) : Stack :=
  { s with versions := s.versions.set v h }

/-- The cost of a version; one that has just left the rules pays for it. -/
def cost (s : Stack) (v : Nat) : Nat :=
  let n := s.topNode v
  let left := match n.links with
    | l :: _ => n.state == .lost && l.branch.isNone
    | [] => false
  n.cost + if s.isPaused v || left then Cost.recovery else 0

/-- What a version has read since its last error. A version that has since lost nodes starts to
count from where it is. -/
def countSinceError (s : Stack) (v : Nat) : Nat × Stack :=
  let h := s.version v
  let n := s.node h.top
  if n.count < h.countAtError then (0, s.setVersion v { h with countAtError := n.count })
  else (n.count - h.countAtError, s)

/-- Puts a branch, or the mark of an error, on top of a version. -/
def push (s : Stack) (v : Nat) (branch : Option Branch) (state : State) : Stack :=
  let h := s.version v
  let below := s.node h.top
  let node : Node := match branch with
    | some b =>
      ⟨state, b.extent.stop, [⟨h.top, branch⟩], below.cost + b.cost, below.count + b.weight⟩
    | none => ⟨state, below.place, [⟨h.top, none⟩], below.cost, below.count⟩
  let countAtError := if branch.isNone then node.count else h.countAtError
  let top := s.nodes.size
  let ⟨nodes, versions⟩ := s
  ⟨nodes.push node, versions.set v { h with top, countAtError }⟩

def remove (s : Stack) (v : Nat) : Stack := { s with versions := s.versions.eraseIdx v }

/-- Puts version `v` in the place of the earlier version `w`, whose landmarks it takes over if it
has none. -/
def renumber (s : Stack) (v w : Nat) : Stack :=
  if v = w then s
  else
    let h := s.version v
    let landmarks := if h.landmarks.isEmpty then (s.version w).landmarks else h.landmarks
    (s.setVersion w { h with landmarks }).remove v

/-- A copy of a version as the last one. -/
def copy (s : Stack) (v : Nat) : Stack :=
  { s with versions := s.versions ++ [{ s.version v with landmarks := [] }] }

def swap (s : Stack) (v w : Nat) : Stack :=
  let h := s.version v
  (s.setVersion v (s.version w)).setVersion w h

def halt (s : Stack) (v : Nat) : Stack := s.setVersion v { s.version v with status := .halted }

def pause (s : Stack) (v : Nat) (lookahead : Branch) : Stack :=
  s.setVersion v { s.version v with
    status := .paused lookahead, countAtError := (s.topNode v).count }

def resume (s : Stack) (v : Nat) : Stack :=
  s.setVersion v { s.version v with status := .active }

/-- Whether two branches on links are as good as each other. -/
def sameBranch : Option Branch → Option Branch → Bool
  | none, none => true
  | some a, some b => a.matches? b
  | _, _ => false

def mergeable (a b : Node) : Bool :=
  a.state == b.state && a.place.byte == b.place.byte && a.cost == b.cost

/-- Adds a way down to a node. Where an equally good branch leads to a node that can be merged with
the new one, the merging goes on further down. -/
def addLink : (fuel : Nat) → Array Node → (node : Nat) → Link → Array Node
  | 0, nodes, _, _ => nodes
  | fuel + 1, nodes, i, link =>
    if link.below = i then nodes
    else
      let node := nodes.getD i default
      let target := nodes.getD link.below default
      let twin := node.links.find? fun l =>
        sameBranch l.branch link.branch &&
          (l.below == link.below || mergeable (nodes.getD l.below default) target)
      match twin with
      | some l =>
        if l.below = link.below then nodes
        else target.links.foldl (fun nodes deeper => addLink fuel nodes l.below deeper) nodes
      | none =>
        if linkLimit ≤ node.links.length then nodes
        else
          let weight := match link.branch with
            | some b => b.weight
            | none => 0
          nodes.setIfInBounds i { node with
            links := node.links ++ [link], count := max node.count (target.count + weight) }

def canMerge (s : Stack) (v w : Nat) : Bool :=
  s.isActive v && s.isActive w && mergeable (s.topNode v) (s.topNode w)

/-- Merges version `w` into version `v` if they have come to the same point. -/
def merge? (s : Stack) (v w : Nat) : Option Stack :=
  if s.canMerge v w then
    let links := (s.topNode w).links
    let top := (s.version v).top
    let ⟨nodes, versions⟩ := s
    let fuel := nodes.size
    let nodes := links.foldl (fun nodes link => addLink fuel nodes top link) nodes
    let s : Stack := ⟨nodes, versions⟩
    let n := s.node top
    let s :=
      if n.state = .lost then s.setVersion v { s.version v with countAtError := n.count } else s
    some (s.remove w)
  else none

/-- A way down from a version: the node reached, the branches passed in the order of the text, and
how many parts of a rule they make. -/
structure Path where
  node : Nat
  branches : List Branch
  count : Nat

def Path.follow (p : Path) (l : Link) : Path :=
  match l.branch with
  | some b => ⟨l.below, b :: p.branches, if b.extra then p.count else p.count + 1⟩
  | none => ⟨l.below, p.branches, p.count + 1⟩

/-- What to do at the node that a path has reached: whether it ends here with a result, and whether
it ends. -/
structure Visit (σ : Type) where
  memory : σ
  take : Bool
  stop : Bool

/-- The paths that go on, those that branched off, and the results, each in reverse order. -/
structure Walk (σ : Type) where
  memory : σ
  kept : List Path
  added : List Path
  results : List Path

/-- Takes each path one node further down. Of several links the first one continues the path, and
the others branch off while there is room. -/
def walkRound {σ : Type} (nodes : Array Node) (visit : σ → Path → Visit σ) :
    List Path → Walk σ → Walk σ
  | [], w => w
  | p :: todo, w =>
    let seen := visit w.memory p
    let results := if seen.take then p :: w.results else w.results
    match seen.stop, (nodes.getD p.node default).links with
    | false, first :: others =>
      let added := others.foldl (fun added l =>
        if w.kept.length + 1 + todo.length + added.length < pathLimit then p.follow l :: added
        else added) w.added
      walkRound nodes visit todo ⟨seen.memory, p.follow first :: w.kept, added, results⟩
    | _, _ => walkRound nodes visit todo ⟨seen.memory, w.kept, w.added, results⟩

/-- Follows all ways down. A path never meets a node twice, so the number of nodes bounds it. -/
def walkFrom {σ : Type} (nodes : Array Node) (visit : σ → Path → Visit σ) :
    (fuel : Nat) → σ → List Path → List Path → σ × List Path
  | 0, memory, _, results => (memory, results.reverse)
  | _ + 1, memory, [], results => (memory, results.reverse)
  | fuel + 1, memory, paths, results =>
    let w := walkRound nodes visit paths ⟨memory, [], [], results⟩
    walkFrom nodes visit fuel w.memory (w.kept.reverse ++ w.added.reverse) w.results

def walk {σ : Type} (s : Stack) (v : Nat) (visit : σ → Path → Visit σ) (memory : σ) :
    σ × List Path :=
  walkFrom s.nodes visit (s.nodes.size + 1) memory [⟨(s.version v).top, [], 0⟩] []

/-- Results grouped by the node they reached, in the order of first arrival. -/
def groupPaths : List Path → List (Nat × List (List Branch))
  | [] => []
  | p :: rest => insertGroup p (groupPaths rest)
where
  insertGroup (p : Path) (groups : List (Nat × List (List Branch))) :
      List (Nat × List (List Branch)) :=
    match groups.find? fun g => g.1 == p.node with
    | some g => (p.node, p.branches :: g.2) :: groups.filter fun g => g.1 != p.node
    | none => (p.node, [p.branches]) :: groups

/-- Makes each node reached a new version; the branches on the ways to it come with it. -/
def addGroups (s : Stack) (v : Nat) (paths : List Path) : Stack × List (List (List Branch)) :=
  let groups := groupPaths paths
  let countAtError := (s.version v).countAtError
  ({ s with versions := s.versions ++ groups.map fun g => ⟨g.1, .active, countAtError, []⟩ },
    groups.map Prod.snd)

/-- Takes `count` parts off a version along every way down. -/
def pop (s : Stack) (v : Nat) (count : Nat) : Stack × List (List (List Branch)) :=
  let visit := fun (_ : Unit) (p : Path) => Visit.mk () (p.count == count) (p.count == count)
  s.addGroups v (s.walk v visit ()).2

/-- Takes everything off a version. -/
def popAll (s : Stack) (v : Nat) : Stack × List (List (List Branch)) :=
  let nodes := s.nodes
  let visit := fun (_ : Unit) (p : Path) =>
    Visit.mk () (nodes.getD p.node default).links.isEmpty false
  s.addGroups v (s.walk v visit ()).2

/-- Takes one finished error off a version if there is one on top. -/
def popError (s : Stack) (v : Nat) : Stack × Option Branch :=
  let onError := (s.topNode v).links.any fun l => l.branch.any Branch.isError
  if onError then
    let visit := fun (found : Bool) (p : Path) =>
      match p.branches with
      | [] => Visit.mk found false false
      | b :: _ => if !found && b.isError then ⟨true, true, true⟩ else ⟨found, false, true⟩
    let (s, groups) := s.addGroups v (s.walk v visit false).2
    match groups with
    | ((b :: _) :: _) :: _ => (s.renumber (s.size - 1) v, some b)
    | _ => (s, none)
  else (s, none)

/-- The states at most `maxDepth` parts down, each once per depth. -/
def landmarks (s : Stack) (v : Nat) (maxDepth : Nat) : List Landmark :=
  let nodes := s.nodes
  let visit := fun (seen : List Landmark) (p : Path) =>
    let n := nodes.getD p.node default
    if maxDepth < p.count then Visit.mk seen false true
    else
      let known := (seen.takeWhile fun m => p.count ≤ m.depth).any fun m =>
        m.depth == p.count && m.state == n.state
      ⟨if known then seen else ⟨n.place, p.count, n.state⟩ :: seen, false, false⟩
  (s.walk v visit []).1.reverse

def recordLandmarks (s : Stack) (v : Nat) (maxDepth : Nat) : Stack :=
  s.setVersion v { s.version v with landmarks := s.landmarks v maxDepth }

end Stack

end Syntax

end JsonAssist
