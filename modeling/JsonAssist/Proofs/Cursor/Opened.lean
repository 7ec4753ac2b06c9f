import Mathlib.Data.List.Forall2
import JsonAssist.Cursor.Context
import JsonAssist.Proofs.Cursor.Replay
import JsonAssist.Proofs.Syntax.Chain

namespace JsonAssist

/-- Brackets open or close a container. -/
def Syntax.Kind.isBracket : Syntax.Kind → Bool
  | .openBrace | .openBracket | .closeBrace | .closeBracket => Bool.true
  | _ => Bool.false

namespace Cursor

open Syntax

/-- What becomes of containers that stay: the innermost one may get names and another member, or another index. -/
inductive Touched : Frames → Frames → Prop
  | refl (frames : Frames) : Touched frames frames
  | object {keys keys' : List String} {member member' : Option Member} {rest : Frames} (kept : keys ⊆ keys') :
      Touched (.object keys member :: rest) (.object keys' member' :: rest)
  | array {index index' : Nat} {onElement : Bool} {rest : Frames} :
      Touched (.array index onElement :: rest) (.array index' onElement :: rest)

namespace Touched

variable {a b c : Frames}

theorem trans (first : Touched a b) (second : Touched b c) : Touched a c := by
  cases first with
  | refl => exact second
  | object kept =>
    cases second with
    | refl => exact .object kept
    | object kept' => exact .object (List.Subset.trans kept kept')
  | array =>
    cases second with
    | refl => exact .array
    | array => exact .array

theorem length_eq (touched : Touched a b) : b.length = a.length := by
  cases touched <;> rfl

/-- What is touched is the innermost container or none. -/
theorem split {opened under all : Frames} (touched : Touched (opened ++ under) all) :
    ∃ opened' under', all = opened' ++ under' ∧ Touched opened opened' ∧ Touched under under' := by
  cases opened with
  | nil => exact ⟨[], all, rfl, .refl [], touched⟩
  | cons innermost opened =>
    generalize same : innermost :: opened ++ under = frames at touched
    cases touched with
    | refl => exact ⟨innermost :: opened, under, same.symm, .refl _, .refl _⟩
    | object kept =>
      obtain ⟨rfl, rfl⟩ := List.cons.inj same
      exact ⟨_ :: opened, under, rfl, .object kept, .refl _⟩
    | array =>
      obtain ⟨rfl, rfl⟩ := List.cons.inj same
      exact ⟨_ :: opened, under, rfl, .array, .refl _⟩

end Touched

theorem touched_startValue (frames : Frames) : Touched frames frames.startValue := by
  unfold Frames.startValue
  split
  · exact .object (List.Subset.refl _)
  · exact .refl _

theorem touched_seeString (text : String) (frames : Frames) : Touched frames (frames.seeString text) := by
  unfold Frames.seeString
  split
  · exact .object (addKeys_grows (some text) _)
  · exact .object (List.Subset.refl _)
  · exact .refl _

theorem touched_seeComma (frames : Frames) : Touched frames frames.seeComma := by
  unfold Frames.seeComma
  split
  · exact .object (List.Subset.refl _)
  · exact .array
  · exact .refl _

theorem touched_seeColon (frames : Frames) : Touched frames frames.seeColon := by
  unfold Frames.seeColon
  split
  · exact .object (List.Subset.refl _)
  · exact .refl _

theorem touched_seePair (d : Document) (pair : Tree) (frames : Frames) : Touched frames (seePair d pair frames) := by
  unfold seePair
  split
  · split
    · exact .object (List.Subset.refl _)
    next key _ => exact .object (addKeys_grows (some key) _)
  · exact .refl _

theorem touched_enterPair (d : Document) (pair : Tree) (next : Option Tree) (offset : Nat) (frames : Frames) :
    Touched frames (enterPair d pair next offset frames) := by
  unfold enterPair
  split
  · split <;> exact .object (List.Subset.refl _)
  · exact .refl _

/-- All tokens but brackets leave the containers that there are. -/
theorem touched_apply {d : Document} {base : Nat} {token : Tree} (plain : ¬token.kind.isBracket) (frames : Frames) :
    Touched frames (apply d base token frames) := by
  unfold apply
  split
  next opens => simp [opens, Kind.isBracket] at plain
  next opens => simp [opens, Kind.isBracket] at plain
  next closes => simp [closes, Kind.isBracket] at plain
  next closes => simp [closes, Kind.isBracket] at plain
  · exact touched_seeComma frames
  · exact touched_seeColon frames
  · split
    next text _ => exact touched_seeString text frames
    next => exact .refl frames
  · split
    next text _ => exact touched_seeString text frames
    next => exact .refl frames
  · exact touched_seePair d token frames
  · exact touched_startValue frames
  · exact touched_startValue frames
  · exact touched_startValue frames
  · exact touched_startValue frames
  · exact touched_startValue frames
  · exact touched_startValue frames
  · exact .refl frames

/-- The loose brackets that are open behind a token, the innermost first. A closer ends the innermost one if it is
of its kind. -/
def bracketsBehind : List Kind → Kind → List Kind
  | opened, .openBrace => .openBrace :: opened
  | opened, .openBracket => .openBracket :: opened
  | .openBrace :: opened, .closeBrace => opened
  | .openBracket :: opened, .closeBracket => opened
  | opened, _ => opened

/-- The loose brackets that tokens leave open, the innermost first. -/
def leftOpen (tokens : List Tree) : List Kind := tokens.foldl (fun opened t => bracketsBehind opened t.kind) []

theorem bracketsBehind_of_plain {k : Kind} (plain : ¬k.isBracket) (opened : List Kind) :
    bracketsBehind opened k = opened := by
  cases k <;> simp_all [Kind.isBracket, bracketsBehind]

def IsLoose (k : Kind) : Prop := k = .openBrace ∨ k = .openBracket

theorem isLoose_of_mem_bracketsBehind {opened : List Kind} {k : Kind} (loose : ∀ l ∈ opened, IsLoose l) :
    ∀ l ∈ bracketsBehind opened k, IsLoose l := by
  intro l member
  unfold bracketsBehind at member
  split at member
  · exact (List.mem_cons.mp member).elim Or.inl (loose l)
  · exact (List.mem_cons.mp member).elim Or.inr (loose l)
  · exact loose l (List.mem_cons_of_mem _ member)
  · exact loose l (List.mem_cons_of_mem _ member)
  · exact loose l member

theorem isLoose_of_mem_leftOpen (tokens : List Tree) : ∀ k ∈ leftOpen tokens, IsLoose k :=
  List.foldlRecOn tokens (fun opened t => bracketsBehind opened t.kind)
    (motive := fun opened => ∀ k ∈ opened, IsLoose k) (List.forall_mem_nil _)
    fun _ loose _ _ => isLoose_of_mem_bracketsBehind loose

/-- What opened a container: a node of the tree, whose elements count as entered, or a loose bracket. -/
inductive OpenedBy : Kind → Frame → Prop
  | object (keys : List String) (member : Option Member) : OpenedBy .object (.object keys member)
  | array (index : Nat) : OpenedBy .array (.array index true)
  | brace (keys : List String) (member : Option Member) : OpenedBy .openBrace (.object keys member)
  | bracket (index : Nat) : OpenedBy .openBracket (.array index false)

theorem Touched.openedBy {a b : Frames} {kinds : List Kind} (touched : Touched a b)
    (opened : List.Forall₂ OpenedBy kinds a) : List.Forall₂ OpenedBy kinds b := by
  cases touched with
  | refl => exact opened
  | object kept =>
    cases opened with
    | cons first others => cases first <;> exact .cons (by constructor) others
  | array =>
    cases opened with
    | cons first others => cases first <;> exact .cons (by constructor) others

section Opened

variable {kinds : List Kind} {opened : Frames}

theorem closeObject_length (frames : Frames) : frames.closeObject frames.length = frames := by
  unfold Frames.closeObject
  split
  · rw [if_neg (by simp)]
  · rfl

theorem closeArray_length (frames : Frames) : frames.closeArray frames.length = frames := by
  unfold Frames.closeArray
  split
  · rw [if_neg (by simp)]
  · rfl

/-- A token opens and closes containers like brackets do. Those that were there before the replay stay. -/
theorem apply_opened (d : Document) (token : Tree) (under : Frames) (loose : ∀ k ∈ kinds, IsLoose k)
    (own : List.Forall₂ OpenedBy kinds opened) :
    ∃ opened' under', apply d under.length token (opened ++ under) = opened' ++ under' ∧ Touched under under' ∧
      List.Forall₂ OpenedBy (bracketsBehind kinds token.kind) opened' := by
  cases kind : token.kind with
  | openBrace =>
    obtain ⟨opened', under', split, inside, below⟩ := (touched_startValue (opened ++ under)).split
    refine ⟨.object [] none :: opened', under', ?_, below, .cons (.brace [] none) (inside.openedBy own)⟩
    simp only [apply, kind, split, List.cons_append]
  | openBracket =>
    obtain ⟨opened', under', split, inside, below⟩ := (touched_startValue (opened ++ under)).split
    refine ⟨.array 0 false :: opened', under', ?_, below, .cons (.bracket 0) (inside.openedBy own)⟩
    simp only [apply, kind, split, List.cons_append]
  | closeBrace =>
    have closes : apply d under.length token (opened ++ under) = (opened ++ under).closeObject under.length := by
      simp only [apply, kind]
    rw [closes]
    -- With none of its own containers left, a replay closes none of those that were there.
    cases own with
    | nil => exact ⟨[], under, closeObject_length under, .refl under, .nil⟩
    | @cons opener frame kinds opened opens others =>
      cases opens with
      | brace keys member => exact ⟨opened, under, if_pos (by simp), .refl under, others⟩
      | bracket index => exact ⟨_, under, rfl, .refl under, .cons (.bracket index) others⟩
      | object | array => simp [IsLoose] at loose
  | closeBracket =>
    have closes : apply d under.length token (opened ++ under) = (opened ++ under).closeArray under.length := by
      simp only [apply, kind]
    rw [closes]
    cases own with
    | nil => exact ⟨[], under, closeArray_length under, .refl under, .nil⟩
    | @cons opener frame kinds opened opens others =>
      cases opens with
      | brace keys member => exact ⟨_, under, rfl, .refl under, .cons (.brace keys member) others⟩
      | bracket index => exact ⟨opened, under, if_pos (by simp), .refl under, others⟩
      | object | array => simp [IsLoose] at loose
  | _ =>
    have plain : ¬token.kind.isBracket := by simp [kind, Kind.isBracket]
    have touched : Touched (opened ++ under) (apply d under.length token (opened ++ under)) := touched_apply plain _
    obtain ⟨opened', under', split, inside, below⟩ := touched.split
    have same := bracketsBehind_of_plain plain kinds
    rw [kind] at same
    exact ⟨opened', under', split, below, same ▸ inside.openedBy own⟩

theorem foldl_apply_opened (d : Document) (tokens : List Tree) (under : Frames) (loose : ∀ k ∈ kinds, IsLoose k)
    (own : List.Forall₂ OpenedBy kinds opened) :
    ∃ opened' under', tokens.foldl (fun fs t => apply d under.length t fs) (opened ++ under) = opened' ++ under' ∧
      Touched under under' ∧
      List.Forall₂ OpenedBy (tokens.foldl (fun behind t => bracketsBehind behind t.kind) kinds) opened' := by
  induction tokens generalizing kinds opened under with
  | nil => exact ⟨opened, under, rfl, .refl under, own⟩
  | cons t tokens ih =>
    obtain ⟨opened₁, under₁, step, below, own₁⟩ := apply_opened d t under loose own
    obtain ⟨opened', under', run, below', own'⟩ := ih under₁ (isLoose_of_mem_bracketsBehind loose) own₁
    rw [below.length_eq] at run
    rw [List.foldl_cons, step, run]
    exact ⟨opened', under', rfl, below.trans below', own'⟩

/-- A replay keeps the containers that there are and opens one for each loose bracket that is not closed again. -/
theorem replay_opened (d : Document) (t : Tree) (boundary : Nat) (frames : Frames) :
    ∃ opened frames', replay d t boundary frames = opened ++ frames' ∧ Touched frames frames' ∧
      List.Forall₂ OpenedBy (leftOpen (replayed boundary t)) opened := by
  rw [replay_eq_foldl]
  exact foldl_apply_opened d (replayed boundary t) frames (List.forall_mem_nil _) (.nil : List.Forall₂ _ [] [])

end Opened

/-- What is open behind a node of the chain, given what is open in front of it. -/
def opensIn (boundary : Nat) (t : Tree) (outer : List Kind) : List Kind :=
  match t.kind with
  | .object | .array => leftOpen (replayed boundary t) ++ t.kind :: outer
  | .document | .error => leftOpen (replayed boundary t) ++ outer
  | _ => outer

def openers (offset : Nat) : List Tree → List Kind → List Kind
  | [], outer => outer
  | t :: rest, outer => openers offset rest (opensIn ((rest.head?.map Tree.start).getD offset) t outer)

/-- What opened each of the containers around a place, the innermost first: an object or array of the tree, or a
brace or bracket that stands loose. -/
def openersAt (d : Document) (offset : Nat) : List Kind := openers offset (d.chainAt offset) []

/-- The containers behind some nodes of a chain, which goes on with `next`. -/
def entered (d : Document) (offset : Nat) : Option Kind → List Tree → Option Tree → Frames → Frames
  | _, [], _, frames => frames
  | outer, t :: rest, next, frames =>
    entered d offset (some t.kind) rest next (enter d offset outer t (rest.head?.or next) frames)

section Entering

variable {d : Document} {offset : Nat} {t : Tree} {next : Option Tree} {kinds : List Kind} {frames : Frames}

theorem entered_concat (outer : Option Kind) (before : List Tree) :
    entered d offset outer (before ++ [t]) next frames =
      enter d offset ((before.getLast?.map Tree.kind).or outer) t next
        (entered d offset outer before (some t) frames) := by
  induction before generalizing outer frames with
  | nil => rfl
  | cons u before ih =>
    rw [List.cons_append, entered, ih, entered, List.getLast?_cons]
    cases before with
    | nil => rfl
    | cons v before => simp [List.getLast?_cons]

/-- All of a chain is entered in the end. -/
theorem entered_all (outer : Option Kind) (chain : List Tree) :
    entered d offset outer chain none frames = enterAll d offset outer chain frames := by
  induction chain generalizing outer frames with
  | nil => rfl
  | cons t rest ih => rw [entered, ih, Option.or_none, enterAll]

theorem locate_eq_entered : locate d offset = entered d offset none (d.chainAt offset) none [] :=
  (entered_all none _).symm

theorem replay_openedBy (boundary : Nat) (own : List.Forall₂ OpenedBy kinds frames) :
    List.Forall₂ OpenedBy (leftOpen (replayed boundary t) ++ kinds) (replay d t boundary frames) := by
  obtain ⟨opened, frames', split, below, loose⟩ := replay_opened d t boundary frames
  rw [split]
  exact List.rel_append loose (below.openedBy own)

theorem enter_openedBy (outer : Option Kind) (named : t.isNamed) (inside : t.kind = .array → next.isSome)
    (own : List.Forall₂ OpenedBy kinds frames) :
    List.Forall₂ OpenedBy (opensIn ((next.map Tree.start).getD offset) t kinds)
      (enter d offset outer t next frames) := by
  have started := (touched_startValue frames).openedBy own
  unfold enter opensIn
  cases kind : t.kind with
  | object => exact replay_openedBy _ (.cons (.object _ _) started)
  | array =>
    simp only [inside kind]
    exact replay_openedBy _ (.cons (.array 0) started)
  | document | error => exact replay_openedBy _ own
  | pair => exact (touched_enterPair d t next offset frames).openedBy own
  | openBrace | openBracket | closeBrace | closeBracket | comma | colon | quote =>
    simp [Tree.isNamed, kind, Kind.isNamed] at named
  | _ =>
    have plain : ¬t.kind.isBracket := by simp [kind, Kind.isBracket]
    dsimp only
    split
    · exact own
    · exact (touched_apply plain frames).openedBy own

theorem enterAll_openedBy (outer : Option Kind) {chain : List Tree} (named : ∀ t ∈ chain, t.isNamed)
    (last : ∀ t ∈ chain.getLast?, t.kind ≠ .array) (own : List.Forall₂ OpenedBy kinds frames) :
    List.Forall₂ OpenedBy (openers offset chain kinds) (enterAll d offset outer chain frames) := by
  induction chain generalizing outer kinds frames with
  | nil => exact own
  | cons t rest ih =>
    obtain ⟨first, others⟩ := List.forall_mem_cons.mp named
    have inside : t.kind = .array → rest.head?.isSome := by
      intro array
      cases rest with
      | nil => exact absurd array (last t rfl)
      | cons => rfl
    refine ih _ others (fun u isLast => last u ?_) (enter_openedBy outer first inside own)
    rw [List.getLast?_cons, isLast]
    rfl

end Entering

/-- The containers around a place are those that `openersAt` lists, unless the place is right in an array. -/
theorem locate_openedBy {d : Document} {offset : Nat} (root : d.root.isNamed)
    (last : ∀ t ∈ (d.chainAt offset).getLast?, t.kind ≠ .array) :
    List.Forall₂ OpenedBy (openersAt d offset) (locate d offset) :=
  enterAll_openedBy none (fun _ member => Tree.isNamed_of_mem_chain root member) last .nil

end Cursor

end JsonAssist
