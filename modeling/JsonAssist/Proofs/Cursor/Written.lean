import JsonAssist.Proofs.Cursor.Opened

namespace JsonAssist.Cursor

open Syntax

/-- The name of the member at hand is among the names of the object, or it is a stray one. -/
def IsLinked (stray : String → Prop) : Frame → Prop
  | .object keys member => ∀ m, member = some m → m.key ∈ keys ∨ stray m.key
  | .array _ _ => True

/-- All objects among the containers are linked to their members. -/
def Linked (stray : String → Prop) (frames : Frames) : Prop := ∀ frame ∈ frames, IsLinked stray frame

section Tokens

variable {stray : String → Prop} {d : Document} {base : Nat} {frames : Frames}

theorem Linked.cons {frame : Frame} (first : IsLinked stray frame) (others : Linked stray frames) :
    Linked stray (frame :: frames) :=
  List.forall_mem_cons.mpr ⟨first, others⟩

theorem isLinked_none (keys : List String) : IsLinked stray (.object keys none) :=
  fun _ none => nomatch none

theorem isLinked_some {keys : List String} {key : String} (known : key ∈ keys ∨ stray key) (part : Part) :
    IsLinked stray (.object keys (some ⟨key, part⟩)) :=
  fun _ same => Option.some.inj same ▸ known

theorem isLinked_addKey (keys : List String) (key : String) (part : Part) :
    IsLinked stray (.object (addKey keys key) (some ⟨key, part⟩)) :=
  isLinked_some (Or.inl (mem_addKey.mpr (Or.inr rfl))) part

/-- Another part of the same member. -/
theorem IsLinked.part {keys : List String} {key : String} {part : Part}
    (linked : IsLinked stray (.object keys (some ⟨key, part⟩))) (other : Part) :
    IsLinked stray (.object keys (some ⟨key, other⟩)) :=
  isLinked_some (linked ⟨key, part⟩ rfl) other

theorem linked_startValue (linked : Linked stray frames) : Linked stray frames.startValue := by
  unfold Frames.startValue
  split
  · obtain ⟨first, others⟩ := List.forall_mem_cons.mp linked
    exact .cons (first.part .value) others
  · exact linked

theorem linked_seeString (text : String) (linked : Linked stray frames) : Linked stray (frames.seeString text) := by
  unfold Frames.seeString
  split
  · exact .cons (isLinked_addKey _ text .name) (List.forall_mem_cons.mp linked).2
  · obtain ⟨first, others⟩ := List.forall_mem_cons.mp linked
    exact .cons (first.part .value) others
  · exact linked

theorem linked_seeComma (linked : Linked stray frames) : Linked stray frames.seeComma := by
  unfold Frames.seeComma
  split
  · exact .cons (isLinked_none _) (List.forall_mem_cons.mp linked).2
  · exact .cons trivial (List.forall_mem_cons.mp linked).2
  · exact linked

theorem linked_seeColon (linked : Linked stray frames) : Linked stray frames.seeColon := by
  unfold Frames.seeColon
  split
  · obtain ⟨first, others⟩ := List.forall_mem_cons.mp linked
    exact .cons (first.part .pending) others
  · exact linked

theorem linked_seePair (pair : Tree) (linked : Linked stray frames) : Linked stray (seePair d pair frames) := by
  unfold seePair
  split
  · have others := (List.forall_mem_cons.mp linked).2
    split
    · exact .cons (isLinked_none _) others
    · refine .cons ?_ others
      split
      · exact isLinked_addKey _ _ .pending
      · exact isLinked_none _
  · exact linked

theorem linked_closeObject (linked : Linked stray frames) : Linked stray (frames.closeObject base) := by
  unfold Frames.closeObject
  split
  · split
    · exact (List.forall_mem_cons.mp linked).2
    · exact linked
  · exact linked

theorem linked_closeArray (linked : Linked stray frames) : Linked stray (frames.closeArray base) := by
  unfold Frames.closeArray
  split
  · split
    · exact (List.forall_mem_cons.mp linked).2
    · exact linked
  · exact linked

/-- Each token that gives an object a member also gives it the name. -/
theorem linked_apply (token : Tree) (linked : Linked stray frames) : Linked stray (apply d base token frames) := by
  have started := linked_startValue linked
  unfold apply
  split
  · exact .cons (isLinked_none []) started
  · exact .cons trivial started
  · exact linked_closeObject linked
  · exact linked_closeArray linked
  · exact linked_seeComma linked
  · exact linked_seeColon linked
  · split
    · exact linked_seeString _ linked
    · exact linked
  · split
    · exact linked_seeString _ linked
    · exact linked
  · exact linked_seePair token linked
  · exact started
  · exact started
  · exact started
  · exact started
  · exact started
  · exact started
  · exact linked

theorem linked_replay (t : Tree) (boundary : Nat) (linked : Linked stray frames) :
    Linked stray (replay d t boundary frames) := by
  rw [replay_eq_foldl]
  exact List.foldlRecOn _ _ linked fun _ linked token _ => linked_apply token linked

end Tokens

/-- The pair on the way to a place counts among those of an object of the tree: it is right in the object or in an
error of it, and no loose bracket is open between the two. -/
def Settled (before : List Tree) (pair : Tree) : Prop :=
  ∃ front object, object.kind = .object ∧
    (before = front ++ [object] ∧ leftOpen (replayed pair.start object) = [] ∨
      ∃ error, error.kind = .error ∧ before = front ++ [object, error] ∧
        leftOpen (replayed error.start object) = [] ∧ leftOpen (replayed pair.start error) = [])

/-- The name of a pair on the way to a place that is not settled. -/
def Stray (d : Document) (offset : Nat) (key : String) : Prop :=
  ∃ before pair after, d.chainAt offset = before ++ pair :: after ∧ d.pairKey? pair = some key ∧ ¬Settled before pair

section Settled

variable {d : Document} {offset boundary : Nat} {t pair : Tree} {next : Option Tree} {frames : Frames} {key : String}

/-- The innermost container is an object that has a name. -/
def HasName (key : String) (frames : Frames) : Prop :=
  ∃ keys member outer, frames = .object keys member :: outer ∧ key ∈ keys

theorem Touched.hasName {a b : Frames} (touched : Touched a b) (has : HasName key a) : HasName key b := by
  obtain ⟨keys, member, outer, rfl, known⟩ := has
  cases touched with
  | refl => exact ⟨keys, member, outer, rfl, known⟩
  | object kept => exact ⟨_, _, _, rfl, kept known⟩

/-- A replay that leaves no loose bracket open keeps the innermost container. -/
theorem hasName_replay (closed : leftOpen (replayed boundary t) = []) (has : HasName key frames) :
    HasName key (replay d t boundary frames) := by
  obtain ⟨opened, frames', split, below, loose⟩ := replay_opened d t boundary frames
  rw [closed] at loose
  cases loose
  exact split ▸ below.hasName has

/-- In front of a settled pair the innermost container has its name. -/
theorem hasName_of_settled {before after : List Tree} (chain : d.chainAt offset = before ++ pair :: after)
    (named : d.pairKey? pair = some key) (settled : Settled before pair) (outer : Option Kind) :
    HasName key (entered d offset outer before (some pair) []) := by
  have isPair := Document.kind_of_pairKey? named
  obtain ⟨front, object, isObject, ⟨rfl, closed⟩ | ⟨error, isError, rfl, closed, closedInError⟩⟩ := settled
  · rw [List.append_assoc] at chain
    have inObject := (Tree.crosses_of_chain chain).1
    have known := mem_objectKeys inObject isPair named
    rw [entered_concat, enter, isObject]
    exact hasName_replay closed ⟨_, none, _, rfl, known⟩
  · have toError : d.chainAt offset = front ++ object :: error :: pair :: after := by simpa using chain
    have toPair : d.chainAt offset = (front ++ [object]) ++ error :: pair :: after := by simpa using chain
    have inObject := (Tree.crosses_of_chain toError).1
    have inError := (Tree.crosses_of_chain toPair).1
    have known := mem_objectKeys_of_child inObject (Or.inr ⟨isError, pair, inError, isPair, named⟩)
    rw [List.append_cons front object [error], entered_concat, entered_concat, enter, isError]
    refine hasName_replay closedInError ?_
    rw [enter, isObject]
    exact hasName_replay closed ⟨_, none, _, rfl, known⟩

theorem linked_enterPair {stray : String → Prop} (linked : Linked stray frames)
    (known : ∀ key, d.pairKey? pair = some key → stray key ∨ HasName key frames) :
    Linked stray (enterPair d pair next offset frames) := by
  unfold enterPair
  split
  next keys _ outer =>
    have others := (List.forall_mem_cons.mp linked).2
    split
    · exact .cons (isLinked_none keys) others
    next key named =>
      refine .cons (isLinked_some ?_ _) others
      rcases known key named with stray | ⟨keys', _, _, same, inKeys⟩
      · exact Or.inr stray
      · obtain ⟨⟨rfl, _⟩, _⟩ := by simpa using same
        exact Or.inl inKeys
  next => exact linked

theorem linked_enter {stray : String → Prop} (outer : Option Kind) (linked : Linked stray frames)
    (known : ∀ key, d.pairKey? t = some key → stray key ∨ HasName key frames) :
    Linked stray (enter d offset outer t next frames) := by
  have started := linked_startValue linked
  unfold enter
  split
  · exact linked_replay t _ (.cons (isLinked_none _) started)
  · exact linked_replay t _ (.cons trivial started)
  · exact linked_enterPair linked known
  · exact linked_replay t _ linked
  · exact linked_replay t _ linked
  · split
    · exact linked
    · exact linked_apply t linked

/-- On the whole way to a place the members at hand are linked, whatever nodes the way goes through. -/
theorem linked_entered {before after : List Tree} (chain : d.chainAt offset = before ++ after) :
    Linked (Stray d offset) (entered d offset none before after.head? []) := by
  -- Downwards from the root: only a pair needs to know what it stands in.
  induction before using List.reverseRecOn generalizing after with
  | nil => exact List.forall_mem_nil _
  | append_singleton front t ih =>
    rw [List.append_assoc, List.singleton_append] at chain
    rw [entered_concat]
    refine linked_enter _ (ih chain) fun key named => ?_
    by_cases settled : Settled front t
    · exact Or.inr (hasName_of_settled chain named settled none)
    · exact Or.inl ⟨front, t, after, chain, named, settled⟩

end Settled

/-- In every syntax tree and at every place, the member at hand is linked. -/
theorem linked_locate (d : Document) (offset : Nat) : Linked (Stray d offset) (locate d offset) := by
  rw [locate_eq_entered]
  exact linked_entered (List.append_nil _).symm

/-- The innermost containers are arrays up to an object, which adds the name of its member to the path to the place,
or to the path of completion. -/
def Contributes (completion : Bool) (frames : Frames) (key : String) : Prop :=
  ∃ arrays keys member outer, frames = arrays ++ .object keys member :: outer ∧
    (∀ frame ∈ arrays, ∃ index onElement, frame = .array index onElement) ∧
    stepInto completion arrays.isEmpty (.object keys member) = some (.key key)

theorem nearestKeys?_append {arrays : Frames}
    (all : ∀ frame ∈ arrays, ∃ index onElement, frame = .array index onElement) (keys : List String)
    (member : Option Member) (outer : Frames) :
    nearestKeys? (arrays ++ .object keys member :: outer) = some keys := by
  induction arrays with
  | nil => rfl
  | cons frame arrays ih =>
    obtain ⟨⟨index, onElement, rfl⟩, others⟩ := List.forall_mem_cons.mp all
    exact ih others

theorem member_of_stepInto {completion innermost : Bool} {keys : List String} {member : Option Member} {key : String}
    (step : stepInto completion innermost (.object keys member) = some (.key key)) :
    ∃ m, member = some m ∧ m.key = key := by
  cases member with
  | none => simp [stepInto] at step
  | some m =>
    obtain ⟨_, same⟩ := Option.ite_none_right_eq_some.mp step
    exact ⟨m, rfl, by simpa using same⟩

/-- The name of the member at hand is among the names of its object in every container around a place, and so is a
name that the nearest object adds to a path, unless it is the name of a pair on the way to the place that does not
count among those of an object of the tree: a pair behind a loose brace, or in an error within an error. -/
theorem member_written (d : Document) (offset : Nat) :
    (∀ keys member, .object keys (some member) ∈ locate d offset →
        member.key ∈ keys ∨ Stray d offset member.key) ∧
      ∀ completion key, Contributes completion (locate d offset) key →
        key ∈ existingKeysAt d offset ∨ Stray d offset key := by
  have linked := linked_locate d offset
  refine ⟨fun keys member inFrames => linked _ inFrames member rfl, fun completion key contributes => ?_⟩
  obtain ⟨arrays, keys, member, outer, frames, all, step⟩ := contributes
  obtain ⟨m, rfl, rfl⟩ := member_of_stepInto step
  have inFrames : .object keys (some m) ∈ locate d offset := frames ▸ List.mem_append_right _ List.mem_cons_self
  rw [existingKeysAt, frames, nearestKeys?_append all]
  exact linked _ inFrames m rfl

theorem locate_unclosed : locate (.parse "\x7b\"a\":1,") 5 = [.object [] (some ⟨"a", .value⟩)] := by decide +kernel

/-- A member whose object is not closed yet: its brace is loose, and a comma stands behind the member. -/
theorem member_written_of_stray :
    let d := Document.parse "\x7b\"a\":1,"
    locate d 5 = [.object [] (some ⟨"a", .value⟩)] ∧ Contributes false (locate d 5) "a" ∧ Stray d 5 "a" := by
  intro d
  have located : locate d 5 = [.object [] (some ⟨"a", .value⟩)] := locate_unclosed
  have contributes : Contributes false (locate d 5) "a" := ⟨[], [], _, [], located, List.forall_mem_nil _, rfl⟩
  refine ⟨located, contributes, ((member_written d 5).2 false "a" contributes).resolve_left ?_⟩
  rw [existingKeysAt, located]
  exact List.not_mem_nil

/-- The name of the member at hand need not be among the names of its object. -/
theorem not_member_written : ¬∀ (d : Document) (offset : Nat),
    (∀ keys member, .object keys (some member) ∈ locate d offset → member.key ∈ keys) ∧
      ∀ completion key, Contributes completion (locate d offset) key → key ∈ existingKeysAt d offset := by
  intro written
  have inFrames := locate_unclosed ▸ List.mem_singleton_self (Frame.object [] (some ⟨"a", .value⟩))
  exact List.not_mem_nil ((written _ 5).1 [] ⟨"a", .value⟩ inFrames)

end JsonAssist.Cursor
