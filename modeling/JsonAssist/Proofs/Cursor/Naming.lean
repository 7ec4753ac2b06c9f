import Mathlib.Data.List.Pairwise
import JsonAssist.Proofs.Cursor.Located
import JsonAssist.Proofs.Cursor.Runs

namespace JsonAssist.Cursor

open Syntax

/-- A place in an object that is behind the colon of none of its pairs. No container in the object is
around such a place, for containers stand behind colons. -/
structure AtName (object : Tree) (offset : Nat) : Prop where
  isObject : object.kind = .object
  starts : object.start ≤ offset
  stops : offset < object.stop
  free : ∀ pair ∈ object.children, pair.kind = .pair → pair.start ≤ offset → offset < pair.stop →
    ∀ colon ∈ pair.children, colon.kind = .colon → offset < colon.stop

/-- Whether a place is in the range of a node. -/
def isAround (offset : Nat) (t : Tree) : Bool := t.start ≤ offset && offset < t.stop

/-- The pair of an object around a place. -/
def pairAt? (object : Tree) (offset : Nat) : Option Tree :=
  object.children.find? fun c => c.kind = .pair && isAround offset c

/-- The names in an object that are written elsewhere than around a place. -/
def otherNames (d : Document) (object : Tree) (offset : Nat) : List String :=
  namesOf d (object.children.filter fun c => !isAround offset c)

section Names

variable {d : Document} {object p q : Tree} {offset : Nat} {name : String}

theorem mem_namesOf {ts : List Tree} : name ∈ namesOf d ts ↔ ∃ t ∈ ts, d.pairKey? t = some name :=
  List.mem_filterMap

/-- Names that differ from each other and from those known are added in their order. -/
theorem foldl_addKey_of_nodup {keys new : List String} (distinct : (keys ++ new).Nodup) :
    new.foldl addKey keys = keys ++ new := by
  induction new generalizing keys with
  | nil => simp
  | cons first new ih =>
    have fresh : first ∉ keys := fun known =>
      (List.nodup_append.mp distinct).2.2 first known first List.mem_cons_self rfl
    rw [List.foldl_cons, addKey, if_neg fresh, ih (by simpa using distinct), List.append_assoc,
      List.singleton_append]

/-- The names of an object in which no error stands are those of its pairs. -/
theorem objectKeys_eq (noError : ∀ c ∈ object.children, c.kind ≠ .error)
    (distinct : (namesOf d object.children).Nodup) : objectKeys d object = namesOf d object.children := by
  have added : objectKeys d object = (namesOf d object.children).foldl addKey [] := by
    rw [objectKeys, Tree.namedChildren, List.foldl_filter, namesOf, List.foldl_filterMap]
    refine List.foldl_ext _ _ [] fun keys c member => ?_
    by_cases pair : c.kind = .pair
    · cases d.pairKey? c <;> simp [Tree.isNamed, pair, Kind.isNamed]
    · have noName : d.pairKey? c = none := pairKey?_of_ne rfl pair
      cases kind : c.kind <;> simp_all
  rw [added, foldl_addKey_of_nodup (by simpa using distinct), List.nil_append]

/-- Where no two nodes have a property, those that have it are one node. -/
theorem eq_of_not_both {P : Tree → Prop} {ts : List Tree} (apart : ts.Pairwise fun a b => ¬(P a ∧ P b))
    (inLeft : p ∈ ts) (inRight : q ∈ ts) (left : P p) (right : P q) : p = q := by
  have : Std.Symm fun a b => ¬(P a ∧ P b) := ⟨fun _ _ => mt And.symm⟩
  by_contra different
  exact apart.forall inLeft inRight different ⟨left, right⟩

theorem eq_of_isAround (sound : object.WellFormed) (inLeft : p ∈ object.children) (inRight : q ∈ object.children)
    (left : isAround offset p) (right : isAround offset q) : p = q := by
  refine eq_of_not_both (P := (isAround offset ·)) (sound.order.imp fun before => ?_) inLeft inRight left right
  simp only [isAround, Bool.and_eq_true, decide_eq_true_eq]
  omega

theorem eq_of_pairKey? {ts : List Tree} (distinct : (namesOf d ts).Nodup) (inLeft : p ∈ ts) (inRight : q ∈ ts)
    (left : d.pairKey? p = some name) (right : d.pairKey? q = some name) : p = q :=
  eq_of_not_both ((List.pairwise_filterMap.mp distinct).imp fun different both =>
    different name both.1 name both.2 rfl) inLeft inRight left right

/-- The pair around a place is the one whose name does not count as written elsewhere. -/
theorem isAround_iff (sound : object.WellFormed) (distinct : (namesOf d object.children).Nodup)
    (member : q ∈ object.children) (named : d.pairKey? q = some name) :
    isAround offset q ↔ (pairAt? object offset).bind d.pairKey? = some name := by
  refine ⟨fun around => ?_, fun found => ?_⟩
  · have isPair := Document.kind_of_pairKey? named
    have exists' : (pairAt? object offset).isSome :=
      List.find?_isSome.mpr ⟨q, member, by simp [isPair, around]⟩
    obtain ⟨p, found⟩ := Option.isSome_iff_exists.mp exists'
    have passes := List.find?_some found
    simp only [Bool.and_eq_true] at passes
    rw [found, eq_of_isAround sound (List.mem_of_find?_eq_some found) member passes.2 around]
    exact named
  · obtain ⟨p, found, named'⟩ := Option.bind_eq_some_iff.mp found
    have passes := List.find?_some found
    simp only [Bool.and_eq_true] at passes
    exact eq_of_pairKey? distinct (List.mem_of_find?_eq_some found) member named' named ▸ passes.2

/-- Of the names of an object, those of the pairs that are not around a place are taken there. -/
theorem mem_otherNames (sound : object.WellFormed) (distinct : (namesOf d object.children).Nodup) :
    name ∈ otherNames d object offset ↔
      name ∈ namesOf d object.children ∧ (pairAt? object offset).bind d.pairKey? ≠ some name := by
  simp only [otherNames, mem_namesOf, List.mem_filter]
  refine ⟨fun ⟨q, ⟨member, apart⟩, named⟩ => ?_, fun ⟨⟨q, member, named⟩, other⟩ => ?_⟩
  · exact ⟨⟨q, member, named⟩, fun found => by
      simp [(isAround_iff sound distinct member named).mpr found] at apart⟩
  · refine ⟨q, ⟨member, ?_⟩, named⟩
    simpa using mt (isAround_iff sound distinct member named).mp other

end Names

section Entering

variable {d : Document} {offset : Nat} {p : Tree} {key : String} {frames : Frames} {keys : List String}
  {member : Option Member}

/-- Up to the colon of a pair, the chain goes no further than to the name. -/
theorem chain_of_pair (sound : p.WellFormed) (pair : p.kind = .pair)
    (free : ∀ colon ∈ p.children, colon.kind = .colon → offset < colon.stop) :
    p.chain offset = [p] ∨ ∃ name, p.key? = some name ∧ name.kind = .string ∧ p.chain offset = [p, name] := by
  obtain ⟨name, front, colon, back, value, children, parts, isString, isColon, isValue, inFront, inBack⟩ :=
    sound.pair_children pair
  by_cases onName : name.start ≤ offset ∧ offset < name.stop
  · right
    refine ⟨name, by simp [Tree.key?, pair, parts], isString, ?_⟩
    rw [sound.chain_of_child (c := name) (by simp [children]) (Or.inl (by simp [isString, Kind.isValue]))
      onName.1 onName.2, Tree.chain_of_leaf (by simp [Tree.isLeaf, isString, Kind.isLeaf])]
  · left
    refine sound.chain_eq_self fun c member named notComment within => ?_
    have valued : p.value? = some value := by simp [Tree.value?, pair, parts]
    obtain ⟨_, colon', _, _, _, inPair, isColon', colonEnds⟩ := sound.before_value valued
    have before := free colon' inPair isColon'
    rw [children] at member
    simp only [List.mem_cons, List.mem_append, List.not_mem_nil, or_false] at member
    rcases member with rfl | inFront' | rfl | inBack' | rfl
    · exact onName within
    · exact notComment (inFront c inFront')
    · simp [Tree.isNamed, isColon, Kind.isNamed] at named
    · exact notComment (inBack c inBack')
    · omega

/-- Up to its colon, a pair is at hand with its name. -/
theorem enterAll_pair (sound : p.WellFormed) (named : d.pairKey? p = some key)
    (free : ∀ colon ∈ p.children, colon.kind = .colon → offset < colon.stop) (outer : Option Kind) :
    enterAll d offset outer (p.chain offset) (.object keys member :: frames) =
      .object keys (some ⟨key, .name⟩) :: frames := by
  have pair := Document.kind_of_pairKey? named
  rcases chain_of_pair sound pair free with chain | ⟨name, own, isString, chain⟩
  · have noColon : ¬colonBefore p offset := fun behind => by
      obtain ⟨colon, inPair, passes⟩ := List.any_eq_true.mp behind
      simp only [Bool.and_eq_true, beq_iff_eq, decide_eq_true_eq] at passes
      have := free colon inPair passes.1.1
      omega
    simp [chain, enterAll, enter, pair, enterPair, named, noColon]
  · exact enterAll_name named own isString chain outer

/-- At a place where a name stands or may be written, the innermost container is the object with all its
names; at hand is the name of the pair around the place, if there is one. -/
theorem enterAll_at_name {object : Tree} {path : Path} (sound : object.WellFormed) (place : AtName object offset)
    (reads : Reads frames path) (outer : Option Kind) :
    enterAll d offset outer (object.chain offset) frames =
      .object (objectKeys d object) (((pairAt? object offset).bind d.pairKey?).map fun key => ⟨key, .name⟩) ::
        frames := by
  cases found : pairAt? object offset with
  | none =>
    have chain : object.chain offset = [object] := by
      refine sound.chain_eq_self fun c inObject named notComment within => ?_
      have held := sound.form.mayHold inObject
      have pair : c.kind = .pair := by
        cases kind : c.kind <;> simp_all [place.isObject, Kind.mayHold, Tree.isNamed, Kind.isNamed]
      have passed := List.find?_eq_none.mp found c inObject
      simp [pair, isAround, within] at passed
    rw [chain]
    simp only [enterAll, enter_object sound place.isObject reads]
    rfl
  | some p =>
    have inObject := List.mem_of_find?_eq_some found
    have passes := List.find?_some found
    simp only [isAround, Bool.and_eq_true, decide_eq_true_eq] at passes
    obtain ⟨pair, starts, stops⟩ := passes
    have ofPair := sound.child inObject
    obtain ⟨_, key, _, _, named⟩ := ofPair.exists_pairKey pair d
    have chain := sound.chain_of_child inObject (Or.inr pair) starts stops
    rw [enterAll_chain outer chain, enter_object sound place.isObject reads,
      enterAll_pair ofPair named (place.free p inObject pair starts stops), Option.bind_some, named]
    rfl

end Entering

section Documents

variable {d : Document} {offset : Nat} {object top : Tree} {path : Path}

theorem locate_at_name (sound : d.root.WellFormed) (document : d.root.kind = .document)
    (inRoot : top ∈ d.root.children) (leads : Leads d top path object) (place : AtName object offset) :
    ∃ outer, Reads outer path ∧ locate d offset = .object (objectKeys d object)
      (((pairAt? object offset).bind d.pairKey?).map fun key => ⟨key, .name⟩) :: outer := by
  have ofObject := (leads.inside (sound.child inRoot)).1
  have isValue := Kind.isValue_of_container (Or.inl place.isObject)
  obtain ⟨_, outer, frames, _, located, reads, _⟩ :=
    locate_leads sound document inRoot leads isValue place.starts place.stops
  exact ⟨frames, reads, located.trans (enterAll_at_name ofObject place reads outer)⟩

theorem takenKeys_of_name (keys : List String) (atHand : Option String) (frames : Frames) :
    takenKeys (.object keys (atHand.map fun key => ⟨key, .name⟩) :: frames) =
      keys.filter fun key => atHand ≠ some key := by
  cases atHand with
  | none => simp [takenKeys, nearestKeys?]
  | some key =>
    refine List.filter_congr fun other _ => ?_
    rw [Bool.eq_iff_iff, bne_iff_ne, decide_eq_true_eq, ne_comm, Ne, Ne, Option.some_inj]

/-- At a place where a name stands or may be written, completion goes to the object and knows all its names;
those of the pairs that are not around the place are taken. -/
theorem context_at_name (sound : d.root.WellFormed) (document : d.root.kind = .document)
    (inRoot : top ∈ d.root.children) (leads : Leads d top path object) (place : AtName object offset)
    (distinct : (namesOf d object.children).Nodup) :
    completionPathAt d offset = path ∧ existingKeysAt d offset = namesOf d object.children ∧
      (contextAt d offset).slot = .property ∧
      ∀ name, name ∈ (contextAt d offset).existing ↔ name ∈ otherNames d object offset := by
  have ofObject := (leads.inside (sound.child inRoot)).1
  obtain ⟨outer, reads, located⟩ := locate_at_name sound document inRoot leads place
  have keys : objectKeys d object = namesOf d object.children :=
    objectKeys_eq (fun c member => (ofObject.child member).ne_error) distinct
  have naming : slotOf (locate d offset) = .property := by
    rw [located]
    cases (pairAt? object offset).bind d.pairKey? <;> rfl
  refine ⟨?_, ?_, naming, fun name => ?_⟩
  · rw [completionPathAt, located, reads.pathThrough_cons]
    cases (pairAt? object offset).bind d.pairKey? <;> exact List.append_nil path
  · rw [existingKeysAt, located, ← keys]
    rfl
  · rw [mem_otherNames ofObject distinct]
    simp only [contextAt, naming]
    rw [located, takenKeys_of_name, keys, List.mem_filter, decide_eq_true_eq]

end Documents

end JsonAssist.Cursor
