import Mathlib.Data.List.Induction
import JsonAssist.Proofs.Cursor.Replay
import JsonAssist.Proofs.Syntax.Tokens

namespace JsonAssist.Cursor

open Syntax

/-- What a token must be so that the text stays well formed: behind a name comes a colon, and only there;
behind the value of a member comes a comma or the brace that closes the object. -/
def Fits : Frames → Kind → Prop
  | .object _ (some ⟨_, .name⟩) :: _, k => k = .colon
  | .object _ (some ⟨_, .value⟩) :: _, k => k = .comma ∨ k = .closeBrace
  | _, k => k ≠ .colon

/-- Tokens that fit one after the other lead from some containers to others. -/
inductive Runs (d : Document) : Frames → List Tree → Frames → Prop
  | nil (frames : Frames) : Runs d frames [] frames
  | cons {frames after : Frames} {t : Tree} {ts : List Tree} (fits : Fits frames t.kind)
      (rest : Runs d (apply d 0 t frames) ts after) : Runs d frames (t :: ts) after

namespace Runs

variable {d : Document} {frames middle after : Frames} {ts us : List Tree} {t : Tree}

theorem single (fits : Fits frames t.kind) (step : apply d 0 t frames = after) : Runs d frames [t] after :=
  .cons fits (step ▸ .nil _)

theorem append (first : Runs d frames ts middle) (second : Runs d middle us after) :
    Runs d frames (ts ++ us) after := by
  induction first with
  | nil => exact second
  | cons fits _ ih => exact .cons fits (ih second)

theorem split (runs : Runs d frames (ts ++ us) after) :
    ∃ middle, Runs d frames ts middle ∧ Runs d middle us after := by
  induction ts generalizing frames with
  | nil => exact ⟨frames, .nil frames, runs⟩
  | cons t ts ih =>
    cases runs with
    | cons fits rest =>
      obtain ⟨middle, first, second⟩ := ih rest
      exact ⟨middle, .cons fits first, second⟩

theorem unique (first : Runs d frames ts middle) (second : Runs d frames ts after) : middle = after := by
  induction first with
  | nil => cases second; rfl
  | cons _ _ ih =>
    cases second with
    | cons _ rest => exact ih rest

end Runs

/-- The names of the pairs among some nodes. -/
def namesOf (d : Document) (ts : List Tree) : List String := ts.filterMap d.pairKey?

/-- The member that a pair leaves at hand if it comes last. -/
def memberBehind (d : Document) (ts : List Tree) : Option Member :=
  ts.getLast?.bind fun t => (d.pairKey? t).map fun key => ⟨key, .value⟩

section Behind

variable {d : Document} {t : Tree} (ts : List Tree)

theorem namesOf_concat : namesOf d (ts ++ [t]) = namesOf d ts ++ (d.pairKey? t).toList := by
  cases named : d.pairKey? t <;> simp [namesOf, named]

theorem memberBehind_cons (none : d.pairKey? t = none) : memberBehind d (t :: ts) = memberBehind d ts := by
  rcases List.eq_nil_or_concat ts with rfl | ⟨front, last, rfl⟩
  · simp [memberBehind, none]
  · rw [List.concat_eq_append, memberBehind, memberBehind, ← List.cons_append, List.getLast?_concat,
      List.getLast?_concat]

theorem memberBehind_concat : memberBehind d (ts ++ [t]) = (d.pairKey? t).map fun key => ⟨key, .value⟩ := by
  simp [memberBehind]

end Behind

section Steps

variable {d : Document} {base : Nat} {t : Tree} {frames : Frames} {keys : List String} {key : String}

theorem apply_openBrace (kind : t.kind = .openBrace) :
    apply d base t frames = .object [] none :: frames.startValue := by
  rw [apply, kind]

theorem apply_openBracket (kind : t.kind = .openBracket) :
    apply d base t frames = .array 0 false :: frames.startValue := by
  rw [apply, kind]

theorem apply_closeBrace (kind : t.kind = .closeBrace) {member : Option Member} :
    apply d 0 t (.object keys member :: frames) = frames := by
  simp [apply, kind, Frames.closeObject]

theorem apply_closeBracket (kind : t.kind = .closeBracket) {index : Nat} :
    apply d 0 t (.array index false :: frames) = frames := by
  simp [apply, kind, Frames.closeArray]

theorem apply_comma (kind : t.kind = .comma) : apply d base t frames = frames.seeComma := by
  rw [apply, kind]

theorem apply_colon (kind : t.kind = .colon) : apply d base t frames = frames.seeColon := by
  rw [apply, kind]

theorem apply_string (kind : t.kind = .string) (spelled : d.stringValue? t = some key) :
    apply d base t frames = frames.seeString key := by
  simp only [apply, kind, spelled]

theorem apply_of_container (container : t.kind = .object ∨ t.kind = .array) :
    apply d base t frames = frames.startValue := by
  rcases container with kind | kind <;> rw [apply, kind]

theorem pairKey?_of_ne {k : Kind} (kind : t.kind = k) (other : k ≠ .pair) : d.pairKey? t = none := by
  rw [Document.pairKey?, Tree.key?, if_neg (kind ▸ other), Option.bind_none]

/-- A literal that comes as a value is the value that was awaited, or an element. -/
theorem apply_literal (literal : t.kind.isLiteral) (awaited : ∀ keys outer, frames ≠ .object keys none :: outer) :
    apply d base t frames = frames.startValue := by
  cases kind : t.kind with
  | string =>
    obtain ⟨text, spelled⟩ : ∃ text, d.stringValue? t = some text := by
      rw [Document.stringValue?, kind]
      exact ⟨_, rfl⟩
    rw [apply_string kind spelled]
    rcases frames with _ | ⟨⟨keys, _ | ⟨_, place⟩⟩ | ⟨_, _⟩, outer⟩
    · rfl
    · exact absurd rfl (awaited keys outer)
    · cases place <;> rfl
    · rfl
  | number | true | false | null => rw [apply, kind]
  | _ => simp [kind, Kind.isLiteral] at literal

/-- Where a container may open, any value or comma fits. -/
theorem fits_of_open {k l : Kind} (ready : Fits frames k) (opens : k = .openBrace ∨ k = .openBracket)
    (notColon : l ≠ .colon) : Fits frames l := by
  match frames, ready with
  | [], _ => exact notColon
  | .array _ _ :: _, _ => exact notColon
  | .object _ none :: _, _ => exact notColon
  | .object _ (some ⟨_, .name⟩) :: _, ready => rcases opens with rfl | rfl <;> exact Kind.noConfusion ready
  | .object _ (some ⟨_, .pending⟩) :: _, _ => exact notColon
  | .object _ (some ⟨_, .value⟩) :: _, ready =>
    rcases opens with rfl | rfl <;> exact absurd ready (by simp [Fits])

/-- A comma or the closer may follow, whether a member is at hand or not. -/
theorem fits_memberBehind {ts : List Tree} {k : Kind} (ends : k = .comma ∨ k = .closeBrace) :
    Fits (.object keys (memberBehind d ts) :: frames) k := by
  cases behind : memberBehind d ts with
  | none => rcases ends with rfl | rfl <;> exact Kind.noConfusion
  | some member =>
    obtain ⟨t, _, named⟩ := Option.bind_eq_some_iff.mp behind
    obtain ⟨key, _, rfl⟩ := Option.map_eq_some_iff.mp named
    exact ends

end Steps

section Containers

variable {d : Document} {t : Tree} {frames : Frames} {inner before after : List Tree}

/-- No token is a comment. -/
def Bare (ts : List Tree) : Prop := ∀ u ∈ ts, u.kind ≠ .comment

instance (ts : List Tree) : Decidable (Bare ts) := inferInstanceAs (Decidable (∀ u ∈ ts, u.kind ≠ .comment))

theorem Bare.left {ts us : List Tree} (bare : Bare (ts ++ us)) : Bare ts := fun u member =>
  bare u (List.mem_append_left us member)

theorem Bare.right {ts us : List Tree} (bare : Bare (ts ++ us)) : Bare us := fun u member =>
  bare u (List.mem_append_right ts member)

theorem Bare.tail {u : Tree} {us : List Tree} (bare : Bare (u :: us)) : Bare us :=
  (List.forall_mem_cons.mp bare).2

theorem Bare.child (bare : Bare (before.flatMap Tree.tokens)) (member : t ∈ before) :
    Bare t.tokens ∧ t.kind ≠ .comment := by
  have own : Bare t.tokens := fun u inTokens => bare u (List.mem_flatMap.mpr ⟨t, member, inTokens⟩)
  refine ⟨own, fun comment => own t ?_ comment⟩
  rw [Tree.tokens_of_single comment rfl]
  exact List.mem_singleton_self t

theorem Bare.no_comments {comments : List Tree} (bare : Bare comments)
    (all : ∀ c ∈ comments, c.kind = .comment) : comments = [] :=
  List.eq_nil_iff_forall_not_mem.mpr fun c member => bare c member (all c member)

/-- The value of a member that awaits it has come. -/
def ValueRuns (d : Document) (frames : Frames) (v : Tree) : Prop :=
  Runs d frames v.tokens frames.startValue

/-- A pair has been written where a name was awaited. -/
def PairRuns (d : Document) (frames : Frames) (p : Tree) : Prop := ∀ keys key, d.pairKey? p = some key →
  Runs d (.object keys none :: frames) p.tokens (.object (addKey keys key) (some ⟨key, .value⟩) :: frames)

/-- The name of a member and its colon leave the member to await its value. -/
theorem runs_name {name colon : Tree} {key : String} (sound : t.WellFormed) (own : t.key? = some name)
    (isString : name.kind = .string) (isColon : colon.kind = .colon) (named : d.pairKey? t = some key)
    (keys : List String) (frames : Frames) : Runs d (.object keys none :: frames) [name, colon]
      (.object (addKey keys key) (some ⟨key, .pending⟩) :: frames) := by
  have notMissing := (sound.child (Tree.mem_of_mem_parts (Tree.mem_of_key? own))).not_missing
  have spelled : d.stringValue? name = some key := by simpa [Document.pairKey?, own, notMissing] using named
  have atName : apply d 0 name (.object keys none :: frames) =
      .object (addKey keys key) (some ⟨key, .name⟩) :: frames := apply_string isString spelled
  have atColon : apply d 0 colon (.object (addKey keys key) (some ⟨key, .name⟩) :: frames) =
      .object (addKey keys key) (some ⟨key, .pending⟩) :: frames := apply_colon isColon
  exact .cons (isString ▸ Kind.noConfusion) (atName ▸ .single isColon atColon)

/-- A name, a colon and a value make a member. -/
theorem runs_pair (sound : t.WellFormed) (pair : t.kind = .pair) (bare : Bare t.tokens)
    (value : ∀ v ∈ t.children, v.kind.isValue → ∀ keys key,
      ValueRuns d (.object keys (some ⟨key, .pending⟩) :: frames) v) : PairRuns d frames t := by
  intro keys key named
  obtain ⟨name, front, colon, back, v, tokens, own, valued, isString, isColon, inFront, inBack, _⟩ :=
    sound.pair_tokens pair
  rw [tokens] at bare ⊢
  obtain rfl := Bare.no_comments bare.tail.left inFront
  obtain rfl := Bare.no_comments bare.tail.tail.left inBack
  refine (runs_name sound own isString isColon named keys frames).append ?_
  exact value v (Tree.mem_of_mem_parts (Tree.mem_of_value? valued)) (sound.isValue_of_value? valued)
    (addKey keys key) key

/-- In front of a pair no member is at hand: the one before has ended at its comma. -/
theorem memberBehind_of_pair {c : Tree} (listed : Tree.Listed (· = .pair) inner) (split : inner = before ++ c :: after)
    (bare : ∀ t ∈ before, t.kind ≠ .comment) (pair : c.kind = .pair) : memberBehind d before = none := by
  have listed' : Tree.Listed (fun k => k == .pair) inner := by simpa using listed
  rcases Tree.comma_before_item listed' (by decide) (by decide) split bare (beq_iff_eq.mpr pair) with
    rfl | ⟨front, t, rfl, comma⟩
  · rfl
  · rw [memberBehind_concat, pairKey?_of_ne comma Kind.noConfusion, Option.map_none]

/-- Members that are divided by commas add their names; the last one is at hand until its comma. -/
theorem runs_members (listed : Tree.Listed (· = .pair) inner) (sound : ∀ c ∈ inner, c.WellFormed)
    (pairs : ∀ p ∈ inner, p.kind = .pair → Bare p.tokens → PairRuns d frames p)
    (split : inner = before ++ after) (bare : Bare (before.flatMap Tree.tokens)) (keys : List String) :
    Runs d (.object keys none :: frames) (before.flatMap Tree.tokens)
      (.object ((namesOf d before).foldl addKey keys) (memberBehind d before) :: frames) := by
  have listed' : Tree.Listed (fun k => k == .pair) inner := by simpa using listed
  induction before using List.reverseRecOn generalizing after with
  | nil => exact .nil _
  | append_singleton before c ih =>
    have split' : inner = before ++ c :: after := by simpa using split
    rw [List.flatMap_append, List.flatMap_singleton] at bare ⊢
    have noComment : ∀ t ∈ before, t.kind ≠ .comment := fun t member => (bare.left.child member).2
    have inInner : c ∈ inner := split' ▸ by simp
    have so := ih split' bare.left
    refine so.append ?_
    rcases listed.kinds inInner with comment | comma | pair
    · rw [Tree.tokens_of_single comment rfl] at bare
      exact absurd comment (bare.right c List.mem_cons_self)
    · have none : d.pairKey? c = none := pairKey?_of_ne comma Kind.noConfusion
      obtain ⟨front, p, ends, isPair⟩ := Tree.item_before_comma listed' (by decide) split' noComment comma
      obtain ⟨_, key, _, _, named⟩ := (sound p (split' ▸ ends ▸ by simp)).exists_pairKey (beq_iff_eq.mp isPair) d
      have behind : memberBehind d before = some ⟨key, .value⟩ := by
        rw [ends, memberBehind_concat, named, Option.map_some]
      rw [namesOf_concat, memberBehind_concat, none, behind, Option.toList_none, List.append_nil,
        Option.map_none, Tree.tokens_of_single comma rfl]
      exact .single (Or.inl comma) (apply_comma comma)
    · obtain ⟨_, key, _, _, named⟩ := (sound c inInner).exists_pairKey pair d
      rw [memberBehind_of_pair listed split' noComment pair]
      rw [namesOf_concat, memberBehind_concat, named, List.foldl_append]
      exact pairs c inInner pair bare.right ((namesOf d before).foldl addKey keys) key named

/-- Elements that are divided by commas are counted by their commas. -/
theorem runs_elements (kinds : ∀ c ∈ before, c.kind = .comma ∨ c.kind.isValue)
    (elements : ∀ v ∈ before, v.kind.isValue → ∀ index, ValueRuns d (.array index false :: frames) v)
    (index : Nat) : Runs d (.array index false :: frames) (before.flatMap Tree.tokens)
      (.array (index + before.countP fun t => t.kind = .comma) false :: frames) := by
  induction before generalizing index with
  | nil => exact .nil _
  | cons c before ih =>
    obtain ⟨kind, kinds⟩ := List.forall_mem_cons.mp kinds
    obtain ⟨element, elements⟩ := List.forall_mem_cons.mp elements
    rw [List.flatMap_cons, List.countP_cons]
    rcases kind with comma | isValue
    · have step : Runs d (.array index false :: frames) [c] (.array (index + 1) false :: frames) :=
        .single (comma ▸ Kind.noConfusion) (apply_comma comma)
      rw [← Tree.tokens_of_single comma rfl] at step
      simpa [comma, Nat.add_assoc, Nat.add_comm 1] using step.append (ih kinds elements (index + 1))
    · have notComma : c.kind ≠ .comma := fun same => by simp [same, Kind.isValue] at isValue
      have first : Runs d (.array index false :: frames) c.tokens (.array index false :: frames) :=
        element isValue index
      simpa [notComma] using first.append (ih kinds elements index)

/-- What stands in front of a child stands in front of the closer or is all that the brackets hold. -/
theorem front_of_split {opener closer c : Tree} (split : opener :: (inner ++ [closer]) = before ++ c :: after)
    (entered : before ≠ []) : ∃ front back, before = opener :: front ∧ inner = front ++ back := by
  cases before with
  | nil => exact absurd rfl entered
  | cons first front =>
    obtain ⟨rfl, rest⟩ := List.cons.inj split
    have length : inner.length + 1 = front.length + (after.length + 1) := by
      simpa using congrArg List.length rest
    have within : front <+: inner :=
      List.prefix_of_prefix_length_le ⟨c :: after, rest.symm⟩ (List.prefix_append inner [closer]) (by omega)
    obtain ⟨back, same⟩ := within
    exact ⟨front, back, rfl, same.symm⟩

theorem runs_openBrace {opener : Tree} (opens : opener.kind = .openBrace) (ready : Fits frames .openBrace) :
    Runs d frames opener.tokens (.object [] none :: frames.startValue) := by
  rw [Tree.tokens_of_single opens rfl]
  exact .single (opens ▸ ready) (apply_openBrace opens)

theorem runs_openBracket {opener : Tree} (opens : opener.kind = .openBracket) (ready : Fits frames .openBrace) :
    Runs d frames opener.tokens (.array 0 false :: frames.startValue) := by
  rw [Tree.tokens_of_single opens rfl]
  exact .single (fits_of_open ready (Or.inl rfl) (opens ▸ Kind.noConfusion)) (apply_openBracket opens)

/-- An object whose first children have been written holds their names. -/
theorem runs_into_object {c : Tree} (sound : t.WellFormed) (isObject : t.kind = .object)
    (pairs : ∀ p ∈ t.children, p.kind = .pair → Bare p.tokens → PairRuns d frames.startValue p)
    (ready : Fits frames .openBrace) (split : t.children = before ++ c :: after) (entered : before ≠ [])
    (bare : Bare (before.flatMap Tree.tokens)) : Runs d frames (before.flatMap Tree.tokens)
      (.object ((namesOf d before).foldl addKey []) (memberBehind d before) :: frames.startValue) := by
  obtain ⟨opener, inner, closer, children, opens, closes, members⟩ := sound.object_children isObject
  obtain ⟨front, back, rfl, inside⟩ := front_of_split (children.symm.trans split) entered
  have none : d.pairKey? opener = none := pairKey?_of_ne opens Kind.noConfusion
  have inChildren {p : Tree} (member : p ∈ inner) : p ∈ t.children := by simp [children, member]
  have written := runs_members members (fun p member => sound.child (inChildren member))
    (fun p member => pairs p (inChildren member)) inside (List.flatMap_cons ▸ bare).right []
  have names : namesOf d (opener :: front) = namesOf d front := List.filterMap_cons_none none
  rw [names, memberBehind_cons front none, List.flatMap_cons]
  exact (runs_openBrace opens ready).append written

/-- An array whose first children have been written counts their commas. -/
theorem runs_into_array {c : Tree} (sound : t.WellFormed) (isArray : t.kind = .array)
    (elements : ∀ v ∈ t.children, v.kind.isValue → Bare v.tokens → ∀ index,
      ValueRuns d (.array index false :: frames.startValue) v)
    (ready : Fits frames .openBrace) (split : t.children = before ++ c :: after) (entered : before ≠ [])
    (bare : Bare (before.flatMap Tree.tokens)) : Runs d frames (before.flatMap Tree.tokens)
      (.array (before.countP fun t => t.kind = .comma) false :: frames.startValue) := by
  obtain ⟨opener, inner, closer, children, opens, closes, listed⟩ := sound.array_children isArray
  obtain ⟨front, back, rfl, inside⟩ := front_of_split (children.symm.trans split) entered
  have bareFront : Bare (front.flatMap Tree.tokens) := (List.flatMap_cons ▸ bare).right
  have inInner {v : Tree} (member : v ∈ front) : v ∈ inner := inside ▸ List.mem_append_left back member
  have inChildren {v : Tree} (member : v ∈ front) : v ∈ t.children := by simp [children, inInner member]
  have written : Runs d (.array 0 false :: frames.startValue) _ _ := runs_elements
    (fun v member => (listed.kinds (inInner member)).resolve_left (bareFront.child member).2)
    (fun v member isValue => elements v (inChildren member) isValue (bareFront.child member).1) 0
  rw [List.flatMap_cons, List.countP_cons_of_neg (by rw [opens]; decide)]
  rw [Nat.zero_add] at written
  exact (runs_openBracket opens ready).append written

/-- An object that is whole leaves the containers around it. -/
theorem runs_object (sound : t.WellFormed) (isObject : t.kind = .object)
    (pairs : ∀ p ∈ t.children, p.kind = .pair → Bare p.tokens → PairRuns d frames.startValue p)
    (ready : Fits frames .openBrace) (bare : Bare t.tokens) : ValueRuns d frames t := by
  obtain ⟨opener, inner, closer, children, opens, closes, members⟩ := sound.object_children isObject
  have split : t.children = (opener :: inner) ++ closer :: [] := children
  rw [ValueRuns, Tree.tokens_of_split isObject rfl split]
  rw [Tree.tokens_of_split isObject rfl split] at bare
  refine (runs_into_object sound isObject pairs ready split (List.cons_ne_nil opener inner) bare.left).append ?_
  rw [Tree.tokens_of_single closes rfl]
  exact .single (fits_memberBehind (Or.inr closes)) (apply_closeBrace closes)

/-- An array that is whole leaves the containers around it. -/
theorem runs_array (sound : t.WellFormed) (isArray : t.kind = .array)
    (elements : ∀ v ∈ t.children, v.kind.isValue → Bare v.tokens → ∀ index,
      ValueRuns d (.array index false :: frames.startValue) v)
    (ready : Fits frames .openBrace) (bare : Bare t.tokens) : ValueRuns d frames t := by
  obtain ⟨opener, inner, closer, children, opens, closes, _⟩ := sound.array_children isArray
  have split : t.children = (opener :: inner) ++ closer :: [] := children
  rw [ValueRuns, Tree.tokens_of_split isArray rfl split]
  rw [Tree.tokens_of_split isArray rfl split] at bare
  refine (runs_into_array sound isArray elements ready split (List.cons_ne_nil opener inner) bare.left).append ?_
  rw [Tree.tokens_of_single closes rfl]
  exact .single (closes ▸ Kind.noConfusion) (apply_closeBracket closes)

/-- The tokens of a value that is awaited make that value begin and leave no container open. -/
theorem runs_of_wellFormed (sound : t.WellFormed) (bare : Bare t.tokens) :
    (t.kind.isValue → ∀ frames, Fits frames .openBrace →
      (∀ keys outer, frames = .object keys none :: outer → ¬t.kind.isLiteral) → ValueRuns d frames t) ∧
    (t.kind = .pair → ∀ frames, PairRuns d frames t) := by
  induction sound with
  | @node k s e cs form order inside wide below ih =>
    have sound : (Syntax.Tree.node k s e false cs).WellFormed := .node form order inside wide below
    refine ⟨fun isValue frames ready awaited => ?_, fun pair frames => ?_⟩
    · by_cases isObject : k = .object
      · exact runs_object sound isObject
          (fun p member isPair bareP => (ih p member bareP).2 isPair frames.startValue) ready bare
      by_cases isArray : k = .array
      · refine runs_array sound isArray (fun v member isElement bareV index => ?_) ready bare
        exact (ih v member bareV).1 isElement _ Kind.noConfusion (by simp)
      · have literal : k.isLiteral := Kind.isLiteral_of_isValue isValue isObject isArray
        have notColon : k ≠ .colon := fun same => absurd (same ▸ literal) (by decide)
        rw [ValueRuns, Tree.tokens_of_single (t := .node k s e false cs) rfl (Kind.not_isGroup_of_isLiteral literal)]
        exact .single (fits_of_open ready (Or.inl rfl) notColon)
          (apply_literal literal fun keys outer same => awaited keys outer same literal)
    · refine runs_pair sound pair bare fun v member isValue keys key => ?_
      rw [Tree.tokens_of_group pair rfl] at bare
      exact (ih v member (bare.child member).1).1 isValue _ Kind.noConfusion (by simp)

/-- An object whose first children have been written holds their names. -/
theorem runs_within_object {c : Tree} (sound : t.WellFormed) (isObject : t.kind = .object)
    (ready : Fits frames .openBrace) (split : t.children = before ++ c :: after) (entered : before ≠ [])
    (bare : Bare (before.flatMap Tree.tokens)) : Runs d frames (before.flatMap Tree.tokens)
      (.object ((namesOf d before).foldl addKey []) (memberBehind d before) :: frames.startValue) :=
  runs_into_object sound isObject (fun _ member isPair bareP =>
    (runs_of_wellFormed (sound.child member) bareP).2 isPair _) ready split entered bare

/-- An array whose first children have been written counts their commas. -/
theorem runs_within_array {c : Tree} (sound : t.WellFormed) (isArray : t.kind = .array)
    (ready : Fits frames .openBrace) (split : t.children = before ++ c :: after) (entered : before ≠ [])
    (bare : Bare (before.flatMap Tree.tokens)) : Runs d frames (before.flatMap Tree.tokens)
      (.array (before.countP fun t => t.kind = .comma) false :: frames.startValue) :=
  runs_into_array sound isArray (fun _ member isValue bareV index =>
    (runs_of_wellFormed (sound.child member) bareV).1 isValue _ Kind.noConfusion (by simp)) ready split entered bare

/-- Behind the name and the colon of a pair, the member that the pair makes awaits its value. -/
theorem runs_within_pair {p name colon : Tree} {key : String} (sound : t.WellFormed) (isObject : t.kind = .object)
    (ready : Fits frames .openBrace) (split : t.children = before ++ p :: after) (own : p.key? = some name)
    (isString : name.kind = .string) (isColon : colon.kind = .colon) (named : d.pairKey? p = some key)
    (bare : Bare (before.flatMap Tree.tokens)) :
    Runs d frames (before.flatMap Tree.tokens ++ [name, colon])
      (.object ((namesOf d before ++ [key]).foldl addKey []) (some ⟨key, .pending⟩) :: frames.startValue) := by
  have isPair := Document.kind_of_pairKey? named
  obtain ⟨opener, inner, closer, children, opens, closes, members⟩ := sound.object_children isObject
  obtain ⟨front, back, rfl, inside⟩ := Tree.split_inner (children.symm.trans split)
    (Tree.ne_of_kind isPair opens (by decide)) (Tree.ne_of_kind isPair closes (by decide))
  have noComment : ∀ t ∈ front, t.kind ≠ .comment := fun t member => (bare.child (List.mem_cons_of_mem opener member)).2
  have free : memberBehind d (opener :: front) = none :=
    (memberBehind_cons front (pairKey?_of_ne opens Kind.noConfusion)).trans
      (memberBehind_of_pair members inside noComment isPair)
  have inside := runs_within_object (d := d) sound isObject ready split (List.cons_ne_nil opener front) bare
  rw [free] at inside
  rw [List.foldl_concat]
  exact inside.append (runs_name (sound.child (split ▸ by simp)) own isString isColon named _ _)

end Containers

end JsonAssist.Cursor
