import JsonAssist.Cursor.Context
import JsonAssist.Proofs.Cursor.Runs
import JsonAssist.Proofs.Syntax.Checked

namespace JsonAssist.Cursor

open Syntax

/-- The place right behind a token of a value: the steps from the value to what comes next, whether that
is a name or a value, and the names written so far in the innermost open object of the value. -/
inductive Behind (d : Document) (last : Tree) : Tree → Path → Slot → Option (List String) → Prop
  | name {object : Tree} {before after : List Tree} (isObject : object.kind = .object)
      (split : object.children = before ++ last :: after)
      (begins : last.kind = .openBrace ∨ last.kind = .comma) :
      Behind d last object [] .property (some (namesOf d before))
  | value {object pair : Tree} {before after : List Tree} {key : String} (isObject : object.kind = .object)
      (split : object.children = before ++ pair :: after) (named : d.pairKey? pair = some key)
      (inPair : last ∈ pair.children) (isColon : last.kind = .colon) :
      Behind d last object [.key key] .value (some (namesOf d before ++ [key]))
  | element {array : Tree} {before after : List Tree} (isArray : array.kind = .array)
      (split : array.children = before ++ last :: after)
      (begins : last.kind = .openBracket ∨ last.kind = .comma) :
      Behind d last array [.index (before.countP fun c => c.kind.isValue)] .value none
  | inMember {object pair value : Tree} {before after : List Tree} {key : String} {path : Path} {slot : Slot}
      {names : Option (List String)} (isObject : object.kind = .object)
      (split : object.children = before ++ pair :: after) (named : d.pairKey? pair = some key)
      (valued : pair.value? = some value) (rest : Behind d last value path slot names) :
      Behind d last object (.key key :: path) slot (some (names.getD (namesOf d before ++ [key])))
  | inElement {array element : Tree} {before after : List Tree} {path : Path} {slot : Slot}
      {names : Option (List String)} (isArray : array.kind = .array)
      (split : array.children = before ++ element :: after) (isValue : element.kind.isValue)
      (rest : Behind d last element path slot names) :
      Behind d last array (.index (before.countP fun c => c.kind.isValue) :: path) slot names

section Places

variable {d : Document} {t c last : Tree} {before after : List Tree}

/-- Every such token of a value has a place behind it; in a pair that is the colon or one in the value. -/
theorem exists_behind (sound : t.WellFormed) (member : last ∈ t.tokens) (leads : last.kind.leadsOn) :
    (t.kind.isValue → ∃ path slot names, Behind d last t path slot names) ∧
      (t.kind = .pair → last ∈ t.children ∧ last.kind = .colon ∨
        ∃ value path slot names, t.value? = some value ∧ Behind d last value path slot names) := by
  induction sound with
  | @node k s e cs form order inside wide below ih =>
    have sound : (Syntax.Tree.node k s e false cs).WellFormed := .node form order inside wide below
    have alone {u : Tree} {k : Kind} (kind : u.kind = k) (single : k.isGroup = false) (inside : last ∈ u.tokens) :
        last = u := by
      rwa [Tree.tokens_of_single kind single, List.mem_singleton] at inside
    have inChild (group : k.isGroup) : ∃ c ∈ cs, last ∈ c.tokens := by
      rwa [Tree.tokens_of_group (t := .node k s e false cs) rfl group, List.mem_flatMap] at member
    refine ⟨fun isValue => ?_, fun pair => ?_⟩
    · by_cases isObject : k = .object
      · obtain ⟨c, isChild, inChild⟩ := inChild (isObject ▸ rfl)
        obtain ⟨before, after, split⟩ := List.append_of_mem isChild
        rcases Kind.cases_of_object (isObject ▸ form.mayHold isChild) with pair | ⟨single, begins⟩
        · obtain ⟨_, key, _, _, named⟩ := (below c isChild).exists_pairKey pair d
          rcases (ih c isChild inChild).2 pair with ⟨inPair, isColon⟩ | ⟨value, path, slot, names, valued, rest⟩
          · exact ⟨_, _, _, .value isObject split named inPair isColon⟩
          · exact ⟨_, _, _, .inMember isObject split named valued rest⟩
        · obtain rfl := alone rfl single inChild
          exact ⟨_, _, _, .name isObject split (begins leads)⟩
      by_cases isArray : k = .array
      · obtain ⟨c, isChild, inChild⟩ := inChild (isArray ▸ rfl)
        obtain ⟨before, after, split⟩ := List.append_of_mem isChild
        rcases Kind.cases_of_array (isArray ▸ form.mayHold isChild) with isElement | ⟨single, begins⟩
        · obtain ⟨path, slot, names, rest⟩ := (ih c isChild inChild).1 isElement
          exact ⟨_, _, _, .inElement isArray split isElement rest⟩
        · obtain rfl := alone rfl single inChild
          exact ⟨_, _, _, .element isArray split (begins leads)⟩
      · have single := Kind.not_isGroup_of_isLiteral (Kind.isLiteral_of_isValue isValue isObject isArray)
        obtain rfl := alone (u := .node k s e false cs) rfl single member
        exact absurd leads (Kind.not_leadsOn_of_isValue isValue)
    · obtain rfl : k = .pair := pair
      obtain ⟨c, isChild, inChild⟩ := inChild rfl
      rcases Kind.cases_of_pair (form.mayHold isChild) with isValue | ⟨single, begins⟩
      · rcases sound.key?_or_value? rfl isChild isValue with isName | valued
        · obtain ⟨_, _, own', isString, _⟩ := sound.exists_pairKey rfl d
          obtain rfl := Option.some.inj (own'.symm.trans isName)
          obtain rfl := alone isString rfl inChild
          exact absurd leads (Kind.not_leadsOn_of_isValue isValue)
        · obtain ⟨path, slot, names, rest⟩ := (ih c isChild inChild).1 isValue
          exact Or.inr ⟨c, path, slot, names, valued, rest⟩
      · obtain rfl := alone rfl single inChild
        exact Or.inl ⟨isChild, begins leads⟩

end Places

section Reading

variable {frames outer : Frames} {path : Path} {slot : Slot} {names : Option (List String)}

/-- The steps through containers that all have another container or a value in them. -/
def outerPath (frames : Frames) : Path := (frames.filterMap (stepInto true false)).reverse

/-- The containers say what comes next at a place, seen from the containers around a value. -/
structure Tells (outer frames : Frames) (path : Path) (slot : Slot) (names : Option (List String)) : Prop where
  path : pathThrough true frames = outerPath outer ++ path
  slot : slotOf frames = slot
  names : ∀ key, key ∈ (nearestKeys? frames).getD [] ↔ key ∈ names.getD ((nearestKeys? outer).getD [])
  awaits : ∀ keys key rest, frames ≠ .object keys (some ⟨key, .value⟩) :: rest

theorem mem_foldl_addKeys {keys : List String} (new : List String) {key : String} :
    key ∈ new.foldl addKey keys ↔ key ∈ keys ∨ key ∈ new := by
  induction new generalizing keys with
  | nil => simp
  | cons first new ih => rw [List.foldl_cons, ih, mem_addKey, List.mem_cons, or_assoc]

theorem Tells.inMember {new : List String} {key : String}
    (tells : Tells (.object (new.foldl addKey []) (some ⟨key, .value⟩) :: outer) frames path slot names) :
    Tells outer frames (.key key :: path) slot (some (names.getD new)) where
  path := by simpa [outerPath, stepInto] using tells.path
  slot := tells.slot
  names other := by
    rw [tells.names other]
    cases names with
    | none => exact (mem_foldl_addKeys new).trans (by simp)
    | some own => rfl
  awaits := tells.awaits

theorem Tells.inElement {index : Nat} (tells : Tells (.array index false :: outer) frames path slot names) :
    Tells outer frames (.index index :: path) slot names where
  path := by simpa [outerPath, stepInto] using tells.path
  slot := tells.slot
  names := tells.names
  awaits := tells.awaits

end Reading

section Runs

variable {d : Document} {t c last : Tree} {before after : List Tree}

/-- The token that opens a container stands in front of all that is in it. -/
theorem eq_nil_of_opens (sound : t.WellFormed) (split : t.children = before ++ c :: after)
    (opens : t.kind = .object ∧ c.kind = .openBrace ∨ t.kind = .array ∧ c.kind = .openBracket) : before = [] := by
  cases before with
  | nil => rfl
  | cons first front =>
    exfalso
    rcases opens with ⟨isObject, opens⟩ | ⟨isArray, opens⟩
    · obtain ⟨opener, inner, closer, children, _, closes, members⟩ := sound.object_children isObject
      have behind : c ∈ inner ++ [closer] := (List.cons.inj (children.symm.trans split)).2 ▸ by simp
      rcases List.mem_append.mp behind with inInner | atEnd
      · simpa [opens] using members.kinds inInner
      · simp [List.mem_singleton.mp atEnd ▸ opens] at closes
    · obtain ⟨opener, inner, closer, children, _, closes, elements⟩ := sound.array_children isArray
      have behind : c ∈ inner ++ [closer] := (List.cons.inj (children.symm.trans split)).2 ▸ by simp
      rcases List.mem_append.mp behind with inInner | atEnd
      · simpa [opens, Kind.isValue] using elements.kinds inInner
      · simp [List.mem_singleton.mp atEnd ▸ opens] at closes

/-- Behind a brace that opens an object, or a comma in it, a name comes next. -/
theorem runs_to_name {frames : Frames} (sound : t.WellFormed) (isObject : t.kind = .object)
    (ready : Fits frames .openBrace) (split : t.children = before ++ c :: after)
    (begins : c.kind = .openBrace ∨ c.kind = .comma) (bare : Bare (before.flatMap Tree.tokens)) :
    Runs d frames (before.flatMap Tree.tokens ++ [c])
      (.object ((namesOf d before).foldl addKey []) none :: frames.startValue) := by
  rcases begins with opens | comma
  · obtain rfl := eq_nil_of_opens sound split (Or.inl ⟨isObject, opens⟩)
    exact .single (opens ▸ ready) (apply_openBrace opens)
  · obtain ⟨opener, inner, closer, children, opens, closes, _⟩ := sound.object_children isObject
    obtain ⟨front, back, rfl, _⟩ := Tree.split_inner (children.symm.trans split)
      (Tree.ne_of_kind comma opens (by decide)) (Tree.ne_of_kind comma closes (by decide))
    refine (runs_within_object sound isObject ready split (List.cons_ne_nil opener front) bare).append ?_
    exact .single (fits_memberBehind (Or.inl comma)) (apply_comma comma)

/-- Before an element the containers count the elements in front of it. -/
theorem runs_to_element {frames : Frames} (sound : t.WellFormed) (isArray : t.kind = .array)
    (ready : Fits frames .openBrace) (split : t.children = before ++ c :: after) (isValue : c.kind.isValue)
    (bare : Bare (before.flatMap Tree.tokens)) : Runs d frames (before.flatMap Tree.tokens)
      (.array (before.countP fun c => c.kind.isValue) false :: frames.startValue) := by
  obtain ⟨opener, inner, closer, children, opens, closes, elements⟩ := sound.array_children isArray
  obtain ⟨front, back, rfl, inside⟩ := Tree.split_inner (children.symm.trans split)
    (Tree.ne_of_isValue isValue opens (by decide)) (Tree.ne_of_isValue isValue closes (by decide))
  have commas := Tree.Listed.count_comma (by decide) (by decide) (inside ▸ elements) isValue
  have counted := runs_within_array (d := d) sound isArray ready split (List.cons_ne_nil opener front) bare
  rw [List.countP_cons_of_neg (by rw [opens]; decide), commas] at counted
  rwa [List.countP_cons_of_neg (by rw [opens]; decide)]

/-- Behind a bracket that opens an array, or a comma in it, the next element comes next. -/
theorem runs_to_next {frames : Frames} (sound : t.WellFormed) (isArray : t.kind = .array)
    (ready : Fits frames .openBrace) (split : t.children = before ++ c :: after)
    (begins : c.kind = .openBracket ∨ c.kind = .comma) (bare : Bare (before.flatMap Tree.tokens)) :
    Runs d frames (before.flatMap Tree.tokens ++ [c])
      (.array (before.countP fun c => c.kind.isValue) false :: frames.startValue) := by
  rcases begins with opens | comma
  · obtain rfl := eq_nil_of_opens sound split (Or.inr ⟨isArray, opens⟩)
    exact .single (fits_of_open ready (Or.inl rfl) (opens ▸ Kind.noConfusion)) (apply_openBracket opens)
  · obtain ⟨opener, inner, closer, children, opens, closes, elements⟩ := sound.array_children isArray
    obtain ⟨front, back, rfl, inside⟩ := Tree.split_inner (children.symm.trans split)
      (Tree.ne_of_kind comma opens (by decide)) (Tree.ne_of_kind comma closes (by decide))
    have commas := Tree.count_items_before_comma elements (by decide) (by decide) inside
      (fun u member => (bare.child (List.mem_cons_of_mem opener member)).2) comma
    rw [List.countP_cons_of_neg (by rw [opens]; decide), ← commas]
    refine (runs_within_array sound isArray ready split (List.cons_ne_nil opener front) bare).append ?_
    rw [List.countP_cons_of_neg (by rw [opens]; decide)]
    exact .single (show c.kind ≠ .colon from comma ▸ Kind.noConfusion) (apply_comma comma)

/-- Up to a token of this kind the tokens of a value lead to containers that tell the place behind it. -/
theorem Behind.runs {path : Path} {slot : Slot} {names : Option (List String)}
    (behind : Behind d last t path slot names) (sound : t.WellFormed) :
    ∃ cut rest, t.tokens = cut ++ last :: rest ∧ (Bare cut → ∀ frames, Fits frames .openBrace →
      ∃ after, Runs d frames (cut ++ [last]) after ∧ Tells frames.startValue after path slot names) := by
  induction behind with
  | @name object before after isObject split begins =>
    have single : last.tokens = [last] := begins.elim
      (fun opens => Tree.tokens_of_single opens rfl) fun comma => Tree.tokens_of_single comma rfl
    refine ⟨before.flatMap Tree.tokens, after.flatMap Tree.tokens, ?_, fun bare frames ready => ?_⟩
    · rw [Tree.tokens_of_split isObject rfl split, single, List.singleton_append]
    · refine ⟨_, runs_to_name sound isObject ready split begins bare, ?_⟩
      exact ⟨rfl, rfl, fun other => (mem_foldl_addKeys _).trans (by simp), by simp⟩
  | @value object pair before after key isObject split named inPair isColon =>
    have ofPair := sound.child (c := pair) (split ▸ by simp)
    obtain ⟨name, front, colon, back, value, tokens, own, _, isString, isColon', inFront, _, alone⟩ :=
      ofPair.pair_tokens (Document.kind_of_pairKey? named)
    obtain rfl := alone last inPair isColon
    refine ⟨before.flatMap Tree.tokens ++ name :: front, back ++ value.tokens ++ after.flatMap Tree.tokens, ?_,
      fun bare frames ready => ?_⟩
    · rw [Tree.tokens_of_split isObject rfl split, tokens]
      simp
    · obtain rfl := Bare.no_comments bare.right.tail inFront
      have so := runs_within_pair sound isObject ready split own isString isColon named bare.left
      refine ⟨_, by rwa [List.append_assoc], ?_⟩
      exact ⟨rfl, rfl, fun other => (mem_foldl_addKeys _).trans (by simp), by simp⟩
  | @element array before after isArray split begins =>
    have single : last.tokens = [last] := begins.elim
      (fun opens => Tree.tokens_of_single opens rfl) fun comma => Tree.tokens_of_single comma rfl
    refine ⟨before.flatMap Tree.tokens, after.flatMap Tree.tokens, ?_, fun bare frames ready => ?_⟩
    · rw [Tree.tokens_of_split isArray rfl split, single, List.singleton_append]
    · exact ⟨_, runs_to_next sound isArray ready split begins bare, rfl, rfl, fun _ => Iff.rfl, by simp⟩
  | @inMember object pair value before after key path slot names isObject split named valued rest ih =>
    have ofPair := sound.child (c := pair) (split ▸ by simp)
    obtain ⟨name, front, colon, back, value', tokens, own, valued', isString, isColon, inFront, inBack, _⟩ :=
      ofPair.pair_tokens (Document.kind_of_pairKey? named)
    obtain rfl := Option.some.inj (valued'.symm.trans valued)
    obtain ⟨cut, rest', tokens', runs⟩ := ih (ofPair.child (Tree.mem_of_mem_parts (Tree.mem_of_value? valued)))
    refine ⟨before.flatMap Tree.tokens ++ name :: (front ++ colon :: (back ++ cut)),
      rest' ++ after.flatMap Tree.tokens, ?_, fun bare frames ready => ?_⟩
    · rw [Tree.tokens_of_split isObject rfl split, tokens, tokens']
      simp
    · obtain rfl := Bare.no_comments bare.right.tail.left inFront
      obtain rfl := Bare.no_comments bare.right.tail.tail.left inBack
      have first := runs_within_pair sound isObject ready split own isString isColon named bare.left
      obtain ⟨inner, so, tells⟩ := runs bare.right.tail.tail (.object ((namesOf d before ++ [key]).foldl addKey [])
        (some ⟨key, .pending⟩) :: frames.startValue) Kind.noConfusion
      exact ⟨inner, by simpa using first.append so, tells.inMember⟩
  | @inElement array element before after path slot names isArray split isValue rest ih =>
    obtain ⟨cut, rest', tokens', runs⟩ := ih (sound.child (split ▸ by simp))
    refine ⟨before.flatMap Tree.tokens ++ cut, rest' ++ after.flatMap Tree.tokens, ?_, fun bare frames ready => ?_⟩
    · rw [Tree.tokens_of_split isArray rfl split, tokens']
      simp
    · have first := runs_to_element (d := d) sound isArray ready split isValue bare.left
      obtain ⟨inner, so, tells⟩ := runs bare.right (.array (before.countP fun c => c.kind.isValue) false ::
        frames.startValue) Kind.noConfusion
      exact ⟨inner, by simpa using first.append so, tells.inElement⟩

end Runs

section Grouped

variable {d : Document} {g : Tree} {frames single after : Frames} {grouped : List Tree}

/-- Containers that differ in the member at hand only: behind a pair that is a node there is none, behind
the tokens of the pair there is one until the comma or the closer. -/
def Alike (frames single : Frames) : Prop :=
  frames = single ∨ ∃ keys key outer,
    frames = .object keys none :: outer ∧ single = .object keys (some ⟨key, .value⟩) :: outer

/-- Only where a name is awaited a colon fits behind a string. -/
theorem awaits_name {name : Tree} (isString : name.kind = .string) (fits : Fits frames name.kind)
    (colon : Fits (apply d 0 name frames) .colon) : ∃ keys outer, frames = .object keys none :: outer := by
  obtain ⟨text, spelled⟩ : ∃ text, d.stringValue? name = some text := by
    rw [Document.stringValue?, isString]
    exact ⟨_, rfl⟩
  rw [apply_string isString spelled] at colon
  rw [isString] at fits
  rcases frames with _ | ⟨⟨keys, _ | ⟨_, place⟩⟩ | ⟨_, _⟩, outer⟩
  · exact absurd rfl colon
  · exact ⟨keys, outer, rfl⟩
  · cases place <;> simp [Fits, Frames.seeString] at fits colon
  · exact absurd rfl colon

theorem Alike.of_single (alike : Alike frames single) (fits : Fits single g.kind) :
    Alike (apply d 0 g frames) (apply d 0 g single) := by
  rcases alike with rfl | ⟨keys, key, outer, rfl, rfl⟩
  · exact Or.inl rfl
  · rcases fits with comma | closes
    · rw [apply_comma comma, apply_comma comma]
      exact Or.inl rfl
    · rw [apply_closeBrace closes, apply_closeBrace closes]
      exact Or.inl rfl

/-- Where a value or pair comes as a node, no member is at hand any more. -/
theorem Alike.eq_of_group (alike : Alike frames single) (sound : g.WellFormed) (group : g.kind.isGroup)
    (runs : Runs d single g.tokens after) : frames = single := by
  rcases alike with same | ⟨keys, key, outer, rfl, rfl⟩
  · exact same
  · obtain ⟨first, rest, tokens, begins⟩ := sound.tokens_begin group
    rw [tokens] at runs
    cases runs with
    | cons fits _ =>
      rcases begins with ⟨_, kind⟩ | ⟨_, kind⟩ | ⟨_, kind⟩ <;> rw [kind] at fits <;> simp [Fits] at fits

/-- A pair does to the containers what its tokens do, but for the member at hand. -/
theorem alike_pair (sound : g.WellFormed) (pair : g.kind = .pair) (bare : Bare g.tokens)
    (runs : Runs d frames g.tokens after) : Alike (apply d 0 g frames) after := by
  obtain ⟨name, front, colon, back, value, tokens, _, _, isString, isColon, inFront, _⟩ := sound.pair_tokens pair
  obtain ⟨_, key, _, _, named⟩ := sound.exists_pairKey pair d
  have awaited : ∃ keys outer, frames = .object keys none :: outer := by
    rw [tokens] at bare runs
    obtain rfl := Bare.no_comments bare.tail.left inFront
    cases runs with
    | cons fits rest =>
      cases rest with
      | cons fits' _ => exact awaits_name isString fits (isColon ▸ fits')
  obtain ⟨keys, outer, rfl⟩ := awaited
  obtain rfl := ((runs_of_wellFormed sound bare).2 pair outer keys key named).unique runs
  refine Or.inr ⟨addKey keys key, key, outer, ?_, rfl⟩
  simp [apply, pair, seePair, named, not_awaitsValue sound pair]

/-- An object or array does to the containers what its tokens do. -/
theorem apply_container (sound : g.WellFormed) (container : g.kind = .object ∨ g.kind = .array)
    (bare : Bare g.tokens) (runs : Runs d frames g.tokens after) : apply d 0 g frames = after := by
  have isValue := Kind.isValue_of_container container
  have notLiteral := Kind.not_isLiteral_of_container container
  have group : g.kind.isGroup := by rcases container with kind | kind <;> rw [kind] <;> decide
  have ready : Fits frames .openBrace := by
    obtain ⟨first, rest, tokens, begins⟩ := sound.tokens_begin group
    rw [tokens] at runs
    cases runs with
    | cons fits _ =>
      rcases begins with ⟨_, kind⟩ | ⟨_, kind⟩ | ⟨pair, _⟩
      · exact kind ▸ fits
      · exact fits_of_open fits (Or.inr kind) Kind.noConfusion
      · rcases container with kind | kind <;> simp [pair] at kind
  rw [apply_of_container container]
  exact ((runs_of_wellFormed sound bare).1 isValue frames ready fun _ _ _ => notLiteral).unique runs

/-- A node does to the containers what its tokens do, but for the member at hand. -/
theorem Alike.step (alike : Alike frames single) (sound : g.WellFormed) (bare : Bare g.tokens)
    (runs : Runs d single g.tokens after) : Alike (apply d 0 g frames) after := by
  cases group : g.kind.isGroup with
  | false =>
    rw [Tree.tokens_of_single rfl group] at runs
    cases runs with
    | cons fits rest =>
      cases rest
      exact alike.of_single fits
  | true =>
    obtain rfl := alike.eq_of_group sound group runs
    rcases or_assoc.mpr (Kind.cases_of_isGroup group) with container | pair
    · exact Or.inl (apply_container sound container bare runs)
    · exact alike_pair sound pair bare runs

/-- Nodes do to the containers what their tokens do, but for the member at hand. -/
theorem Alike.foldl (alike : Alike frames single) (sound : ∀ g ∈ grouped, g.WellFormed)
    (bare : Bare (grouped.flatMap Tree.tokens)) (runs : Runs d single (grouped.flatMap Tree.tokens) after) :
    Alike (grouped.foldl (fun frames t => Cursor.apply d 0 t frames) frames) after := by
  induction grouped generalizing frames single with
  | nil =>
    cases runs
    exact alike
  | cons g grouped ih =>
    rw [List.flatMap_cons] at bare runs
    obtain ⟨own, others⟩ := List.forall_mem_cons.mp sound
    obtain ⟨middle, first, rest⟩ := runs.split
    exact ih (alike.step own bare.left first) others bare.right rest

end Grouped

section Documents

variable {d : Document} {offset : Nat} {grouped : List Tree} {s e s' e' : Nat}

/-- Behind all that an error holds, the containers come from replaying what it holds, whether the error
reaches up to the place or not. -/
theorem locate_of_error (root : d.root = .node .document s e false [.node .error s' e' false grouped])
    (filled : grouped ≠ []) (sound : ∀ g ∈ grouped, g.WellFormed ∧ g.kind ≠ .document)
    (inside : ∀ g ∈ grouped, s' ≤ g.start) (ends : ∀ g ∈ grouped, g.stop ≤ offset) :
    locate d offset = grouped.foldl (fun frames t => apply d 0 t frames) [] := by
  have all : replayedTokens offset grouped = (grouped, false) := by
    have before : ∀ g ∈ grouped, g.start < offset ∧ g.stop ≤ offset := fun g member => by
      have wide := (sound g member).1.wide (sound g member).2
      have := ends g member
      omega
    rw [← List.append_nil grouped, replayedTokens_of_before [] before fun g member =>
      ⟨(sound g member).1.ne_error, (sound g member).1.not_missing⟩]
    rfl
  have outside : Tree.chainAmong offset grouped = [] := Tree.chainAmong_eq_nil fun g member _ _ holds => by
    have := ((sound g member).1.holds_iff (sound g member).2).mp holds
    have := ends g member
    omega
  have starts : s' < offset := by
    obtain ⟨g, member⟩ := List.exists_mem_of_ne_nil grouped filled
    have wide := (sound g member).1.wide (sound g member).2
    have := ends g member
    have := inside g member
    omega
  have holds_iff : (Syntax.Tree.node .error s' e' false grouped).holds offset ↔ offset ≤ e' := by
    have isOpen : (Syntax.Tree.node .error s' e' false grouped).isClosed = false := rfl
    simp only [Tree.holds, isOpen, Bool.and_eq_true, Bool.or_eq_true, decide_eq_true_eq, beq_iff_eq]
    simp only [Tree.start, Tree.stop, Tree.missing, Bool.not_false, and_true, true_and]
    omega
  by_cases reaches : offset ≤ e'
  · have chain : d.chainAt offset = [d.root, .node .error s' e' false grouped] := by
      have holds := holds_iff.mpr reaches
      rw [Document.chainAt, root]
      simp [Tree.chain, Tree.chainAmong, holds, outside, Kind.isLeaf, Tree.isNamed, Tree.kind, Kind.isNamed]
    have inRoot : contents d.root = [.node .error s' e' false grouped] := by rw [root]; rfl
    have inError : contents (.node .error s' e' false grouped) = grouped := by cases grouped <;> rfl
    have atRoot : enter d offset none d.root (some (.node .error s' e' false grouped)) [] = [] := by
      have reached : replayed s' d.root = [] := by
        rw [replayed, inRoot]
        exact congrArg Prod.fst (replayedTokens_at_boundary (.node .error s' e' false grouped) [])
      simp only [enter, root] at reached ⊢
      exact (replay_eq_foldl _ _).trans (congrArg (List.foldl _ _) reached)
    rw [locate, chain]
    simp only [enterAll, List.head?_cons, List.head?_nil, atRoot]
    refine (replay_eq_foldl _ _).trans (congrArg (List.foldl _ _) ?_)
    rw [replayed, inError]
    exact congrArg Prod.fst all
  · have chain : d.chainAt offset = [d.root] := by
      have beyond := holds_iff.not.mpr reaches
      rw [Document.chainAt, root]
      simp [Tree.chain, Tree.chainAmong, beyond, Kind.isLeaf]
    have inRoot : contents (.node .document s e false [.node .error s' e' false grouped]) =
        [.node .error s' e' false grouped] := rfl
    have atRoot : locate d offset = replay d d.root offset [] := by
      rw [locate, chain]
      simp [enterAll, enter, show d.root.kind = .document from root ▸ rfl]
    rw [atRoot, root]
    refine (replay_eq_foldl _ _).trans (congrArg (List.foldl _ _) ?_)
    have opened : replayedTokens offset [.node .error s' e' false grouped] = replayedTokens offset (grouped ++ []) :=
      replayedTokens_of_error (t := .node .error s' e' false grouped) starts (Nat.le_of_not_le reaches) rfl filled []
    rw [replayed, inRoot, opened, List.append_nil]
    exact congrArg Prod.fst all

end Documents

/-- A document that breaks off behind a token: an error holds the tokens of a value up to there, none of
which is a comment. Values and pairs that are whole may stand there as nodes. -/
structure BreaksOff (d : Document) (value : Tree) (cut : List Tree) (last : Tree) : Prop where
  begins : ∃ rest, value.tokens = cut ++ last :: rest
  bare : Bare cut
  root : ∃ s e s' e' grouped, d.root = .node .document s e false [.node .error s' e' false grouped] ∧
    grouped.flatMap Tree.tokens = cut ++ [last] ∧
    (∀ g ∈ grouped, g.WellFormed ∧ g.kind ≠ .document ∧ s' ≤ g.start ∧ g.stop ≤ e') ∧
    grouped.Pairwise fun a b => a.stop ≤ b.start

section Breaking

variable {d : Document} {value last : Tree} {cut grouped : List Tree}

/-- A token behind which something comes next ends no value and no pair, so it comes last on its own. -/
theorem exists_front (tokens : grouped.flatMap Tree.tokens = cut ++ [last]) (leads : last.kind.leadsOn)
    (sound : ∀ g ∈ grouped, g.WellFormed) : ∃ front, grouped = front ++ [last] := by
  rcases List.eq_nil_or_concat grouped with rfl | ⟨front, g, rfl⟩
  · simp at tokens
  · rw [List.concat_eq_append] at sound tokens ⊢
    rw [List.flatMap_append, List.flatMap_singleton] at tokens
    cases group : g.kind.isGroup with
    | false =>
      rw [Tree.tokens_of_single rfl group] at tokens
      exact ⟨front, by rw [(List.append_inj' tokens rfl).2]⟩
    | true =>
      have ends : g.kind.isValue ∨ g.kind = .pair := by
        rcases Kind.cases_of_isGroup group with kind | kind | kind
        · exact Or.inl (kind ▸ rfl)
        · exact Or.inl (kind ▸ rfl)
        · exact Or.inr kind
      obtain ⟨before, final, own, notLeads⟩ := (sound g (by simp)).tokens_end ends
      rw [own, ← List.append_assoc] at tokens
      obtain rfl : final = last := List.singleton_inj.mp (List.append_inj' tokens rfl).2
      exact absurd leads notLeads

/-- Behind the last token the containers are those to which the tokens lead. -/
theorem BreaksOff.locate (broken : BreaksOff d value cut last) (leads : last.kind.leadsOn) {offset : Nat}
    (behind : last.stop ≤ offset) {after : Frames} (runs : Runs d [] (cut ++ [last]) after)
    (awaits : ∀ keys key outer, after ≠ .object keys (some ⟨key, .value⟩) :: outer) :
    Cursor.locate d offset = after := by
  obtain ⟨s, e, s', e', grouped, root, tokens, nodes, order⟩ := broken.root
  obtain ⟨front, rfl⟩ := exists_front tokens leads fun g member => (nodes g member).1
  have ends : ∀ g ∈ front ++ [last], g.stop ≤ offset := fun g member => by
    rcases List.mem_append.mp member with inFront | atEnd
    · have before := (List.pairwise_append.mp order).2.2 g inFront last List.mem_cons_self
      obtain ⟨sound, part, _⟩ := nodes last (by simp)
      have wide := sound.wide part
      omega
    · exact List.mem_singleton.mp atEnd ▸ behind
  have notComment : last.kind ≠ .comment := fun same => absurd (same ▸ leads) (by decide)
  have bare : Bare ((front ++ [last]).flatMap Tree.tokens) := fun u member => by
    rw [tokens, List.mem_append, List.mem_singleton] at member
    exact member.elim (broken.bare u) fun same => same ▸ notComment
  rw [locate_of_error root (by simp) (fun g member => ⟨(nodes g member).1, (nodes g member).2.1⟩)
    (fun g member => (nodes g member).2.2.1) ends]
  rcases Alike.foldl (Or.inl rfl) (fun g member => (nodes g member).1) bare (tokens ▸ runs) with
    same | ⟨keys, key, outer, _, atHand⟩
  · exact same
  · exact absurd atHand (awaits keys key outer)

end Breaking

/-- In a document that breaks off behind a brace, a bracket, a comma or a colon, the places behind it are
the one that comes next in the value: completion goes to it, and knows whether a name or a value is to
be written there and which names the innermost open object has. The tokens in front may be grouped in any way, but a
finished string counts as one token: its quotes and its content are never left loose. -/
theorem truncated_location (d : Document) (value last : Tree) (cut : List Tree) (sound : value.WellFormed)
    (container : value.kind = .object ∨ value.kind = .array) (broken : BreaksOff d value cut last)
    (leads : last.kind.leadsOn) :
    (∃ path slot names, Behind d last value path slot names) ∧
      ∀ path slot names, Behind d last value path slot names → ∀ offset, last.stop ≤ offset →
        completionPathAt d offset = path ∧ (contextAt d offset).slot = slot ∧
          ∀ key, key ∈ existingKeysAt d offset ↔ key ∈ names.getD [] := by
  obtain ⟨isValue, part⟩ : value.kind.isValue ∧ value.kind ≠ .document := by
    rcases container with kind | kind <;> rw [kind] <;> decide
  obtain ⟨rest, tokens⟩ := broken.begins
  refine ⟨(exists_behind sound (tokens ▸ by simp) leads).1 isValue, ?_⟩
  intro path slot names behind offset reached
  obtain ⟨cut', rest', tokens', runs⟩ := behind.runs sound
  obtain rfl := sound.tokens_split_unique part tokens tokens'
  obtain ⟨after, leadsTo, tells⟩ := runs broken.bare [] Kind.noConfusion
  have located := broken.locate leads reached leadsTo tells.awaits
  refine ⟨?_, ?_, fun key => ?_⟩
  · rw [completionPathAt, located, tells.path]
    rfl
  · simp only [contextAt, located, tells.slot]
  · rw [existingKeysAt, located, tells.names]
    rfl

/-- A document that breaks off behind a comma. A pair, a name and an element stand whole in front of it, what holds them
does not. -/
theorem truncated_location_after_element :
    let string (at' : Nat) : Tree := .node .string at' (at' + 3) false [.node .quote at' (at' + 1) false [],
      .node .content (at' + 1) (at' + 2) false [], .node .quote (at' + 2) (at' + 3) false []]
    let token (kind : Kind) (at' : Nat) : Tree := .node kind at' (at' + 1) false []
    let first : Tree := .node .pair 1 7 false [string 1, token .colon 4, token .number 6]
    let element : Tree := .node .object 15 23 false [token .openBrace 15,
      .node .pair 16 22 false [string 16, token .colon 19, token .number 21], token .closeBrace 22]
    let array : Tree := .node .array 14 27 false
      [token .openBracket 14, element, token .comma 23, token .number 25, token .closeBracket 26]
    let second : Tree := .node .pair 9 27 false [string 9, token .colon 12, array]
    let value : Tree := .node .object 0 28 false
      [token .openBrace 0, first, token .comma 7, second, token .closeBrace 27]
    let grouped : List Tree := [token .openBrace 0, first, token .comma 7, string 9, token .colon 12,
      token .openBracket 14, element, token .comma 23]
    let d : Document := ⟨"\x7b\"a\": 1, \"b\": [\x7b\"c\": 2\x7d, ",
      .node .document 0 25 false [.node .error 0 24 false grouped]⟩
    value.WellFormed ∧ BreaksOff d value (value.tokens.take 13) (token .comma 23) ∧
      completionPathAt d 25 = [.key "b", .index 1] ∧ (contextAt d 25).slot = .value ∧
      ∀ key, key ∈ existingKeysAt d 25 ↔ key ∈ ["a", "b"] := by
  intro string token first element array second value grouped d
  have sound : value.WellFormed := Tree.wellFormed_of_isWellFormed (by decide)
  have broken : BreaksOff d value (value.tokens.take 13) (token .comma 23) := by
    have nodes : ∀ g ∈ grouped, g.kind ≠ .document ∧ 0 ≤ g.start ∧ g.stop ≤ 24 := by decide
    refine ⟨⟨value.tokens.drop 14, rfl⟩, by decide, 0, 25, 0, 24, grouped, rfl, rfl, fun g member => ?_, by decide⟩
    exact ⟨Tree.wellFormed_of_areWellFormed (by decide) g member, nodes g member⟩
  have named : d.pairKey? second = some "b" := by decide +kernel
  have split : value.children = [token .openBrace 0, first, token .comma 7] ++ second :: [token .closeBrace 27] := rfl
  have inArray : array.children = [token .openBracket 14, element] ++
    token .comma 23 :: [token .number 25, token .closeBracket 26] := rfl
  have behind : Behind d (token .comma 23) value [.key "b", .index 1] .value _ :=
    .inMember rfl split named rfl (.element rfl inArray (Or.inr rfl))
  obtain ⟨_, location⟩ := truncated_location d value (token .comma 23) (value.tokens.take 13) sound (Or.inl rfl)
    broken rfl
  obtain ⟨path, slot, names⟩ := location _ _ _ behind 25 (by decide)
  have written : namesOf d [token .openBrace 0, first, token .comma 7] = ["a"] := by decide +kernel
  exact ⟨sound, broken, path, slot, by simpa [written] using names⟩

end JsonAssist.Cursor
