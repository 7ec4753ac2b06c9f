import JsonAssist.Proofs.Cursor.Turns
import JsonAssist.Proofs.Syntax.Address

namespace JsonAssist.Cursor

open Syntax

theorem contents_sublist (t : Tree) : (contents t).Sublist t.children := by
  rw [contents]
  split
  · exact List.nil_sublist _
  next c rest children =>
    rw [children]
    split
    · exact List.sublist_cons_self c rest
    · exact List.Sublist.refl _

/-- Tokens that each leave the containers as they are leave them so together, up to any boundary. -/
theorem replay_of_fixed {d : Document} {t : Tree} {frames : Frames} (boundary : Nat)
    (noError : ∀ u ∈ contents t, u.kind ≠ .error)
    (fixed : ∀ u ∈ contents t, apply d frames.length u frames = frames) : replay d t boundary frames = frames := by
  rw [replay_eq_foldl]
  exact List.foldlRecOn _ _ (motive := (· = frames)) rfl fun _ same u member =>
    same ▸ fixed u (replayedTokens_subset noError member)

/-- What is replayed up to a child is what stands in front of it. -/
theorem replay_to_child {d : Document} {t c : Tree} {before after : List Tree} (sound : t.WellFormed)
    (split : contents t = before ++ c :: after) (frames : Frames) :
    replay d t c.start frames = before.foldl (fun fs token => apply d frames.length token fs) frames := by
  have sublist := contents_sublist t
  have member {token : Tree} (inBefore : token ∈ before) : token ∈ t.children :=
    sublist.subset (split ▸ List.mem_append_left _ inBefore)
  have order : (before ++ c :: after).Pairwise fun a b => a.stop ≤ b.start :=
    split ▸ sound.order.sublist sublist
  have ends : ∀ token ∈ before, token.start < c.start ∧ token.stop ≤ c.start := fun token inBefore => by
    have stops := (List.pairwise_append.mp order).2.2 token inBefore c List.mem_cons_self
    have wide := sound.child_wide (member inBefore)
    exact ⟨by omega, stops⟩
  have real : ∀ token ∈ before, token.kind ≠ .error ∧ token.missing = false := fun token inBefore =>
    ⟨(sound.child (member inBefore)).ne_error, (sound.child (member inBefore)).not_missing⟩
  rw [replay_eq_foldl, replayed, split, replayedTokens_of_before _ ends real, replayedTokens_at_boundary,
    List.append_nil]

section Containers

variable {d : Document} {base : Nat} {token : Tree}

theorem apply_at_top (kind : token.kind.isValue ∨ token.kind = .comment) : apply d base token [] = [] := by
  rcases kind with isValue | comment
  · rw [apply]
    cases atKind : token.kind <;> simp_all [Kind.isValue, Frames.startValue]
    split <;> rfl
  · simp [apply, comment]

/-- In an array a comma leads to the next element, and elements leave all as it is. -/
theorem apply_in_array {index : Nat} {onElement : Bool} {frames : Frames}
    (kind : token.kind = .comment ∨ token.kind = .comma ∨ token.kind.isValue) :
    apply d base token (.array index onElement :: frames) =
      .array (if token.kind = .comma then index + 1 else index) onElement :: frames := by
  rcases kind with comment | comma | isValue
  · simp [apply, comment]
  · simp [apply, comma, Frames.seeComma]
  · have notComma : token.kind ≠ .comma := fun same => by simp [same, Kind.isValue] at isValue
    rw [if_neg notComma, apply]
    cases atKind : token.kind <;> simp_all [Kind.isValue, Frames.startValue]
    split <;> rfl

theorem foldl_apply_in_array {index : Nat} {onElement : Bool} {frames : Frames} {tokens : List Tree}
    (kinds : ∀ t ∈ tokens, t.kind = .comment ∨ t.kind = .comma ∨ t.kind.isValue) :
    tokens.foldl (fun fs t => apply d base t fs) (.array index onElement :: frames) =
      .array (index + tokens.countP fun t => t.kind = .comma) onElement :: frames := by
  induction tokens generalizing index with
  | nil => rfl
  | cons t tokens ih =>
    obtain ⟨first, others⟩ := List.forall_mem_cons.mp kinds
    rw [List.foldl_cons, apply_in_array first, ih others, List.countP_cons]
    by_cases comma : t.kind = .comma
    · simp [comma, Nat.add_assoc, Nat.add_comm 1]
    · simp [comma]

theorem addKey_of_mem {keys : List String} {key : String} (known : key ∈ keys) : addKey keys key = keys := by
  simp [addKey, known]

theorem not_awaitsValue {pair : Tree} (sound : pair.WellFormed) (isPair : pair.kind = .pair) :
    ¬awaitsValue pair := by
  obtain ⟨name, colon, value, parts, _⟩ := sound.exists_parts isPair
  have member : value ∈ pair.children := Tree.mem_of_mem_parts (parts ▸ by simp)
  simp [awaitsValue, Tree.value?, isPair, parts, (sound.child member).not_missing]

/-- Between members, a pair whose name is known and that has its value leaves all as it is. -/
theorem apply_in_object {keys : List String} {frames : Frames} (sound : token.WellFormed)
    (kind : token.kind = .comment ∨ token.kind = .comma ∨ token.kind = .pair)
    (known : ∀ key, d.pairKey? token = some key → key ∈ keys) :
    apply d base token (.object keys none :: frames) = .object keys none :: frames := by
  rcases kind with comment | comma | pair
  · simp [apply, comment]
  · simp [apply, comma, Frames.seeComma]
  · obtain ⟨_, key, _, _, named⟩ := sound.exists_pairKey pair d
    simp [apply, pair, seePair, named, addKey_of_mem (known key named), not_awaitsValue sound pair]

theorem mem_addKey {keys : List String} {key other : String} :
    other ∈ addKey keys key ↔ other ∈ keys ∨ other = key := by
  by_cases known : key ∈ keys
  · rw [addKey_of_mem known]
    exact ⟨Or.inl, fun either => either.elim id fun same => same ▸ known⟩
  · simp [addKey, known]

theorem mem_foldl_addKey {keys : List String} (new : Option String) {key : String} :
    key ∈ new.toList.foldl addKey keys ↔ key ∈ keys ∨ new = some key := by
  cases new with
  | none => simp
  | some other => simp [mem_addKey, eq_comm]

theorem subset_foldl_of_grows {step : List String → Tree → List String}
    (grows : ∀ keys t, keys ⊆ step keys t) (tokens : List Tree) (keys : List String) :
    keys ⊆ tokens.foldl step keys := by
  induction tokens generalizing keys with
  | nil => exact List.Subset.refl keys
  | cons t tokens ih => exact List.Subset.trans (grows keys t) (ih (step keys t))

theorem addKeys_grows (new : Option String) (keys : List String) : keys ⊆ new.toList.foldl addKey keys :=
  fun _ known => (mem_foldl_addKey new).mpr (Or.inl known)

theorem mem_foldl_of_grows {step : List String → Tree → List String} (grows : ∀ keys t, keys ⊆ step keys t)
    {tokens : List Tree} (member : token ∈ tokens) {key : String} (adds : ∀ keys, key ∈ step keys token)
    (keys : List String) : key ∈ tokens.foldl step keys := by
  obtain ⟨before, after, split⟩ := List.append_of_mem member
  rw [split, List.foldl_append, List.foldl_cons]
  exact subset_foldl_of_grows grows after _ (adds _)

/-- A pair of an object gives it a name, and so does one right in an error of the object. -/
theorem mem_objectKeys_of_child {object child : Tree} (member : child ∈ object.children) {key : String}
    (adds : child.kind = .pair ∧ d.pairKey? child = some key ∨
      child.kind = .error ∧ ∃ pair ∈ child.children, pair.kind = .pair ∧ d.pairKey? pair = some key) :
    key ∈ objectKeys d object := by
  have isNamed : child.isNamed := by
    rcases adds with ⟨kind, _⟩ | ⟨kind, _⟩ <;> simp [Tree.isNamed, kind, Kind.isNamed]
  refine mem_foldl_of_grows (fun keys t => ?_) (List.mem_filter.mpr ⟨member, isNamed⟩) (fun keys => ?_) []
  · split
    · exact addKeys_grows _ keys
    · exact subset_foldl_of_grows (fun keys pair => addKeys_grows _ keys) _ keys
    · exact List.Subset.refl keys
  · rcases adds with ⟨isPair, named⟩ | ⟨isError, pair, inError, isPair, named⟩
    · simp only [isPair]
      exact (mem_foldl_addKey _).mpr (Or.inr named)
    · simp only [isError]
      refine mem_foldl_of_grows (fun keys pair => addKeys_grows _ keys) (List.mem_filter.mpr ⟨?_, by simp [isPair]⟩)
        (fun keys => (mem_foldl_addKey _).mpr (Or.inr named)) keys
      exact List.mem_filter.mpr ⟨inError, by simp [Tree.isNamed, isPair, Kind.isNamed]⟩

/-- The names of an object are those of its pairs, at least. -/
theorem mem_objectKeys {object pair : Tree} (member : pair ∈ object.children) (isPair : pair.kind = .pair)
    {key : String} (named : d.pairKey? pair = some key) : key ∈ objectKeys d object :=
  mem_objectKeys_of_child member (Or.inl ⟨isPair, named⟩)

end Containers

section Entering

variable {d : Document} {t c : Tree} {frames : Frames}

theorem contents_of_opener {opener : Tree} {rest : List Tree}
    (container : t.kind = .object ∧ opener.kind = .openBrace ∨ t.kind = .array ∧ opener.kind = .openBracket)
    (children : t.children = opener :: rest) : contents t = rest := by
  rcases container with ⟨same, bracket⟩ | ⟨same, bracket⟩ <;> simp [contents, children, opens, same, bracket]

theorem replay_document (sound : t.WellFormed) (document : t.kind = .document) (boundary : Nat) :
    replay d t boundary [] = [] := by
  have inChildren {token : Tree} (member : token ∈ contents t) : token ∈ t.children :=
    (contents_sublist t).subset member
  refine replay_of_fixed boundary (fun token member => (sound.child (inChildren member)).ne_error)
    fun token member => apply_at_top ?_
  have held := sound.form.mayHold (inChildren member)
  simpa [document, Kind.mayHold] using held

/-- The names of all pairs are known from the start, so what stands before a place changes nothing. The
closer is no exception: it ends only containers that were opened behind the brace. -/
theorem replay_object {keys : List String} (sound : t.WellFormed) (isObject : t.kind = .object)
    (known : ∀ p ∈ t.children, ∀ key, d.pairKey? p = some key → key ∈ keys) (boundary : Nat) :
    replay d t boundary (.object keys none :: frames) = .object keys none :: frames := by
  obtain ⟨opener, inner, closer, children, bracket, closes, members⟩ := sound.object_children isObject
  have inChildren {token : Tree} (member : token ∈ inner ++ [closer]) : token ∈ t.children :=
    children ▸ List.mem_cons_of_mem opener member
  have whole := contents_of_opener (Or.inl ⟨isObject, bracket⟩) children
  refine replay_of_fixed boundary
    (fun token member => (sound.child (inChildren (whole ▸ member))).ne_error) fun token member => ?_
  rw [whole] at member
  rcases List.mem_append.mp member with inInner | atEnd
  · exact apply_in_object (sound.child (inChildren member)) (members.kinds inInner) (known token (inChildren member))
  · obtain rfl := List.mem_singleton.mp atEnd
    simp [apply, closes, Frames.closeObject]

/-- The elements before the one entered are counted by the commas behind them. -/
theorem replay_array {before after : List Tree} {onElement : Bool} (sound : t.WellFormed)
    (isArray : t.kind = .array) (split : t.children = before ++ c :: after) (isValue : c.kind.isValue) :
    replay d t c.start (.array 0 onElement :: frames) =
      .array (before.countP fun c => c.kind.isValue) onElement :: frames := by
  obtain ⟨opener, inner, closer, children, opens, closes, elements⟩ := sound.array_children isArray
  have notOpener : c ≠ opener := fun same => by simp [same, opens, Kind.isValue] at isValue
  have notCloser : c ≠ closer := fun same => by simp [same, closes, Kind.isValue] at isValue
  obtain ⟨front, back, opened, inside⟩ := Tree.split_inner (children.symm.trans split) notOpener notCloser
  have whole := (contents_of_opener (Or.inr ⟨isArray, opens⟩) children).trans
    (by rw [inside, List.append_assoc, List.cons_append])
  have commas := Tree.Listed.count_comma (by decide) (by decide) (inside ▸ elements) isValue
  rw [replay_to_child sound whole, foldl_apply_in_array fun token inFront =>
    elements.kinds (inside ▸ List.mem_append_left _ inFront), commas, opened]
  simp [opens, Kind.isValue]

end Entering

end JsonAssist.Cursor
