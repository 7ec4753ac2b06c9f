import Mathlib.Data.List.Basic
import Mathlib.Data.List.Flatten
import JsonAssist.Proofs.Syntax.Address

namespace JsonAssist.Syntax

namespace Kind

/-- Nodes that are made of more than one token. -/
def isGroup : Kind → Bool
  | .object | .array | .pair => Bool.true
  | _ => Bool.false

/-- The tokens behind which a name or a value comes next, or the end of an empty container. -/
def leadsOn : Kind → Bool
  | .openBrace | .openBracket | .comma | .colon => Bool.true
  | _ => Bool.false

theorem isLiteral_of_isValue {k : Kind} (isValue : k.isValue) (notObject : k ≠ .object) (notArray : k ≠ .array) :
    k.isLiteral := by
  revert isValue notObject notArray
  cases k <;> decide

theorem not_isGroup_of_isLiteral {k : Kind} (literal : k.isLiteral) : k.isGroup = Bool.false := by
  revert literal
  cases k <;> decide

theorem cases_of_isGroup {k : Kind} (group : k.isGroup) : k = .object ∨ k = .array ∨ k = .pair := by
  revert group
  cases k <;> decide

theorem cases_of_object {k : Kind} (held : Kind.object.mayHold k) :
    k = .pair ∨ k.isGroup = Bool.false ∧ (k.leadsOn → k = .openBrace ∨ k = .comma) := by
  revert held
  cases k <;> decide

theorem cases_of_array {k : Kind} (held : Kind.array.mayHold k) :
    k.isValue ∨ k.isGroup = Bool.false ∧ (k.leadsOn → k = .openBracket ∨ k = .comma) := by
  revert held
  cases k <;> decide

theorem cases_of_pair {k : Kind} (held : Kind.pair.mayHold k) :
    k.isValue ∨ k.isGroup = Bool.false ∧ (k.leadsOn → k = .colon) := by
  revert held
  cases k <;> decide

theorem not_leadsOn_of_isValue {k : Kind} (isValue : k.isValue) : ¬k.leadsOn := by
  revert isValue
  cases k <;> decide

end Kind

namespace Tree

mutual

/-- The tokens of a tree in the order of the text. A string is one token. -/
def tokens : Tree → List Tree
  | .node k s e m cs => if k.isGroup then tokensAmong cs else [.node k s e m cs]

def tokensAmong : List Tree → List Tree
  | [] => []
  | c :: rest => tokens c ++ tokensAmong rest

end

theorem ne_of_kind {a b : Tree} {k l : Kind} (first : a.kind = k) (second : b.kind = l) (different : k ≠ l) :
    a ≠ b := fun same => different (first.symm.trans (same ▸ second))

theorem ne_of_isValue {a b : Tree} {k : Kind} (isValue : a.kind.isValue) (other : b.kind = k)
    (notValue : ¬k.isValue) : a ≠ b := fun same => notValue (other ▸ same ▸ isValue)

theorem tokensAmong_eq (ts : List Tree) : tokensAmong ts = ts.flatMap tokens := by
  induction ts with
  | nil => rfl
  | cons t ts ih => rw [tokensAmong, ih, List.flatMap_cons]

variable {t : Tree}

theorem tokens_of_group {k : Kind} (kind : t.kind = k) (group : k.isGroup) :
    t.tokens = t.children.flatMap tokens := by
  obtain ⟨own, s, e, m, cs⟩ := t
  obtain rfl : own = k := kind
  rw [tokens, if_pos group, tokensAmong_eq, children]

theorem tokens_of_single {k : Kind} (kind : t.kind = k) (single : k.isGroup = Bool.false) : t.tokens = [t] := by
  obtain ⟨own, s, e, m, cs⟩ := t
  obtain rfl : own = k := kind
  rw [tokens, if_neg (by simp [single])]

theorem tokens_of_split {k : Kind} {c : Tree} {before after : List Tree} (kind : t.kind = k) (group : k.isGroup)
    (split : t.children = before ++ c :: after) :
    t.tokens = before.flatMap tokens ++ (c.tokens ++ after.flatMap tokens) := by
  rw [tokens_of_group kind group, split, List.flatMap_append, List.flatMap_cons]

namespace WellFormed

/-- Tokens have a width and stand inside their node. -/
theorem tokens_inside (sound : t.WellFormed) (part : t.kind ≠ .document) {u : Tree} (member : u ∈ t.tokens) :
    t.start ≤ u.start ∧ u.start < u.stop ∧ u.stop ≤ t.stop := by
  induction sound with
  | @node k s e cs form order inside wide below ih =>
    cases group : k.isGroup with
    | true =>
      rw [tokens_of_group (t := .node k s e false cs) rfl group, List.mem_flatMap] at member
      obtain ⟨c, isChild, inChild⟩ := member
      have own := ih c isChild (form.ne_document isChild) inChild
      have outer := inside c isChild
      simp only [start, stop] at own outer ⊢
      omega
    | false =>
      rw [tokens_of_single (t := .node k s e false cs) rfl group, List.mem_singleton] at member
      subst member
      exact ⟨Nat.le_refl _, wide.resolve_left part, Nat.le_refl _⟩

/-- A node that is made of tokens begins with a bracket or a name. -/
theorem tokens_begin (sound : t.WellFormed) (group : t.kind.isGroup) : ∃ first rest, t.tokens = first :: rest ∧
    (t.kind = .object ∧ first.kind = .openBrace ∨ t.kind = .array ∧ first.kind = .openBracket ∨
      t.kind = .pair ∧ first.kind = .string) := by
  have begins {k : Kind} {first : Tree} {rest : List Tree} (children : t.children = first :: rest)
      (kind : first.kind = k) (single : k.isGroup = Bool.false) : t.tokens = first :: rest.flatMap tokens := by
    rw [tokens_of_group rfl group, children, List.flatMap_cons, tokens_of_single kind single, List.singleton_append]
  cases kind : t.kind with
  | object =>
    obtain ⟨opener, inner, closer, children, opens, _⟩ := sound.object_children kind
    exact ⟨opener, _, begins children opens rfl, Or.inl ⟨rfl, opens⟩⟩
  | array =>
    obtain ⟨opener, inner, closer, children, opens, _⟩ := sound.array_children kind
    exact ⟨opener, _, begins children opens rfl, Or.inr (Or.inl ⟨rfl, opens⟩)⟩
  | pair =>
    obtain ⟨name, _, _, _, _, children, _, isString, _⟩ := sound.pair_children kind
    exact ⟨name, _, begins children isString rfl, Or.inr (Or.inr ⟨rfl, isString⟩)⟩
  | _ => simp [kind, Kind.isGroup] at group

/-- The tokens of a pair are its name, its colon and those of its value, and comments between them. -/
theorem pair_tokens (sound : t.WellFormed) (pair : t.kind = .pair) :
    ∃ (name : Tree) (front : List Tree) (colon : Tree) (back : List Tree) (value : Tree),
      t.tokens = name :: (front ++ colon :: (back ++ value.tokens)) ∧ t.key? = some name ∧
        t.value? = some value ∧ name.kind = .string ∧ colon.kind = .colon ∧
        (∀ c ∈ front, c.kind = .comment) ∧ (∀ c ∈ back, c.kind = .comment) ∧
        ∀ c ∈ t.children, c.kind = .colon → c = colon := by
  obtain ⟨name, front, colon, back, value, children, parts, isString, isColon, isValue, inFront, inBack⟩ :=
    sound.pair_children pair
  have single {comments : List Tree} (all : ∀ c ∈ comments, c.kind = .comment) :
      comments.flatMap tokens = comments := by
    induction comments with
    | nil => rfl
    | cons c rest ih =>
      obtain ⟨first, others⟩ := List.forall_mem_cons.mp all
      rw [List.flatMap_cons, tokens_of_single first rfl, ih others, List.singleton_append]
  refine ⟨name, front, colon, back, value, ?_, by simp [key?, pair, parts], by simp [value?, pair, parts],
    isString, isColon, inFront, inBack, fun c member same => ?_⟩
  · rw [tokens_of_group pair rfl, children]
    simp [tokens_of_single isString rfl, tokens_of_single isColon rfl, single inFront, single inBack]
  · have kept : c ∈ t.parts := List.mem_filter.mpr ⟨member, by simp [same, Kind.isExtra]⟩
    simp only [parts, List.mem_cons, List.not_mem_nil, or_false] at kept
    rcases kept with rfl | rfl | rfl
    · simp [same] at isString
    · rfl
    · simp [same, Kind.isValue] at isValue

/-- The last token of a value or a pair ends it. -/
theorem tokens_end (sound : t.WellFormed) (ends : t.kind.isValue ∨ t.kind = .pair) :
    ∃ front last, t.tokens = front ++ [last] ∧ ¬last.kind.leadsOn := by
  induction sound with
  | @node k s e cs form order inside wide below ih =>
    have sound : (Tree.node k s e false cs).WellFormed := .node form order inside wide below
    have atCloser {opener closer : Tree} {inner : List Tree} {l : Kind} (group : k.isGroup)
        (children : cs = opener :: (inner ++ [closer])) (closes : closer.kind = l) (single : l.isGroup = Bool.false)
        (final : ¬l.leadsOn) :
        ∃ front last, (Tree.node k s e false cs).tokens = front ++ [last] ∧ ¬last.kind.leadsOn := by
      refine ⟨(opener :: inner).flatMap tokens, closer, ?_, closes ▸ final⟩
      have split : (Tree.node k s e false cs).children = (opener :: inner) ++ closer :: [] := children
      rw [tokens_of_split (t := .node k s e false cs) rfl group split, tokens_of_single closes single]
      rfl
    by_cases isObject : k = .object
    · obtain ⟨opener, inner, closer, children, _, closes, _⟩ := sound.object_children isObject
      exact atCloser (isObject ▸ rfl) children closes rfl (by decide)
    by_cases isArray : k = .array
    · obtain ⟨opener, inner, closer, children, _, closes, _⟩ := sound.array_children isArray
      exact atCloser (isArray ▸ rfl) children closes rfl (by decide)
    rcases ends with isValue | pair
    · have literal := Kind.isLiteral_of_isValue isValue isObject isArray
      refine ⟨[], .node k s e false cs, ?_, Kind.not_leadsOn_of_isValue isValue⟩
      exact tokens_of_single (t := .node k s e false cs) rfl (Kind.not_isGroup_of_isLiteral literal)
    · obtain ⟨name, front, colon, back, value, tokens, _, valued, _⟩ := sound.pair_tokens pair
      obtain ⟨before, last, tokens', final⟩ := ih value (mem_of_mem_parts (mem_of_value? valued))
        (Or.inl (sound.isValue_of_value? valued))
      exact ⟨name :: (front ++ colon :: (back ++ before)), last, by rw [tokens, tokens']; simp, final⟩

/-- Tokens stand in the order of the text. -/
theorem tokens_order (sound : t.WellFormed) : t.tokens.Pairwise fun a b => a.stop ≤ b.start := by
  induction sound with
  | @node k s e cs form order inside wide below ih =>
    cases group : k.isGroup with
    | true =>
      rw [tokens_of_group (t := .node k s e false cs) rfl group, List.pairwise_flatMap]
      refine ⟨ih, List.Pairwise.imp_of_mem (fun {a b} inA inB before u inU v inV => ?_) order⟩
      have first := (below a inA).tokens_inside (form.ne_document inA) inU
      have second := (below b inB).tokens_inside (form.ne_document inB) inV
      omega
    | false =>
      rw [tokens_of_single (t := .node k s e false cs) rfl group]
      exact List.pairwise_singleton _ _

/-- A token has one place among the tokens of a tree. -/
theorem tokens_split_unique (sound : t.WellFormed) (part : t.kind ≠ .document) {u : Tree}
    {before after before' after' : List Tree} (split : t.tokens = before ++ u :: after)
    (split' : t.tokens = before' ++ u :: after') : before = before' := by
  have order := sound.tokens_order
  have wide := (sound.tokens_inside part (u := u) (split ▸ by simp)).2.1
  rw [split', List.pairwise_append, List.pairwise_cons] at order
  obtain ⟨_, ⟨behind, _⟩, cross⟩ := order
  have notBefore : u ∉ before' := fun inBefore => by
    have := cross u inBefore u List.mem_cons_self
    omega
  have notAfter : u ∉ after' := fun inAfter => by
    have := behind u inAfter
    omega
  exact ((List.append_cons_inj_of_notMem notBefore notAfter).mp (split'.symm.trans split)).1.symm

end WellFormed

section Separated

variable {α : Type} {sep : α} {items before after : List α}

/-- In front of a separator stands an item. -/
theorem item_before_sep (split : items.intersperse sep = before ++ sep :: after) (notSep : sep ∉ items) :
    ∃ y ∈ items, before.getLast? = some y := by
  fun_induction List.intersperse sep items generalizing before with
  | case1 => simp at split
  | case2 x =>
    cases before with
    | nil => exact absurd (List.cons.inj split).1 (Ne.symm (by simpa using notSep))
    | cons b before => simp at split
  | case3 x xs _ ih =>
    match before, split with
    | [], split => exact absurd (List.cons.inj split).1.symm (fun same => notSep (same ▸ List.mem_cons_self))
    | [b], split =>
      obtain ⟨rfl, _⟩ := List.cons.inj split
      exact ⟨x, List.mem_cons_self, rfl⟩
    | b :: b' :: before, split =>
      obtain ⟨y, member, last⟩ := ih (List.cons.inj (List.cons.inj split).2).2
        (fun inRest => notSep (List.mem_cons_of_mem x inRest))
      exact ⟨y, List.mem_cons_of_mem x member, by simp [List.getLast?_cons, last]⟩

/-- In front of an item other than the first stands a separator. -/
theorem sep_before_item {x : α} (split : items.intersperse sep = before ++ x :: after) (isItem : x ≠ sep) :
    before = [] ∨ before.getLast? = some sep := by
  fun_induction List.intersperse sep items generalizing before with
  | case1 => simp at split
  | case2 y =>
    cases before with
    | nil => exact Or.inl rfl
    | cons b before => simp at split
  | case3 y xs _ ih =>
    match before, split with
    | [], split => exact Or.inl rfl
    | [b], split => exact absurd (List.cons.inj (List.cons.inj split).2).1.symm isItem
    | b :: b' :: before, split =>
      obtain ⟨rfl, rest⟩ := List.cons.inj (List.cons.inj split).2
      rcases ih rest with rfl | last
      · exact Or.inr rfl
      · exact Or.inr (by simp [List.getLast?_cons, last])

end Separated

section Listed

variable {item : Kind → Bool} {inner before after : List Tree} {c : Tree}

/-- Between the brackets the kinds up to a node that is no comment are those of the items and commas. -/
theorem exists_intersperse (listed : Listed (fun k => item k) inner) (split : inner = before ++ c :: after)
    (bare : ∀ t ∈ before, t.kind ≠ .comment) (notComment : c.kind ≠ .comment) :
    ∃ items rest : List Kind, (∀ k ∈ items, item k) ∧ items.intersperse .comma = before.map kind ++ c.kind :: rest := by
  obtain ⟨items, own, separated⟩ := listed
  refine ⟨items, (after.map kind).filter (· ≠ .comment), own, separated.symm.trans ?_⟩
  have kept : (before.map kind).filter (· ≠ .comment) = before.map kind :=
    List.filter_eq_self.mpr fun k member => by
      obtain ⟨t, inBefore, rfl⟩ := List.mem_map.mp member
      simpa using bare t inBefore
  simp only [split, List.map_append, List.map_cons, List.filter_append, kept]
  rw [List.filter_cons_of_pos (by simpa using notComment)]

/-- In front of a comma stands an item. -/
theorem item_before_comma (listed : Listed (fun k => item k) inner) (noItem : ¬item .comma)
    (split : inner = before ++ c :: after) (bare : ∀ t ∈ before, t.kind ≠ .comment) (comma : c.kind = .comma) :
    ∃ front t, before = front ++ [t] ∧ item t.kind := by
  obtain ⟨items, rest, own, separated⟩ := exists_intersperse listed split bare (by simp [comma])
  obtain ⟨k, member, last⟩ := item_before_sep (comma ▸ separated) fun inItems => noItem (own _ inItems)
  rcases List.eq_nil_or_concat before with rfl | ⟨front, t, rfl⟩
  · simp at last
  · refine ⟨front, t, List.concat_eq_append, ?_⟩
    obtain rfl : t.kind = k := by simpa using last
    exact own _ member

/-- In front of an item other than the first stands a comma. -/
theorem comma_before_item (listed : Listed (fun k => item k) inner) (noItem : ¬item .comma)
    (noComment : ¬item .comment) (split : inner = before ++ c :: after)
    (bare : ∀ t ∈ before, t.kind ≠ .comment) (isItem : item c.kind) :
    before = [] ∨ ∃ front t, before = front ++ [t] ∧ t.kind = .comma := by
  have notComment : c.kind ≠ .comment := fun same => noComment (same ▸ isItem)
  obtain ⟨items, rest, own, separated⟩ := exists_intersperse listed split bare notComment
  rcases sep_before_item separated (fun same => noItem (same ▸ isItem)) with none | last
  · exact Or.inl (List.map_eq_nil_iff.mp none)
  · rcases List.eq_nil_or_concat before with rfl | ⟨front, t, rfl⟩
    · exact Or.inl rfl
    · exact Or.inr ⟨front, t, List.concat_eq_append, by simpa using last⟩

/-- In front of a comma stand as many items as commas, the comma itself counted. -/
theorem count_items_before_comma (listed : Listed (fun k => item k) inner) (noItem : ¬item .comma)
    (noComment : ¬item .comment) (split : inner = before ++ c :: after)
    (bare : ∀ t ∈ before, t.kind ≠ .comment) (comma : c.kind = .comma) :
    before.countP (fun t => t.kind = .comma) + 1 = before.countP fun t => item t.kind := by
  obtain ⟨front, t, rfl, isItem⟩ := item_before_comma listed noItem split bare comma
  rw [split, List.append_assoc, List.singleton_append] at listed
  have counted := Listed.count_comma noItem noComment listed isItem
  have notComma : t.kind ≠ .comma := fun same => noItem (same ▸ isItem)
  simp [counted, isItem, notComma]

end Listed

end Tree

end JsonAssist.Syntax
