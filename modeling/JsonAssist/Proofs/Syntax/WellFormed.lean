import Mathlib.Data.List.Basic
import JsonAssist.Syntax.Tree

namespace JsonAssist.Syntax

namespace Kind

def isValue : Kind → Bool
  | .object | .array | .string | .number | .true | .false | .null => Bool.true
  | _ => Bool.false

/-- Values that hold no other value. -/
def isLiteral : Kind → Bool
  | .string | .number | .true | .false | .null => Bool.true
  | _ => Bool.false

/-- What the text is made of: a token has no parts. -/
def isToken : Kind → Bool
  | .document | .object | .array | .pair | .string | .error => Bool.false
  | _ => Bool.true

/-- The kinds that the grammar lets stand directly in a node. -/
def mayHold : Kind → Kind → Bool
  | .document, c => c.isValue || c == .comment
  | .object, c => c == .openBrace || c == .closeBrace || c == .pair || c == .comma || c == .comment
  | .array, c => c == .openBracket || c == .closeBracket || c.isValue || c == .comma || c == .comment
  | .pair, c => c == .string || c == .colon || c.isValue || c == .comment
  | .string, c => c == .quote || c == .content || c == .escape || c == .comment
  | _, _ => Bool.false

theorem isValue_of_isLiteral {k : Kind} (literal : k.isLiteral) : k.isValue := by
  cases k <;> simp_all [isLiteral, isValue]

theorem isValue_of_container {k : Kind} (container : k = .object ∨ k = .array) : k.isValue := by
  rcases container with rfl | rfl <;> rfl

theorem not_isLiteral_of_container {k : Kind} (container : k = .object ∨ k = .array) : ¬k.isLiteral := by
  rcases container with rfl | rfl <;> exact Bool.false_ne_true

theorem isLeaf_of_isLiteral {k : Kind} (literal : k.isLiteral) : k.isLeaf := by
  cases k <;> simp_all [isLiteral, isLeaf]

theorem not_isLeaf_of_mayHold {outer inner : Kind} (held : outer.mayHold inner)
    (kind : inner.isValue ∨ inner = .pair) : ¬outer.isLeaf := by
  cases outer with
  | string => cases inner <;> simp_all [mayHold, isValue]
  | content | number | true | false | null => simp [mayHold] at held
  | _ => exact Bool.false_ne_true

end Kind

namespace Tree

/-- Items with a comma between any two of them, and comments anywhere. -/
def Listed (item : Kind → Prop) (inner : List Tree) : Prop :=
  ∃ items : List Kind, (∀ k ∈ items, item k) ∧
    (inner.map kind).filter (· ≠ .comment) = items.intersperse .comma

/-- The children that the grammar gives a node. Comments may stand between any two of its parts, also between the quotes
of a string, where they follow a line break, and around the values of a document. -/
inductive Form : Kind → List Tree → Prop
  | token {k : Kind} (single : k.isToken) : Form k []
  | document {values : List Tree} (kinds : ∀ c ∈ values, c.kind.isValue ∨ c.kind = .comment) :
      Form .document values
  | object {opener closer : Tree} {inner : List Tree} (opens : opener.kind = .openBrace)
      (members : Listed (· = .pair) inner) (closes : closer.kind = .closeBrace) :
      Form .object (opener :: (inner ++ [closer]))
  | array {opener closer : Tree} {inner : List Tree} (opens : opener.kind = .openBracket)
      (elements : Listed (fun k => k.isValue) inner) (closes : closer.kind = .closeBracket) :
      Form .array (opener :: (inner ++ [closer]))
  | pair {key colon value : Tree} {front back : List Tree} (name : key.kind = .string)
      (between : colon.kind = .colon) (isValue : value.kind.isValue)
      (comments : ∀ c ∈ front ++ back, c.kind = .comment) :
      Form .pair (key :: (front ++ colon :: (back ++ [value])))
  | string {opener closer : Tree} {inner : List Tree} (opens : opener.kind = .quote)
      (contents : ∀ c ∈ inner, c.kind = .content ∨ c.kind = .escape ∨ c.kind = .comment)
      (closes : closer.kind = .quote) :
      Form .string (opener :: (inner ++ [closer]))

/-- A tree of the grammar in which nothing is made up and nothing is an error. Its nodes stand in the
order of the text, each around those below it, and only a document may be empty. -/
inductive WellFormed : Tree → Prop
  | node {k : Kind} {s e : Nat} {cs : List Tree} (form : Form k cs)
      (order : cs.Pairwise fun a b => a.stop ≤ b.start)
      (inside : ∀ c ∈ cs, s ≤ c.start ∧ c.stop ≤ e) (wide : k = .document ∨ s < e)
      (below : ∀ c ∈ cs, WellFormed c) : WellFormed (.node k s e false cs)

theorem mem_intersperse {α : Type} {sep a : α} {items : List α} (member : a ∈ items.intersperse sep) :
    a = sep ∨ a ∈ items := by
  fun_induction List.intersperse sep items with
  | case1 => exact Or.inr member
  | case2 => exact Or.inr member
  | case3 x xs _ ih =>
    rcases List.mem_cons.mp member with rfl | inRest
    · exact Or.inr List.mem_cons_self
    · rcases List.mem_cons.mp inRest with rfl | inRest
      · exact Or.inl rfl
      · exact (ih inRest).imp_right (List.mem_cons_of_mem x)

theorem Listed.kinds {item : Kind → Prop} {inner : List Tree} (listed : Listed item inner) {c : Tree}
    (member : c ∈ inner) : c.kind = .comment ∨ c.kind = .comma ∨ item c.kind := by
  obtain ⟨items, own, separated⟩ := listed
  by_cases comment : c.kind = .comment
  · exact Or.inl comment
  · have kept : c.kind ∈ (inner.map kind).filter (· ≠ .comment) :=
      List.mem_filter.mpr ⟨List.mem_map_of_mem member, by simpa using comment⟩
    exact Or.inr ((mem_intersperse (separated ▸ kept)).imp_right (own _))

/-- Between two items stands one comma: as many commas as items come before an item. -/
theorem count_intersperse {item : Kind → Bool} (comma : ¬item .comma) {items before after : List Kind}
    (own : ∀ k ∈ items, item k) {k : Kind} (isItem : item k)
    (split : items.intersperse .comma = before ++ k :: after) :
    before.count .comma = before.countP item := by
  fun_induction List.intersperse Kind.comma items generalizing before with
  | case1 => simp at split
  | case2 x =>
    cases before with
    | nil => rfl
    | cons b before => simp at split
  | case3 x xs _ ih =>
    obtain ⟨first, others⟩ := List.forall_mem_cons.mp own
    match before, split with
    | [], _ => rfl
    | [b], split =>
      obtain ⟨rfl, _⟩ : Kind.comma = k ∧ _ := List.cons.inj (List.cons.inj split).2
      exact absurd isItem comma
    | b :: b' :: before, split =>
      obtain ⟨rfl, behind⟩ := List.cons.inj split
      obtain ⟨rfl, rest⟩ := List.cons.inj behind
      have notComma : x ≠ .comma := fun same => comma (same ▸ first)
      simp [notComma, first, comma, ih others rest]

theorem Listed.count_comma {item : Kind → Bool} (comma : ¬item .comma) (comment : ¬item .comment)
    {before after : List Tree} {t : Tree} (listed : Listed (fun k => item k) (before ++ t :: after))
    (isItem : item t.kind) :
    before.countP (fun c => c.kind = .comma) = before.countP fun c => item c.kind := by
  obtain ⟨items, own, separated⟩ := listed
  have notComment : t.kind ≠ .comment := fun same => comment (same ▸ isItem)
  have split : items.intersperse .comma = (before.map kind).filter (· ≠ .comment) ++ t.kind ::
      (after.map kind).filter (· ≠ .comment) := by
    rw [← separated]
    simp [notComment]
  have alternating := count_intersperse comma own isItem split
  rw [List.count, List.countP_filter, List.countP_filter, List.countP_map, List.countP_map] at alternating
  refine Eq.trans (List.countP_congr fun c _ => ?_) (alternating.trans (List.countP_congr fun c _ => ?_))
  · simp +contextual
  · by_cases same : c.kind = .comment <;> simp [same, comment]

theorem Form.mayHold {k : Kind} {cs : List Tree} (form : Form k cs) {c : Tree} (member : c ∈ cs) :
    k.mayHold c.kind := by
  cases form with
  | token => simp at member
  | document kinds => rcases kinds c member with same | same <;> simp [Kind.mayHold, same]
  | object opens members closes =>
    simp only [List.mem_cons, List.mem_append, List.not_mem_nil, or_false] at member
    rcases member with rfl | inner | rfl
    · simp [Kind.mayHold, opens]
    · rcases members.kinds inner with same | same | same <;> simp [Kind.mayHold, same]
    · simp [Kind.mayHold, closes]
  | array opens elements closes =>
    simp only [List.mem_cons, List.mem_append, List.not_mem_nil, or_false] at member
    rcases member with rfl | inner | rfl
    · simp [Kind.mayHold, opens]
    · rcases elements.kinds inner with same | same | same <;> simp [Kind.mayHold, same]
    · simp [Kind.mayHold, closes]
  | pair name between isValue comments =>
    simp only [List.mem_cons, List.mem_append, List.not_mem_nil, or_false] at member comments
    rcases member with rfl | front | rfl | back | rfl
    · simp [Kind.mayHold, name]
    · simp [Kind.mayHold, comments c (Or.inl front)]
    · simp [Kind.mayHold, between]
    · simp [Kind.mayHold, comments c (Or.inr back)]
    · simp [Kind.mayHold, isValue]
  | string opens contents closes =>
    simp only [List.mem_cons, List.mem_append, List.not_mem_nil, or_false] at member
    rcases member with rfl | inner | rfl
    · simp [Kind.mayHold, opens]
    · rcases contents c inner with same | same | same <;> simp [Kind.mayHold, same]
    · simp [Kind.mayHold, closes]

/-- A document stands in no other node. -/
theorem Form.ne_document {k : Kind} {cs : List Tree} (form : Form k cs) {c : Tree} (member : c ∈ cs) :
    c.kind ≠ .document := fun same => by
  have held := form.mayHold member
  cases k <;> simp [same, Kind.mayHold, Kind.isValue] at held

/-- What stands between the brackets is divided where all that stands in the node is. -/
theorem split_inner {opener closer c : Tree} {inner before after : List Tree}
    (split : opener :: (inner ++ [closer]) = before ++ c :: after) (notOpener : c ≠ opener)
    (notCloser : c ≠ closer) : ∃ front back, before = opener :: front ∧ inner = front ++ c :: back := by
  cases before with
  | nil => exact absurd (List.cons.inj split).1.symm notOpener
  | cons first front =>
    obtain ⟨rfl, rest⟩ := List.cons.inj split
    rcases List.eq_nil_or_concat after with rfl | ⟨back, last, rfl⟩
    · exact absurd (List.append_inj' rest rfl).2 (by simpa using Ne.symm notCloser)
    · have whole : inner ++ [closer] = front ++ c :: back ++ [last] := by simpa using rest
      exact ⟨front, back, rfl, (List.append_inj' whole rfl).1⟩

theorem mem_of_mem_parts {t c : Tree} (member : c ∈ t.parts) : c ∈ t.children :=
  (List.mem_filter.mp member).1

theorem endsWith_concat {k closer : Kind} {s e : Nat} {m : Bool} {opener last : Tree} {inner : List Tree}
    (own : last.kind = closer) (real : last.missing = false) :
    (node k s e m (opener :: (inner ++ [last]))).endsWith closer := by
  rw [endsWith, children, ← List.cons_append, List.getLast?_concat]
  simp [own, real]

namespace WellFormed

variable {t : Tree}

theorem form (sound : t.WellFormed) : Form t.kind t.children := by
  cases sound; assumption

theorem order (sound : t.WellFormed) : t.children.Pairwise fun a b => a.stop ≤ b.start := by
  cases sound; assumption

theorem inside (sound : t.WellFormed) {c : Tree} (member : c ∈ t.children) :
    t.start ≤ c.start ∧ c.stop ≤ t.stop := by
  cases sound with
  | node _ _ inside _ _ => exact inside c member

theorem child (sound : t.WellFormed) {c : Tree} (member : c ∈ t.children) : c.WellFormed := by
  cases sound with
  | node _ _ _ _ below => exact below c member

theorem not_missing (sound : t.WellFormed) : t.missing = false := by
  cases sound; rfl

theorem ne_error (sound : t.WellFormed) : t.kind ≠ .error := by
  cases sound with
  | node form =>
    intro same
    cases form <;> simp_all [kind, Kind.isToken]

theorem wide (sound : t.WellFormed) (part : t.kind ≠ .document) : t.start < t.stop := by
  cases sound with
  | node _ _ _ wide _ => exact wide.resolve_left part

theorem child_wide (sound : t.WellFormed) {c : Tree} (member : c ∈ t.children) : c.start < c.stop :=
  (sound.child member).wide (sound.form.ne_document member)

theorem isClosedPart (sound : t.WellFormed) (part : t.kind ≠ .document) (notPair : t.kind ≠ .pair) :
    t.isClosedPart := by
  have wide := sound.wide part
  have real {c : Tree} (member : c ∈ t.children) : c.missing = false := (sound.child member).not_missing
  rw [Tree.isClosedPart, if_neg (by simp [sound.not_missing])]
  cases sound with
  | @node k s e cs form =>
    cases form with
    | token single => cases k <;> simp_all [Kind.isToken, kind, start, stop]
    | document => exact absurd rfl part
    | object _ _ closes =>
      exact endsWith_concat closes (real (by simp [children]))
    | array _ _ closes =>
      exact endsWith_concat closes (real (by simp [children]))
    | pair => exact absurd rfl notPair
    | string _ _ closes =>
      exact endsWith_concat closes (real (by simp [children]))

theorem object_children (sound : t.WellFormed) (isObject : t.kind = .object) :
    ∃ (opener : Tree) (inner : List Tree) (closer : Tree), t.children = opener :: (inner ++ [closer]) ∧
      opener.kind = .openBrace ∧ closer.kind = .closeBrace ∧ Listed (· = .pair) inner := by
  obtain ⟨k, s, e, m, cs⟩ := t
  subst isObject
  cases sound with
  | node form =>
    cases form with
    | token single => simp [Kind.isToken] at single
    | object opens members closes => exact ⟨_, _, _, rfl, opens, closes, members⟩

theorem array_children (sound : t.WellFormed) (isArray : t.kind = .array) :
    ∃ (opener : Tree) (inner : List Tree) (closer : Tree), t.children = opener :: (inner ++ [closer]) ∧
      opener.kind = .openBracket ∧ closer.kind = .closeBracket ∧ Listed (fun k => k.isValue) inner := by
  obtain ⟨k, s, e, m, cs⟩ := t
  subst isArray
  cases sound with
  | node form =>
    cases form with
    | token single => simp [Kind.isToken] at single
    | array opens elements closes => exact ⟨_, _, _, rfl, opens, closes, elements⟩

/-- The children of a pair are its parts, and comments between them. -/
theorem pair_children (sound : t.WellFormed) (pair : t.kind = .pair) :
    ∃ (name : Tree) (front : List Tree) (colon : Tree) (back : List Tree) (value : Tree),
      t.children = name :: (front ++ colon :: (back ++ [value])) ∧ t.parts = [name, colon, value] ∧
        name.kind = .string ∧ colon.kind = .colon ∧ value.kind.isValue ∧
        (∀ c ∈ front, c.kind = .comment) ∧ ∀ c ∈ back, c.kind = .comment := by
  obtain ⟨k, s, e, m, cs⟩ := t
  cases sound with
  | node form _ _ _ _ =>
    subst pair
    cases form with
    | token single => simp [Kind.isToken] at single
    | @pair key colon value front back name between isValue comments =>
      obtain ⟨inFront, inBack⟩ := List.forall_mem_append.mp comments
      refine ⟨key, front, colon, back, value, rfl, ?_, name, between, isValue, inFront, inBack⟩
      have noFront : front.filter (fun c => !c.kind.isExtra) = [] :=
        List.filter_eq_nil_iff.mpr fun c member => by simp [inFront c member, Kind.isExtra]
      have noBack : back.filter (fun c => !c.kind.isExtra) = [] :=
        List.filter_eq_nil_iff.mpr fun c member => by simp [inBack c member, Kind.isExtra]
      have kept : key.kind.isExtra = false ∧ colon.kind.isExtra = false ∧ value.kind.isExtra = false := by
        rw [name, between]
        cases atValue : value.kind <;> simp_all [Kind.isValue, Kind.isExtra]
      simp [parts, children, noFront, noBack, kept]

/-- A pair is a name, a colon and a value. -/
theorem exists_parts (sound : t.WellFormed) (pair : t.kind = .pair) : ∃ key colon value : Tree,
    t.parts = [key, colon, value] ∧ key.kind = .string ∧ colon.kind = .colon ∧ value.kind.isValue := by
  obtain ⟨key, _, colon, _, value, _, parts, name, between, isValue, _⟩ := sound.pair_children pair
  exact ⟨key, colon, value, parts, name, between, isValue⟩

/-- What ends a node of the grammar is there. -/
theorem isClosed (sound : t.WellFormed) (part : t.kind ≠ .document) : t.isClosed := by
  by_cases pair : t.kind = .pair
  · obtain ⟨key, colon, value, parts, _, _, isValue⟩ := sound.exists_parts pair
    have member : value ∈ t.children := mem_of_mem_parts (parts ▸ by simp)
    have notPair : value.kind ≠ .pair := fun same => by simp [same, Kind.isValue] at isValue
    have closed := (sound.child member).isClosedPart (sound.form.ne_document member) notPair
    simp [Tree.isClosed, value?, pair, sound.not_missing, parts, notPair, closed]
  · simpa [Tree.isClosed, pair] using sound.isClosedPart part pair

/-- A node holds the places in its range. -/
theorem holds_iff (sound : t.WellFormed) (part : t.kind ≠ .document) {offset : Nat} :
    t.holds offset ↔ t.start ≤ offset ∧ offset < t.stop := by
  simp [holds, sound.not_missing, sound.isClosed part]

end WellFormed

theorem chain_eq (offset : Nat) (t : Tree) :
    t.chain offset = t :: if t.isLeaf then [] else chainAmong offset t.children := by
  cases t; rfl

theorem chainAmong_eq_nil {offset : Nat} {ts : List Tree}
    (outside : ∀ t ∈ ts, t.isNamed → t.kind ≠ .comment → ¬t.holds offset) : chainAmong offset ts = [] := by
  induction ts with
  | nil => rfl
  | cons t ts ih =>
    obtain ⟨first, others⟩ := List.forall_mem_cons.mp outside
    rw [chainAmong, if_neg (by simpa using first), ih others]

/-- Of nodes in the order of the text, the chain goes through the one around the place. -/
theorem chainAmong_of_mem {offset : Nat} {ts : List Tree} {t : Tree}
    (sound : ∀ c ∈ ts, c.WellFormed ∧ c.kind ≠ .document)
    (order : ts.Pairwise fun a b => a.stop ≤ b.start) (member : t ∈ ts) (named : t.isNamed)
    (notComment : t.kind ≠ .comment) (starts : t.start ≤ offset) (stops : offset < t.stop) :
    chainAmong offset ts = t.chain offset := by
  induction ts with
  | nil => simp at member
  | cons c rest ih =>
    obtain ⟨⟨own, part⟩, others⟩ := List.forall_mem_cons.mp sound
    obtain ⟨before, ordered⟩ := List.pairwise_cons.mp order
    rcases List.mem_cons.mp member with rfl | inRest
    · have holds := (own.holds_iff part).mpr ⟨starts, stops⟩
      simp [chainAmong, named, notComment, holds]
    · have behind := before t inRest
      have passed : ¬c.holds offset := fun holds => by
        have := (own.holds_iff part).mp holds
        omega
      simp [chainAmong, passed, ih others ordered inRest]

/-- The chain of a node goes on through the value or pair around the place. -/
theorem WellFormed.chain_of_child {offset : Nat} {t c : Tree} (sound : t.WellFormed)
    (member : c ∈ t.children) (kind : c.kind.isValue ∨ c.kind = .pair) (starts : c.start ≤ offset)
    (stops : offset < c.stop) : t.chain offset = t :: c.chain offset := by
  have inner : ¬t.isLeaf := Kind.not_isLeaf_of_mayHold (sound.form.mayHold member) kind
  have named : c.isNamed ∧ c.kind ≠ .comment := by
    cases atKind : c.kind <;> simp_all [isNamed, Kind.isNamed, Kind.isValue]
  rw [chain_eq, if_neg inner, chainAmong_of_mem (fun c member =>
    ⟨sound.child member, sound.form.ne_document member⟩) sound.order member named.1 named.2 starts stops]

/-- The chain of a node ends there if no part but a comment is around the place. -/
theorem WellFormed.chain_eq_self {offset : Nat} {t : Tree} (sound : t.WellFormed)
    (apart : ∀ c ∈ t.children, c.isNamed → c.kind ≠ .comment → ¬(c.start ≤ offset ∧ offset < c.stop)) :
    t.chain offset = [t] := by
  rw [chain_eq]
  split
  next => rfl
  next =>
    rw [chainAmong_eq_nil]
    intro c member named notComment holds
    exact apart c member named notComment
      (((sound.child member).holds_iff (sound.form.ne_document member)).mp holds)

theorem chain_of_leaf {offset : Nat} {t : Tree} (leaf : t.isLeaf) : t.chain offset = [t] := by
  rw [chain_eq, if_pos leaf]

end Tree

end JsonAssist.Syntax
