import JsonAssist.Cursor.Context
import JsonAssist.Proofs.Cursor.Replay
import JsonAssist.Proofs.Syntax.Checked

namespace JsonAssist.Cursor

open Syntax

/-- Containers in each of which a value has begun, and the path to the innermost of these values. -/
inductive Reads : Frames → Path → Prop
  | top : Reads [] []
  | member {frames : Frames} {path : Path} (outer : Reads frames path) (keys : List String) (key : String) :
      Reads (.object keys (some ⟨key, .value⟩) :: frames) (path ++ [.key key])
  | element {frames : Frames} {path : Path} (outer : Reads frames path) (index : Nat) :
      Reads (.array index true :: frames) (path ++ [.index index])

namespace Reads

variable {frames : Frames} {path : Path}

/-- A value that begins is none that one of the containers awaits. -/
theorem startValue (reads : Reads frames path) : frames.startValue = frames := by
  cases reads <;> rfl

theorem steps (reads : Reads frames path) (completion : Bool) :
    (frames.filterMap (stepInto completion false)).reverse = path := by
  induction reads with
  | top => rfl
  | member _ keys key ih => simp [stepInto, ih]
  | element _ index ih => simp [stepInto, ih]

theorem pathThrough_cons (reads : Reads frames path) (completion : Bool) (innermost : Frame) :
    pathThrough completion (innermost :: frames) = path ++ (stepInto completion true innermost).toList := by
  rw [pathThrough, reads.steps]

theorem pathThrough (reads : Reads frames path) (completion : Bool) :
    Cursor.pathThrough completion frames = path := by
  cases reads with
  | top => rfl
  | member outer keys key => simp [outer.pathThrough_cons, stepInto]
  | element outer index => simp [outer.pathThrough_cons, stepInto]

theorem slot (reads : Reads frames path) (entered : path ≠ []) : slotOf frames = .value := by
  cases reads with
  | top => exact absurd rfl entered
  | member => rfl
  | element => rfl

end Reads

section Entering

variable {d : Document} {offset : Nat} {t c : Tree} {frames : Frames} {path : Path}

theorem enterPair_of_value (sound : t.WellFormed) {value : Tree} {keys : List String} {key : String}
    {member : Option Member} (named : d.pairKey? t = some key) (valued : t.value? = some value)
    (starts : value.start ≤ offset) :
    enterPair d t (some value) offset (.object keys member :: frames) =
      .object keys (some ⟨key, .value⟩) :: frames := by
  obtain ⟨name, colon, own, wide, nameBefore, inPair, isColon, colonEnds⟩ := sound.before_value valued
  have different : value.start ≠ name.start := by omega
  have behindColon : colonBefore t offset := List.any_eq_true.mpr ⟨colon, inPair, by
    simp [isColon, (sound.child inPair).not_missing, Nat.le_trans colonEnds starts]⟩
  simp [enterPair, named, own, sameNode, different, behindColon]

theorem enterPair_of_name {name : Tree} {keys : List String} {key : String} {member : Option Member}
    (named : d.pairKey? t = some key) (own : t.key? = some name) :
    enterPair d t (some name) offset (.object keys member :: frames) =
      .object keys (some ⟨key, .name⟩) :: frames := by
  simp [enterPair, named, own, sameNode]

theorem enter_object (sound : t.WellFormed) (isObject : t.kind = .object) (reads : Reads frames path)
    (outer : Option Kind) (next : Option Tree) :
    enter d offset outer t next frames = .object (objectKeys d t) none :: frames := by
  simp only [enter, isObject, reads.startValue]
  refine replay_object sound isObject (fun p inside key named => ?_) _
  exact mem_objectKeys inside (Document.kind_of_pairKey? named) named

theorem enter_array {before after : List Tree} (sound : t.WellFormed) (isArray : t.kind = .array)
    (split : t.children = before ++ c :: after) (isValue : c.kind.isValue) (reads : Reads frames path)
    (outer : Option Kind) :
    enter d offset outer t (some c) frames =
      .array (before.countP fun c => c.kind.isValue) true :: frames := by
  simp only [enter, isArray, reads.startValue]
  exact replay_array sound isArray split isValue

theorem enterAll_chain (outer : Option Kind) (crossed : t.chain offset = t :: c.chain offset) :
    enterAll d offset outer (t.chain offset) frames =
      enterAll d offset (some t.kind) (c.chain offset) (enter d offset outer t (some c) frames) := by
  rw [crossed, c.chain_eq]
  rfl

/-- Through a pair of an object the way goes to the value of the pair. -/
theorem enterAll_member {value : Tree} {key : String} (sound : t.WellFormed) (isObject : t.kind = .object)
    (member : c ∈ t.children) (named : d.pairKey? c = some key) (valued : c.value? = some value)
    (starts : value.start ≤ offset) (stops : offset < value.stop) (reads : Reads frames path)
    (outer : Option Kind) :
    t.chain offset = t :: c :: value.chain offset ∧
      enterAll d offset outer (t.chain offset) frames =
        enterAll d offset (some .pair) (value.chain offset)
          (.object (objectKeys d t) (some ⟨key, .value⟩) :: frames) := by
  have isPair := Tree.kind_of_value? valued
  have ofPair := sound.child member
  have inPair : value ∈ c.children := Tree.mem_of_mem_parts (Tree.mem_of_value? valued)
  have inRange := ofPair.inside inPair
  have first : t.chain offset = t :: c.chain offset :=
    sound.chain_of_child member (Or.inr isPair) (by omega) (by omega)
  have second : c.chain offset = c :: value.chain offset :=
    ofPair.chain_of_child inPair (Or.inl (ofPair.isValue_of_value? valued)) starts stops
  refine ⟨by rw [first, second], ?_⟩
  rw [enterAll_chain outer first, enter_object sound isObject reads,
    enterAll_chain (some t.kind) second, isPair]
  simp only [enter, isPair, enterPair_of_value ofPair named valued starts]

theorem enterAll_element {before after : List Tree} (sound : t.WellFormed) (isArray : t.kind = .array)
    (split : t.children = before ++ c :: after) (isValue : c.kind.isValue) (starts : c.start ≤ offset)
    (stops : offset < c.stop) (reads : Reads frames path) (outer : Option Kind) :
    t.chain offset = t :: c.chain offset ∧
      enterAll d offset outer (t.chain offset) frames =
        enterAll d offset (some .array) (c.chain offset)
          (.array (before.countP fun c => c.kind.isValue) true :: frames) := by
  have crossed : t.chain offset = t :: c.chain offset :=
    sound.chain_of_child (split ▸ by simp) (Or.inl isValue) starts stops
  refine ⟨crossed, ?_⟩
  rw [enterAll_chain outer crossed, enter_array sound isArray split isValue reads, isArray]

end Entering

/-- On the way down along a path, the containers read that path. -/
theorem enterAll_leads {d : Document} {offset : Nat} {t u : Tree} {steps : Path} (leads : Leads d t steps u)
    (sound : t.WellFormed) (starts : u.start ≤ offset) (stops : offset < u.stop) {frames : Frames}
    {path : Path} (reads : Reads frames path) (outer : Option Kind) :
    ∃ crossed outer' frames', t.chain offset = crossed ++ u.chain offset ∧
      enterAll d offset outer (t.chain offset) frames =
        enterAll d offset outer' (u.chain offset) frames' ∧
      Reads frames' (path ++ steps) ∧
      (steps = [] ∧ outer' = outer ∨ outer' = some .pair ∨ outer' = some .array) := by
  induction leads generalizing frames path outer with
  | here t =>
    exact ⟨[], outer, frames, rfl, rfl, (List.append_nil path).symm ▸ reads, Or.inl ⟨rfl, rfl⟩⟩
  | @member object pair value u key steps isObject member named valued rest ih =>
    have inPair : value ∈ pair.children := Tree.mem_of_mem_parts (Tree.mem_of_value? valued)
    have ofValue := (sound.child member).child inPair
    obtain ⟨_, startsIn, stopsIn⟩ := rest.inside ofValue
    obtain ⟨chain, enters⟩ := enterAll_member sound isObject member named valued
      (Nat.le_trans startsIn starts) (Nat.lt_of_lt_of_le stops stopsIn) reads outer
    obtain ⟨crossed, outer', frames', chain', enters', reads', kind⟩ :=
      ih ofValue starts stops (reads.member (objectKeys d object) key) (some .pair)
    refine ⟨object :: pair :: crossed, outer', frames', by rw [chain, chain']; rfl, enters.trans enters',
      by simpa using reads', Or.inr ?_⟩
    exact kind.elim (fun here => Or.inl here.2) id
  | @element array element u before after steps isArray split isValue rest ih =>
    have ofElement := sound.child (c := element) (split ▸ by simp)
    obtain ⟨_, startsIn, stopsIn⟩ := rest.inside ofElement
    obtain ⟨chain, enters⟩ := enterAll_element sound isArray split isValue
      (Nat.le_trans startsIn starts) (Nat.lt_of_lt_of_le stops stopsIn) reads outer
    obtain ⟨crossed, outer', frames', chain', enters', reads', kind⟩ :=
      ih ofElement starts stops (reads.element _) (some .array)
    refine ⟨array :: crossed, outer', frames', by rw [chain, chain']; rfl, enters.trans enters',
      by simpa using reads', Or.inr ?_⟩
    exact kind.elim (fun here => Or.inr here.2) id

theorem isValue_of_leads {d : Document} {t u : Tree} {steps : Path} (leads : Leads d t steps u)
    (isValue : u.kind.isValue) : t.kind.isValue := by
  cases leads with
  | here => exact isValue
  | member isObject => simp [isObject, Kind.isValue]
  | element isArray => simp [isArray, Kind.isValue]

theorem enter_literal {d : Document} {offset : Nat} {t : Tree} (literal : t.kind.isLiteral)
    {outer : Option Kind} (inside : outer = some .pair ∨ outer = some .array) (frames : Frames) :
    enter d offset outer t none frames = frames := by
  rw [enter]
  cases atKind : t.kind <;> simp_all [Kind.isLiteral]

/-- In its name a pair is at hand with the name. -/
theorem enterAll_name {d : Document} {offset : Nat} {pair name : Tree} {keys : List String} {key : String}
    {member : Option Member} {frames : Frames} (named : d.pairKey? pair = some key)
    (own : pair.key? = some name) (isString : name.kind = .string)
    (chain : pair.chain offset = [pair, name]) (outer : Option Kind) :
    enterAll d offset outer (pair.chain offset) (.object keys member :: frames) =
      .object keys (some ⟨key, .name⟩) :: frames := by
  have isPair := Tree.kind_of_key? own
  have atPair : enter d offset outer pair (some name) (.object keys member :: frames) =
      .object keys (some ⟨key, .name⟩) :: frames := by
    simp only [enter, isPair, enterPair_of_name named own]
  rw [chain]
  simp only [enterAll, List.head?_cons, List.head?_nil, atPair, isPair]
  exact enter_literal (by simp [isString, Kind.isLiteral]) (Or.inl rfl) _

section Documents

variable {d : Document} {top : Tree} {path : Path} {offset : Nat}

theorem locate_leads (sound : d.root.WellFormed) (document : d.root.kind = .document)
    (inRoot : top ∈ d.root.children) {u : Tree} (leads : Leads d top path u) (isValue : u.kind.isValue)
    (starts : u.start ≤ offset) (stops : offset < u.stop) :
    ∃ crossed outer frames, d.chainAt offset = crossed ++ u.chain offset ∧
      locate d offset = enterAll d offset outer (u.chain offset) frames ∧ Reads frames path ∧
      (path = [] ∨ outer = some .pair ∨ outer = some .array) := by
  have ofTop := sound.child inRoot
  obtain ⟨_, startsIn, stopsIn⟩ := leads.inside ofTop
  have first : d.root.chain offset = d.root :: top.chain offset :=
    sound.chain_of_child inRoot (Or.inl (isValue_of_leads leads isValue)) (by omega) (by omega)
  have atRoot : enter d offset none d.root (some top) [] = [] := by
    simp only [enter, document]
    exact replay_document sound document _
  obtain ⟨crossed, outer, frames, chain, enters, reads, kind⟩ :=
    enterAll_leads leads ofTop starts stops .top (some d.root.kind)
  refine ⟨d.root :: crossed, outer, frames, by rw [Document.chainAt, first, chain]; rfl, ?_, reads,
    kind.imp_left And.left⟩
  rw [locate, Document.chainAt, enterAll_chain none first, atRoot, enters]

theorem literalAt?_of_chain {crossed : List Tree} {t : Tree} (leaf : t.isLeaf)
    (chain : d.chainAt offset = crossed ++ [t]) : literalAt? d offset = some (t.start, t.stop) := by
  simp [literalAt?, chain, leaf]

/-- Inside a value below another one, the containers read the path to it. -/
theorem locate_value (sound : d.root.WellFormed) (document : d.root.kind = .document)
    (inRoot : top ∈ d.root.children) {literal : Tree} (entered : path ≠ [])
    (leads : Leads d top path literal) (isLiteral : literal.kind.isLiteral)
    (starts : literal.start ≤ offset) (stops : offset < literal.stop) :
    Reads (locate d offset) path ∧ literalAt? d offset = some (literal.start, literal.stop) := by
  obtain ⟨crossed, outer, frames, chain, located, reads, kind⟩ :=
    locate_leads sound document inRoot leads (Kind.isValue_of_isLiteral isLiteral) starts stops
  have leaf := Kind.isLeaf_of_isLiteral isLiteral
  rw [Tree.chain_of_leaf leaf] at chain located
  refine ⟨?_, literalAt?_of_chain leaf chain⟩
  have atEnd : locate d offset = frames :=
    located.trans (enter_literal isLiteral (kind.resolve_left entered) frames)
  exact atEnd ▸ reads

/-- Inside a name, the containers outside its object read the path to that object. -/
theorem locate_name (sound : d.root.WellFormed) (document : d.root.kind = .document)
    (inRoot : top ∈ d.root.children) {name : Tree} {key : String} (names : Names d top path key name)
    (starts : name.start ≤ offset) (stops : offset < name.stop) :
    (∃ keys frames, locate d offset = .object keys (some ⟨key, .name⟩) :: frames ∧ Reads frames path) ∧
      literalAt? d offset = some (name.start, name.stop) := by
  have ofTop := sound.child inRoot
  have isString := names.isString ofTop
  cases names with
  | @pair object pair _ _ _ leads isObject member own named =>
    have isPair := Tree.kind_of_key? own
    have ofObject := (leads.inside ofTop).1
    have ofPair := ofObject.child member
    have inPair : name ∈ pair.children := Tree.mem_of_mem_parts (Tree.mem_of_key? own)
    have inRange := ofPair.inside inPair
    have inObject := ofObject.inside member
    have startsIn : object.start ≤ offset := by omega
    have stopsIn : offset < object.stop := by omega
    have isValue := Kind.isValue_of_container (Or.inl isObject)
    obtain ⟨crossed, outer, frames, chain, located, reads, _⟩ :=
      locate_leads sound document inRoot leads isValue startsIn stopsIn
    have first : object.chain offset = object :: pair.chain offset :=
      ofObject.chain_of_child member (Or.inr isPair) (by omega) (by omega)
    have second : pair.chain offset = pair :: name.chain offset :=
      ofPair.chain_of_child inPair (Or.inl (by simp [isString, Kind.isValue])) starts stops
    have leaf : name.isLeaf := by simp [Tree.isLeaf, isString, Kind.isLeaf]
    have last : name.chain offset = [name] := Tree.chain_of_leaf leaf
    refine ⟨⟨objectKeys d object, frames, ?_, reads⟩, literalAt?_of_chain leaf
      (by rw [chain, first, second, last, List.append_cons, List.append_cons])⟩
    rw [located, enterAll_chain outer first, enter_object ofObject isObject reads]
    exact enterAll_name named own isString (second.trans (congrArg _ last)) _

end Documents

/-- In a well-formed document, a place in a literal tells where the literal stands. For a value that
is the path from the top-level value above it, to which completion goes too; for a name it is the path
of its object and the name, while completion stops at the object. Every literal in an object or array
is one of the two. -/
theorem literal_location (d : Document) (sound : d.root.WellFormed) (document : d.root.kind = .document) :
    (∀ container literal, Inside d.root container →
        (container.kind = .object ∨ container.kind = .array) → Inside container literal →
        literal.kind.isLiteral → ∃ top ∈ d.root.children,
          (∃ path, path ≠ [] ∧ Leads d top path literal) ∨ ∃ path key, Names d top path key literal) ∧
      ∀ top ∈ d.root.children, ∀ literal : Tree, ∀ offset, literal.start ≤ offset → offset < literal.stop →
        (∀ path, path ≠ [] → Leads d top path literal → literal.kind.isLiteral →
          pathAt d offset = path ∧ completionPathAt d offset = path ∧
            (contextAt d offset).slot = .value ∧
            (contextAt d offset).replace = some (literal.start, literal.stop)) ∧
        (∀ path key, Names d top path key literal →
          pathAt d offset = path ++ [.key key] ∧ completionPathAt d offset = path ∧
            (contextAt d offset).slot = .property ∧
            (contextAt d offset).replace = some (literal.start, literal.stop)) := by
  refine ⟨fun container literal outer isContainer inner isLiteral =>
    Inside.found_in_document sound document outer isContainer inner isLiteral d, ?_⟩
  intro top inRoot literal offset starts stops
  refine ⟨fun path entered leads isLiteral => ?_, fun path key names => ?_⟩
  · obtain ⟨reads, range⟩ := locate_value sound document inRoot entered leads isLiteral starts stops
    exact ⟨reads.pathThrough false, reads.pathThrough true, reads.slot entered, range⟩
  · obtain ⟨⟨keys, frames, located, reads⟩, range⟩ := locate_name sound document inRoot names starts stops
    refine ⟨?_, ?_, ?_, range⟩
    · rw [pathAt, located, reads.pathThrough_cons]
      rfl
    · rw [completionPathAt, located, reads.pathThrough_cons]
      exact List.append_nil path
    · simp only [contextAt, located]
      rfl

/-- A string behind another element, with a comment between its quotes, and the name of the array around it. -/
theorem literal_location_nested :
    let name : Tree := .node .string 1 4 false
      [.node .quote 1 2 false [], .node .content 2 3 false [], .node .quote 3 4 false []]
    let literal : Tree := .node .string 13 21 false [.node .quote 13 14 false [], .node .content 14 15 false [],
      .node .comment 16 20 false [], .node .quote 20 21 false []]
    let array : Tree := .node .array 6 22 false [.node .openBracket 6 7 false [],
      .node .null 7 11 false [], .node .comma 11 12 false [], literal, .node .closeBracket 21 22 false []]
    let pair : Tree := .node .pair 1 22 false [name, .node .colon 4 5 false [], array]
    let object : Tree := .node .object 0 23 false
      [.node .openBrace 0 1 false [], pair, .node .closeBrace 22 23 false []]
    let d : Document := ⟨"\x7b\"a\": [null, \"x\n/**/\"]\x7d", .node .document 0 23 false [object]⟩
    d.root.WellFormed ∧ d.root.kind = .document ∧
      (pathAt d 17 = [.key "a", .index 1] ∧ completionPathAt d 17 = [.key "a", .index 1] ∧
        (contextAt d 17).slot = .value ∧ (contextAt d 17).replace = some (13, 21)) ∧
      pathAt d 2 = [.key "a"] ∧ completionPathAt d 2 = [] ∧
        (contextAt d 2).slot = .property ∧ (contextAt d 2).replace = some (1, 4) := by
  intro name literal array pair object d
  have sound : d.root.WellFormed := Tree.wellFormed_of_isWellFormed (by decide)
  have named : d.pairKey? pair = some "a" := by decide +kernel
  have inObject : pair ∈ object.children := by simp [object, Tree.children]
  have split : array.children = array.children.take 3 ++ literal :: array.children.drop 4 := rfl
  have leads : Leads d object [.key "a", .index 1] literal :=
    .member rfl inObject named rfl (.element rfl split rfl (.here literal))
  have names : Names d object [] "a" name := .pair (.here object) rfl inObject rfl named
  obtain ⟨_, location⟩ := literal_location d sound rfl
  obtain ⟨ofValue, _⟩ := location object List.mem_cons_self literal 17 (by decide) (by decide)
  obtain ⟨_, ofName⟩ := location object List.mem_cons_self name 2 (by decide) (by decide)
  exact ⟨sound, rfl, ofValue _ (by simp) leads rfl, ofName _ _ names⟩

end JsonAssist.Cursor
