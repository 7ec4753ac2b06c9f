import JsonAssist.Proofs.Completion.Literals
import JsonAssist.Proofs.Completion.Naming

namespace JsonAssist

namespace Resolved

/-- A path that can be followed to its end, and has no empty name. -/
inductive Reaches : Resolved → Path → Resolved → Prop
  | here (place : Resolved) : Reaches place [] place
  | step {here next there : Resolved} {first : Step} {rest : Path} (named : ¬first.isEmpty)
      (enters : here.step first = some next) (others : Reaches next rest there) : Reaches here (first :: rest) there

/-- The longest beginning of a path that can be followed leads to a place. -/
structure LeadsFurthest (here : Resolved) (path front : Path) (there : Resolved) : Prop where
  begins : front <+: path
  reaches : Reaches here front there
  longest : ∀ other place, other <+: path → Reaches here other place → other.length ≤ front.length

theorem LeadsFurthest.of_stuck {here : Resolved} {first : Step} {rest : Path}
    (stuck : ¬first.isEmpty → here.step first = none) : LeadsFurthest here (first :: rest) [] here where
  begins := List.nil_prefix
  reaches := .here here
  longest other place begins reaches := by
    cases reaches with
    | here => exact Nat.le_refl 0
    | step named enters _ =>
      obtain ⟨rfl, _⟩ := List.cons_prefix_cons.mp begins
      exact absurd ((stuck named).symm.trans enters) nofun

theorem LeadsFurthest.step {here next there : Resolved} {first : Step} {rest front : Path}
    (named : ¬first.isEmpty) (enters : here.step first = some next) (further : LeadsFurthest next rest front there) :
    LeadsFurthest here (first :: rest) (first :: front) there where
  begins := List.cons_prefix_cons.mpr ⟨rfl, further.begins⟩
  reaches := .step named enters further.reaches
  longest other place begins reaches := by
    cases reaches with
    | here => exact Nat.zero_le _
    | step _ enters' others =>
      obtain ⟨rfl, behind⟩ := List.cons_prefix_cons.mp begins
      obtain rfl := Option.some.inj (enters.symm.trans enters')
      exact Nat.succ_le_succ (further.longest _ place behind others)

/-- Following a path ends where its longest beginning that can be followed does. -/
theorem exists_leadsFurthest (here : Resolved) (path : Path) :
    ∃ front, LeadsFurthest here path front (here.follow path) := by
  fun_induction follow here path with
  | case1 here => exact ⟨[], List.prefix_rfl, .here here, fun _ _ begins _ => begins.length_le⟩
  | case2 here first rest empty => exact ⟨[], .of_stuck fun named => absurd empty named⟩
  | case3 here first rest named next enters ih =>
    obtain ⟨front, further⟩ := ih
    exact ⟨first :: front, further.step named enters⟩
  | case4 here first rest _ stuck => exact ⟨[], .of_stuck fun _ => stuck⟩

end Resolved

namespace Completion

/-- Candidates for literals: each text of a known value once, in the order of its bytes, with its type. -/
structure OffersLiterals (values : List Value) (offered : List Candidate) : Prop where
  kind : ∀ c ∈ offered, c.kind = .value
  increasing : (offered.map Candidate.label).Pairwise fun a b => Text.utf8 a < Text.utf8 b
  once : (offered.map Candidate.label).Nodup
  labels : ∀ label, label ∈ offered.map Candidate.label ↔ ∃ v ∈ values, v.compact = label
  types : ∀ c ∈ offered, ∀ v ∈ values, v.compact = c.label → c.detail = some v.type.name
  texts : ∀ c ∈ offered, c.filterText = some c.label ∧ c.insertText = c.label

/-- Candidates for names: each property that is not taken once, in the order of the properties. -/
structure OffersNames (properties : Fields Schema) (taken : List String) (offered : List Candidate) : Prop where
  kind : ∀ c ∈ offered, c.kind = .property
  labels : offered.map Candidate.label = (Fields.names properties).filter (· ∉ taken)
  once : (offered.map Candidate.label).Nodup

/-- Each candidate for a literal is made of a known value and its place among the literals. -/
theorem exists_of_mem_valueCandidates {values : List Value} {replace : Option (Nat × Nat)} {c : Candidate}
    (member : c ∈ valueCandidates values replace) : ∃ v ∈ values, ∃ rank, c = ⟨v.compact, .value, some v.type.name,
      none, some v.compact, v.compact, "0_" ++ rankText rank, replace⟩ := by
  obtain ⟨⟨entry, rank⟩, inOrder, rfl⟩ := List.mem_map.mp member
  obtain ⟨v, known, rfl⟩ := exists_of_mem_literals (List.fst_mem_of_mem_zipIdx inOrder)
  exact ⟨v, known, rank, rfl⟩

theorem offersLiterals_valueCandidates (values : List Value) (replace : Option (Nat × Nat)) :
    OffersLiterals values (valueCandidates values replace) := by
  have ordered : ((valueCandidates values replace).map Candidate.label).Pairwise (· < ·) := by
    rw [labels_valueCandidates, List.pairwise_map]
    exact pairwise_literals values
  refine ⟨fun _ => kind_of_mem_valueCandidates, ordered.imp Text.utf8_lt, ordered.imp ne_of_lt,
    fun _ => mem_labels_valueCandidates, fun c member v known same => ?_, fun c member => ?_⟩
  · obtain ⟨w, _, _, rfl⟩ := exists_of_mem_valueCandidates member
    rw [Value.type_of_compact same]
  · obtain ⟨w, _, _, rfl⟩ := exists_of_mem_valueCandidates member
    exact ⟨rfl, rfl⟩

theorem offersNames_propertyCandidates {properties : Fields Schema} (distinct : (Fields.names properties).Nodup)
    (taken : List String) (replace : Option (Nat × Nat)) :
    OffersNames properties taken (propertyCandidates properties taken replace) := by
  have labels := labels_propertyCandidates properties taken replace
  exact ⟨fun _ => kind_of_mem_propertyCandidates, labels, labels ▸ distinct.filter _⟩

theorem replace_of_mem_propertyCandidates {properties : Fields Schema} {taken : List String}
    {replace : Option (Nat × Nat)} {c : Candidate} (member : c ∈ propertyCandidates properties taken replace) :
    c.replace = replace := by
  obtain ⟨entry, _, rfl⟩ := List.mem_map.mp member
  rfl

theorem plan_of_value_slot {forest : Forest} {context : Cursor.Context}
    (none : (forest.resolve context.path).values.getD [] = []) (slot : context.slot = .value) :
    plan forest context = [] := by
  rw [plan, slot]
  cases known : (forest.resolve context.path).values with
  | none => rfl
  | some values =>
    obtain rfl : values = [] := by simpa [known] using none
    rfl

/-- A plan offers the literals that are known, or else nothing or properties. -/
theorem plan_cases (forest : Forest) (context : Cursor.Context) :
    (∃ values, plan forest context = valueCandidates values context.replace) ∨ plan forest context = [] ∨
      ∃ properties, plan forest context = propertyCandidates properties context.existing context.replace := by
  by_cases none : (forest.resolve context.path).values.getD [] = []
  · cases slot : context.slot with
    | value => exact Or.inr (Or.inl (plan_of_value_slot none slot))
    | property => exact Or.inr (Or.inr ⟨_, plan_of_no_values none slot⟩)
  · cases known : (forest.resolve context.path).values with
    | none => exact absurd (known ▸ rfl) none
    | some values => exact Or.inl ⟨values, plan_of_values known (by simpa [known] using none)⟩

/-- What is offered at one place is of one kind, and all of it replaces the same range. -/
theorem exists_kind_of_plan (forest : Forest) (context : Cursor.Context) :
    ∃ kind, ∀ c ∈ plan forest context, c.kind = kind ∧ c.replace = context.replace := by
  rcases plan_cases forest context with ⟨values, literals⟩ | nothing | ⟨properties, names⟩
  · rw [literals]
    refine ⟨.value, fun c member => ?_⟩
    obtain ⟨_, _, _, rfl⟩ := exists_of_mem_valueCandidates member
    exact ⟨rfl, rfl⟩
  · rw [nothing]
    exact ⟨.value, nofun⟩
  · rw [names]
    exact ⟨.property, fun c member =>
      ⟨kind_of_mem_propertyCandidates member, replace_of_mem_propertyCandidates member⟩⟩

/-- A plan follows the path as far as it leads. If literals are known there it offers all of them, each once and
in the order of their bytes, whatever is being written; if not, nothing for a value, and for a name the
properties there that are not taken, each once and in their order. All that it offers is of one kind, and
replaces what the place says. -/
theorem plan_offers (forest : Forest) (distinct : Schema.FieldsDistinct forest) (context : Cursor.Context) :
    let there := forest.resolve context.path
    let offered := plan forest context
    (∃ front, (Resolved.forest forest).LeadsFurthest context.path front there) ∧
      (∃ kind, ∀ c ∈ offered, c.kind = kind ∧ c.replace = context.replace) ∧
      (∀ values, there.values = some values → values ≠ [] → OffersLiterals values offered) ∧
      (there.values.getD [] = [] → context.slot = .value → offered = []) ∧
      (there.values.getD [] = [] → context.slot = .property →
        OffersNames (there.properties.getD []) context.existing offered) := by
  intro there offered
  have names : (Fields.names (there.properties.getD [])).Nodup := Forest.nodup_names_resolve distinct context.path
  refine ⟨Resolved.exists_leadsFurthest _ _, exists_kind_of_plan forest context, fun values known some => ?_,
    plan_of_value_slot, fun none slot => ?_⟩
  · have literals : offered = valueCandidates values context.replace := plan_of_values known some
    exact literals ▸ offersLiterals_valueCandidates values context.replace
  · have properties : offered = propertyCandidates _ context.existing context.replace := plan_of_no_values none slot
    exact properties ▸ offersNames_propertyCandidates names context.existing context.replace

/-- Behind the elements of an array the path goes on to a name, which leads nowhere; of the literals known
there one is known twice. -/
theorem plan_offers_elements :
    let known : List Value := [.boolean true, .string "b", .array [.number (.integer 1)], .string "b",
      .number (.integer 10)]
    let forest : Forest := [("a", .node .array (some [("b", .node .null none none)]) (some known))]
    let context : Cursor.Context := ⟨[.key "a", .index 3, .key "b"], .property, ["b"], some (2, 5)⟩
    let offered := plan forest context
    Schema.FieldsDistinct forest ∧ forest.resolve context.path = .elements known ∧
      OffersLiterals known offered ∧ ∀ c ∈ offered, c.replace = some (2, 5) := by
  intro known forest context offered
  have distinct : Schema.FieldsDistinct forest := ⟨by decide, by
    simp [forest, known, Schema.namesDistinct_node, Value.namesDistinct_array, Value.NamesDistinct.boolean,
      Value.NamesDistinct.string, Value.NamesDistinct.number]⟩
  obtain ⟨_, ⟨_, alike⟩, literals, _⟩ := plan_offers forest distinct context
  exact ⟨distinct, rfl, literals known rfl (by simp [known]), fun c member => (alike c member).2⟩

end Completion

end JsonAssist
