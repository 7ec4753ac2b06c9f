import Mathlib.Data.List.Perm.Basic
import JsonAssist.Corpus
import JsonAssist.Proofs.Json.Load
import JsonAssist.Proofs.Schema.Collected

namespace JsonAssist

open Schema

namespace Schema

/-- Two schemas that tell the same of their location, whatever the order in which they tell it. -/
structure AlikeHere (s t : Schema) : Prop where
  type : s.type = t.type
  children : s.children.isSome ↔ t.children.isSome
  names : ∀ name, name ∈ Fields.names (s.children.getD []) ↔ name ∈ Fields.names (t.children.getD [])
  values : s.values.isSome ↔ t.values.isSome
  literals : ∀ v : Value, v.isIn (s.values.getD []) ↔ v.isIn (t.values.getD [])

end Schema

/-- Two forests with the same keys and, at every place, schemas that are alike or none. -/
structure Forest.Alike (f g : Forest) : Prop where
  keys : ∀ key, key ∈ Fields.names f ↔ key ∈ Fields.names g
  nodes : ∀ path, Option.Rel Schema.AlikeHere (f.at? path) (g.at? path)

theorem reached_perm {left right : List Value} (reordered : left.Perm right) (path : List String) :
    (reached left path).Perm (reached right path) := by
  induction path generalizing left right with
  | nil => exact reordered
  | cons name path ih => exact ih (reordered.flatMap_right (Value.under name))

theorem found_perm {left right : List Value} (reordered : left.Perm right) (key : String)
    (path : List String) : (found left key path).Perm (found right key path) :=
  reached_perm (reordered.filterMap (Value.field? key)) path

theorem Value.isIn_getD_firstSeen {v : Value} {values : List Value} (literals : ∀ w ∈ values, w.isScalar) :
    v.isIn ((firstSeen? values).getD []) ↔ v.isIn values := by
  by_cases empty : values = []
  · simp [firstSeen?, empty]
  · simp only [firstSeen?, empty, if_false, Option.getD_some]
    rw [← joinValues_nil_eq_eraseDupsBy literals, isIn_joinValues]
    simp [isIn]

namespace Schema

theorem Collects.rank_le {s t : Schema} {left right : List Value} (inLeft : s.Collects left)
    (inRight : t.Collects right) (subset : left ⊆ right) : s.type.rank ≤ t.type.rank := by
  obtain ⟨v, member, type⟩ := inLeft.typeFound
  exact type ▸ inRight.dominant v (subset member)

/-- Schemas are alike that tell of values with the same dominant type, names and literals. -/
theorem Collects.alikeHere_of {s t : Schema} {left right : List Value} (inLeft : s.Collects left)
    (inRight : t.Collects right) (type : s.type = t.type)
    (container : (∃ v ∈ left, v.isContainer) ↔ ∃ v ∈ right, v.isContainer)
    (names : ∀ name, name ∈ left.flatMap Value.namesUnder ↔ name ∈ right.flatMap Value.namesUnder)
    (literals : ∀ v, v ∈ left.flatMap Value.literals ↔ v ∈ right.flatMap Value.literals) : AlikeHere s t where
  type := type
  children := by rw [inLeft.container, inRight.container, container]
  names name := by rw [inLeft.names, inRight.names, List.mem_eraseDups, List.mem_eraseDups, names]
  values := by
    rw [inLeft.literals, inRight.literals]
    simp only [Value.firstSeen?, List.eq_nil_iff_forall_not_mem, literals]
    split <;> simp
  literals v := by
    rw [inLeft.literals, inRight.literals,
      Value.isIn_getD_firstSeen (Value.forall_isScalar_flatMap_literals left),
      Value.isIn_getD_firstSeen (Value.forall_isScalar_flatMap_literals right), Value.isIn_iff,
      Value.isIn_iff]
    exact exists_congr fun w => and_congr_left fun _ => literals w

theorem Collects.alikeHere {s t : Schema} {left right : List Value} (inLeft : s.Collects left)
    (inRight : t.Collects right) (reordered : left.Perm right) : AlikeHere s t :=
  inLeft.alikeHere_of inRight
    (JsonType.rank_injective (Nat.le_antisymm (inLeft.rank_le inRight reordered.subset)
      (inRight.rank_le inLeft reordered.symm.subset)))
    (exists_congr fun _ => and_congr_left fun _ => reordered.mem_iff)
    (fun _ => (reordered.flatMap_right Value.namesUnder).mem_iff)
    (fun _ => (reordered.flatMap_right Value.literals).mem_iff)

theorem observeAll_alike {left right : List Value} (inLeft : ∀ v ∈ left, v.NamesDistinct)
    (inRight : ∀ v ∈ right, v.NamesDistinct) (reordered : left.Perm right) :
    Option.Rel AlikeHere (observeAll left) (observeAll right) := by
  by_cases empty : left = []
  · subst empty
    rw [List.nil_perm.mp reordered]
    exact .none
  · have notEmpty : right ≠ [] := fun empty' => empty (List.perm_nil.mp (empty' ▸ reordered))
    obtain ⟨s, seenLeft⟩ := Option.isSome_iff_exists.mp (observeAll_isSome.mpr empty)
    obtain ⟨t, seenRight⟩ := Option.isSome_iff_exists.mp (observeAll_isSome.mpr notEmpty)
    rw [seenLeft, seenRight]
    exact .some ((collects_observeAll inLeft seenLeft).alikeHere (collects_observeAll inRight seenRight)
      reordered)

end Schema

namespace Forest

theorem build_alike_of_perm {documents reordered : List Value}
    (distinct : ∀ d ∈ documents, d.NamesDistinct) (order : reordered.Perm documents) :
    (build reordered).Alike (build documents) := by
  have distinct' : ∀ d ∈ reordered, d.NamesDistinct := fun d member => distinct d (order.subset member)
  refine ⟨fun key => ?_, fun path => ?_⟩
  · rw [names_build distinct, names_build distinct', List.mem_eraseDups, List.mem_eraseDups]
    exact (order.flatMap_right Value.memberNames).mem_iff
  · cases path with
    | nil => exact .none
    | cons key path =>
      rw [at?_build distinct, at?_build distinct']
      have places := found_perm order key path
      have own := namesDistinct_reached (namesDistinct_filterMap_field distinct key) path
      have own' := namesDistinct_reached (namesDistinct_filterMap_field distinct' key) path
      exact observeAll_alike own' own places

/-- A forest does not depend on how its corpus is split, ordered or repeated: that of two corpora is
the key union of theirs, keys of the left one first; another order of the documents gives an alike
forest; and documents that are in the corpus already change nothing. -/
theorem build_corpus (left right : List Value) (inLeft : ∀ d ∈ left, d.NamesDistinct)
    (inRight : ∀ d ∈ right, d.NamesDistinct) :
    build (left ++ right) = joinFields (build left) (build right) ∧
      (∀ reordered : List Value, reordered.Perm left → (build reordered).Alike (build left)) ∧
      ((∀ d ∈ right, d ∈ left) → build (left ++ right) = build left) :=
  ⟨build_append_eq inLeft inRight, fun _ order => build_alike_of_perm inLeft order,
    fun known => build_append_of_subset inLeft known⟩

/-- Two documents that share a name, told in either order, and the first of them once more. -/
theorem build_corpus_of_two :
    let first : Value := .object [("a", .number (.integer 1)), ("b", .array [])]
    let second : Value := .object [("c", .null), ("a", .string "x")]
    first.NamesDistinct ∧ second.NamesDistinct ∧
      build ([first, second] ++ [first]) = joinFields (build [first, second]) (build [first]) ∧
      (build [second, first]).Alike (build [first, second]) ∧
      build ([first, second] ++ [first]) = build [first, second] := by
  intro first second
  have own : first.NamesDistinct := by
    simp [first, Value.namesDistinct_object, Value.namesDistinct_array, Value.NamesDistinct.number]
  have own' : second.NamesDistinct := by
    simp [second, Value.namesDistinct_object, Value.NamesDistinct.null, Value.NamesDistinct.string]
  obtain ⟨union, alike, unchanged⟩ :=
    build_corpus [first, second] [first] (by simp [own, own']) (by simp [own])
  exact ⟨own, own', union, alike _ (.swap ..), unchanged (by simp)⟩

end Forest

/-- The documents of a corpus that is read are such as all of this asks for. -/
theorem Corpus.namesDistinct_of_read {files : Files} {root : String} {corpus : Corpus}
    (read : Corpus.read files root = .ok corpus) : ∀ d ∈ corpus.documents, d.NamesDistinct := by
  rw [Corpus.read] at read
  split at read
  next =>
    cases read
    intro d member
    obtain ⟨loaded, inLoaded, ok⟩ := List.mem_filterMap.mp member
    obtain ⟨path, _, rfl⟩ := List.mem_map.mp inLoaded
    rw [Files.load] at ok
    split at ok
    next => exact nomatch ok
    next text _ =>
      split at ok
      next => exact nomatch ok
      next v loadedValue =>
        cases ok
        exact Value.namesDistinct_of_load loadedValue
  next => exact nomatch read

end JsonAssist
