import Mathlib.Data.List.Nodup
import JsonAssist.Json.Fields

namespace JsonAssist

/-- A name at the end counts if it has not been seen. -/
theorem eraseDups_concat (as : List String) (a : String) :
    (as ++ [a]).eraseDups = if a ∈ as then as.eraseDups else as.eraseDups ++ [a] := by
  rw [List.eraseDups_append]
  by_cases seen : a ∈ as <;> simp [List.removeAll, List.eraseDups_cons, seen]

end JsonAssist

namespace JsonAssist.Fields

variable {α : Type}

@[simp] theorem names_nil : names ([] : Fields α) = [] := rfl

@[simp] theorem names_cons (entry : String × α) (fields : Fields α) :
    names (entry :: fields) = entry.1 :: names fields := rfl

@[simp] theorem names_append (a b : Fields α) : names (a ++ b) = names a ++ names b :=
  List.map_append

theorem nodup_names_cons {entry : String × α} {fields : Fields α} :
    (names (entry :: fields)).Nodup ↔ entry.1 ∉ names fields ∧ (names fields).Nodup :=
  List.nodup_cons

theorem get?_append (a b : Fields α) (name : String) :
    get? (a ++ b) name = (get? a name).or (get? b name) := by
  induction a with
  | nil => rfl
  | cons entry rest ih =>
    by_cases same : entry.1 = name
    · simp [get?, same]
    · simpa [get?, same] using ih

theorem get?_isSome {fields : Fields α} {name : String} :
    (get? fields name).isSome ↔ name ∈ names fields := by
  induction fields with
  | nil => simp [get?]
  | cons entry rest ih =>
    by_cases same : entry.1 = name
    · simp [get?, same]
    · simp [get?, same, ih, Ne.symm same]

theorem has_iff {fields : Fields α} {name : String} : has fields name ↔ name ∈ names fields :=
  get?_isSome

theorem get?_eq_none {fields : Fields α} {name : String} :
    get? fields name = none ↔ name ∉ names fields := by
  rw [← get?_isSome, Option.not_isSome_iff_eq_none]

theorem mem_names_of_get? {fields : Fields α} {name : String} {value : α}
    (found : get? fields name = some value) : name ∈ names fields :=
  get?_isSome.mp (Option.isSome_of_eq_some found)

theorem mem_of_get? {fields : Fields α} {name : String} {value : α}
    (found : get? fields name = some value) : (name, value) ∈ fields := by
  induction fields with
  | nil => simp [get?] at found
  | cons entry rest ih =>
    by_cases same : entry.1 = name
    · simp only [get?, same, if_true, Option.some.injEq] at found
      exact List.mem_cons.mpr (Or.inl (by rw [← same, ← found]))
    · simp only [get?, same, if_false] at found
      exact List.mem_cons_of_mem entry (ih found)

theorem mem_names_of_mem {fields : Fields α} {entry : String × α} (member : entry ∈ fields) :
    entry.1 ∈ names fields := List.mem_map_of_mem member

/-- Where no name is written twice, an entry is found under its own name. -/
theorem get?_of_mem {fields : Fields α} (distinct : (names fields).Nodup) {name : String}
    {value : α} (member : (name, value) ∈ fields) : get? fields name = some value := by
  induction fields with
  | nil => simp at member
  | cons entry rest ih =>
    obtain ⟨fresh, distinctRest⟩ := nodup_names_cons.mp distinct
    rcases List.mem_cons.mp member with rfl | old
    · simp [get?]
    · have different : entry.1 ≠ name := fun same => fresh (same ▸ mem_names_of_mem old)
      simpa [get?, different] using ih distinctRest old

/-- Lists of fields are told apart by their names and by what is found under them. -/
theorem ext {a b : Fields α} (distinct : (names a).Nodup) (sameNames : names a = names b)
    (sameEntries : ∀ name, get? a name = get? b name) : a = b := by
  induction a generalizing b with
  | nil => exact (List.map_eq_nil_iff.mp sameNames.symm).symm
  | cons entry rest ih =>
    cases b with
    | nil => simp at sameNames
    | cons entry' rest' =>
      obtain ⟨fresh, distinctRest⟩ := nodup_names_cons.mp distinct
      obtain ⟨first, others⟩ : entry.1 = entry'.1 ∧ names rest = names rest' := List.cons.inj sameNames
      have fresh' : entry.1 ∉ names rest' := others ▸ fresh
      have atFirst := sameEntries entry.1
      simp only [get?, first, if_true, Option.some.injEq] at atFirst
      refine congrArg₂ List.cons (Prod.ext first atFirst) (ih distinctRest others fun name => ?_)
      by_cases same : entry.1 = name
      · subst same
        rw [get?_eq_none.mpr fresh, get?_eq_none.mpr fresh']
      · simpa [get?, ← first, same] using sameEntries name

/-- Changing the entries under their names changes what is found there, and nothing else. -/
theorem get?_map {β : Type} (change : String → α → β) (fields : Fields α) (name : String) :
    get? (fields.map fun entry => (entry.1, change entry.1 entry.2)) name =
      (get? fields name).map (change name) := by
  induction fields with
  | nil => rfl
  | cons entry rest ih =>
    by_cases same : entry.1 = name
    · simp [get?, same]
    · simpa [get?, same] using ih

/-- Where each name has an entry made for it, that is found under it. -/
theorem get?_map_names (entry : String → α) (as : List String) (name : String) :
    get? (as.map fun a => (a, entry a)) name = if name ∈ as then some (entry name) else none := by
  induction as with
  | nil => rfl
  | cons a as ih =>
    by_cases same : a = name
    · simp [get?, same]
    · simp [get?, same, Ne.symm same, ih]

/-- Leaving out entries by their names hides those names only. -/
theorem get?_filter (keep : String → Bool) (fields : Fields α) (name : String) :
    get? (fields.filter fun entry => keep entry.1) name =
      if keep name then get? fields name else none := by
  induction fields with
  | nil => simp [get?]
  | cons entry rest ih =>
    by_cases same : entry.1 = name
    · subst same
      by_cases kept : keep entry.1
      · simp [get?, kept]
      · simpa [get?, kept] using ih
    · by_cases kept : keep entry.1
      · simpa [get?, kept, same] using ih
      · simpa [get?, kept, same] using ih

theorem names_map {β : Type} (change : String → α → β) (fields : Fields α) :
    names (fields.map fun entry => (entry.1, change entry.1 entry.2)) = names fields := by
  simp [names]

theorem names_filter (keep : String → Bool) (fields : Fields α) :
    names (fields.filter fun entry => keep entry.1) = (names fields).filter keep := by
  simp only [names, List.filter_map]
  rfl

theorem get?_insert (fields : Fields α) (name other : String) (value : α) :
    get? (insert fields name value) other =
      if name = other then some value else get? fields other := by
  induction fields with
  | nil => simp [insert, get?]
  | cons entry rest ih =>
    by_cases same : entry.1 = name
    · subst same
      by_cases asked : entry.1 = other <;> simp [insert, get?, asked]
    · by_cases asked : entry.1 = other
      · subst asked
        simp [insert, get?, same, Ne.symm same]
      · simpa [insert, get?, same, asked] using ih

theorem names_insert (fields : Fields α) (name : String) (value : α) :
    names (insert fields name value) =
      if name ∈ names fields then names fields else names fields ++ [name] := by
  induction fields with
  | nil => simp [insert]
  | cons entry rest ih =>
    by_cases same : entry.1 = name
    · simp [insert, same]
    · simp only [insert, same, if_false, names_cons, ih, List.mem_cons, Ne.symm same, false_or]
      split <;> simp

/-- An entry under a new name goes to the end. -/
theorem insert_of_fresh {fields : Fields α} {name : String} (fresh : name ∉ names fields) (value : α) :
    insert fields name value = fields ++ [(name, value)] := by
  induction fields with
  | nil => rfl
  | cons entry rest ih =>
    obtain ⟨other, freshRest⟩ := List.ne_and_not_mem_of_not_mem_cons fresh
    rw [insert, if_neg (Ne.symm other), ih freshRest, List.cons_append]

theorem nodup_names_insert {fields : Fields α} (distinct : (names fields).Nodup) (name : String) (value : α) :
    (names (insert fields name value)).Nodup := by
  rw [names_insert]
  split
  next => exact distinct
  next fresh => exact distinct.append (List.nodup_singleton name) (List.disjoint_singleton.mpr fresh)

theorem mem_insert {fields : Fields α} {name : String} {value : α} {entry : String × α}
    (member : entry ∈ insert fields name value) : entry ∈ fields ∨ entry = (name, value) := by
  induction fields with
  | nil => exact Or.inr (List.mem_singleton.mp member)
  | cons first rest ih =>
    by_cases same : first.1 = name
    · simp only [insert, same, if_true, List.mem_cons] at member
      exact member.elim Or.inr fun old => Or.inl (List.mem_cons_of_mem first old)
    · simp only [insert, same, if_false, List.mem_cons] at member
      rcases member with rfl | old
      · exact Or.inl List.mem_cons_self
      · exact (ih old).imp_left (List.mem_cons_of_mem first)

end JsonAssist.Fields
