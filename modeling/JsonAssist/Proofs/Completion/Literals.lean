import JsonAssist.Proofs.Completion.Candidates
import JsonAssist.Proofs.Json.WrittenValue
import JsonAssist.Proofs.Text.ByteOrder

namespace JsonAssist

/-- The type of the values whose text begins with a character. -/
def JsonType.ofFirst (c : Char) : JsonType :=
  if c = 'n' then .null
  else if c = 't' ∨ c = 'f' then .boolean
  else if c = '"' then .string
  else if c = '[' then .array
  else if c = '\x7b' then .object
  else .number

namespace Value

theorem ofFirst_numeral {s : List Char} (numeral : Grammar.IsNumeral s) :
    ∃ c rest, s = c :: rest ∧ JsonType.ofFirst c = .number := by
  obtain ⟨c, rest, rfl, isDigit⟩ := numeral.exists_digit
  have other {d : Char} (notDigit : d.isDigit = false) := Reader.ne_of_isDigit isDigit notDigit
  refine ⟨c, rest, rfl, ?_⟩
  rw [JsonType.ofFirst, if_neg (other rfl), if_neg (not_or.mpr ⟨other rfl, other rfl⟩), if_neg (other rfl),
    if_neg (other rfl), if_neg (other rfl)]

/-- The text of a value begins with what its type begins with. -/
theorem exists_first (v : Value) : ∃ c rest, v.chars = c :: rest ∧ JsonType.ofFirst c = v.type := by
  cases v with
  | null => exact ⟨_, _, rfl, rfl⟩
  | boolean b => cases b <;> exact ⟨_, _, rfl, rfl⟩
  | string s => exact ⟨_, _, rfl, rfl⟩
  | array xs => cases xs <;> exact ⟨_, _, rfl, rfl⟩
  | object ms => cases ms <;> exact ⟨_, _, rfl, rfl⟩
  | number n =>
    obtain ⟨sign, numeral, rfl | rfl, form, text⟩ := Reader.exists_numeral_chars n
    · obtain ⟨c, rest, rfl, first⟩ := ofFirst_numeral form
      exact ⟨c, rest, text, first⟩
    · exact ⟨'-', numeral, text, rfl⟩

theorem chars_of_compact {v w : Value} (same : v.compact = w.compact) : v.chars = w.chars :=
  String.ofList_injective same

/-- Values of one text are of one type. -/
theorem type_of_compact {v w : Value} (same : v.compact = w.compact) : v.type = w.type := by
  obtain ⟨c, rest, written, type⟩ := exists_first v
  obtain ⟨c', rest', written', type'⟩ := exists_first w
  have first := written.symm.trans ((chars_of_compact same).trans written')
  rw [← type, ← type', (List.cons.inj first).1]

end Value

namespace Completion

theorem dropRepeats_sublist (entries : List (String × JsonType)) : (dropRepeats entries).Sublist entries := by
  fun_induction dropRepeats entries with
  | case1 a b rest _ ih => exact ih.trans ((List.sublist_cons_self b rest).cons_cons a)
  | case2 a b rest _ ih => exact ih.cons_cons a
  | case3 entries => exact List.Sublist.refl entries

/-- In an ordered list equal texts stand side by side, so that dropping repeats leaves each text once. -/
theorem pairwise_dropRepeats {entries : List (String × JsonType)}
    (ordered : entries.Pairwise fun a b => a.1 ≤ b.1) : (dropRepeats entries).Pairwise fun a b => a.1 < b.1 := by
  fun_induction dropRepeats entries with
  | case1 a b rest _ ih => exact ih (ordered.sublist ((List.sublist_cons_self b rest).cons_cons a))
  | case2 a b rest different ih =>
    obtain ⟨before, others⟩ := List.pairwise_cons.mp ordered
    have next : a.1 < b.1 := lt_of_le_of_ne (before b List.mem_cons_self) different
    refine List.pairwise_cons.mpr ⟨fun c member => ?_, ih others⟩
    rcases List.mem_cons.mp ((dropRepeats_sublist (b :: rest)).subset member) with rfl | inRest
    · exact next
    · exact next.trans_le ((List.pairwise_cons.mp others).1 c inRest)
  | case3 entries short =>
    rcases entries with _ | ⟨a, _ | ⟨b, rest⟩⟩
    · exact List.Pairwise.nil
    · exact List.pairwise_singleton _ a
    · exact (short a b rest rfl).elim

theorem pairwise_literals (values : List Value) : (literals values).Pairwise fun a b => a.1 < b.1 :=
  pairwise_dropRepeats (Text.pairwise_mergeSort Prod.fst _)

/-- Each literal is the text of a known value, with its type. -/
theorem exists_of_mem_literals {values : List Value} {entry : String × JsonType}
    (member : entry ∈ literals values) : ∃ v ∈ values, entry = (v.compact, v.type) := by
  have known := (List.mergeSort_perm _ _).mem_iff.mp ((dropRepeats_sublist _).subset member)
  obtain ⟨v, inValues, same⟩ := List.mem_map.mp known
  exact ⟨v, inValues, same.symm⟩

/-- There are as many literals as values if no two values have one text. -/
theorem length_literals {values : List Value} (distinct : (values.map Value.compact).Nodup) :
    (literals values).length = values.length := by
  have once : ((literals values).map Prod.fst).Nodup :=
    List.pairwise_map.mpr ((pairwise_literals values).imp fun less => less.ne)
  have same : ((literals values).map Prod.fst).Perm (values.map Value.compact) :=
    (List.perm_ext_iff_of_nodup once distinct).mpr fun label => by rw [mem_labels_literals, List.mem_map]
  simpa using same.length_eq

end Completion

end JsonAssist
