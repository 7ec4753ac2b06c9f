import JsonAssist.Item.Catalog
import JsonAssist.Proofs.Json.Fields
import JsonAssist.Proofs.Text.Word

namespace JsonAssist

open Text

namespace Catalog

variable {catalog : Catalog} {text : String} {offset : Nat}

theorem hover_of_none (none : wordAt text offset = none) : catalog.hover text offset = Option.none := by
  rw [hover, none]
  rfl

/-- What is shown at a place that a word touches: the item of that id, if there is one. -/
theorem hover_of_wordIn (catalog : Catalog) {front word back : List Char}
    (own : WordIn text.toList front word back)
    (found : wordAt text offset = some (byteLength front, byteLength (front ++ word))) :
    catalog.hover text offset = (catalog.get? (String.ofList word)).map fun item =>
      (item.hoverText, byteLength front, byteLength (front ++ word)) := by
  simp only [hover, found, bind, Option.bind_some, sliceText_of_split own.text]
  cases catalog.get? (String.ofList word) <;> rfl

/-- The word at a place is the longest run of word characters that touches it, given by the places of its ends, and
there is none if no word character touches the place or there is no such place. From all places that touch the word,
its ends included, the same word is found and the same is shown: the item whose id it is, if there is one. -/
theorem hover_at_word (catalog : Catalog) (text : String) (offset : Nat) :
    (wordAt text offset = none ↔ byteLength text.toList < offset ∨ ¬IsBoundary text.toList offset ∨
      ∃ before after, text.toList = before ++ after ∧ byteLength before = offset ∧
        ¬EndsInWord before ∧ ¬BeginsWithWord after) ∧
      (wordAt text offset = none → catalog.hover text offset = none) ∧
      ∀ start stop, wordAt text offset = some (start, stop) → start ≤ offset ∧ offset ≤ stop ∧
        ∃ front word back, WordIn text.toList front word back ∧ byteLength front = start ∧
          byteLength (front ++ word) = stop ∧ sliceText text start stop = String.ofList word ∧
          (catalog.hover text offset = (catalog.get? (String.ofList word)).map fun item =>
            (item.hoverText, start, stop)) ∧
          ((catalog.hover text offset).isSome ↔ String.ofList word ∈ Fields.names catalog.items) ∧
          ∀ other, start ≤ other → other ≤ stop → IsBoundary text.toList other →
            wordAt text other = some (start, stop) ∧ catalog.hover text other = catalog.hover text offset := by
  refine ⟨wordAt_eq_none_iff, hover_of_none, fun start stop found => ?_⟩
  obtain ⟨front, word, back, own, rfl, rfl, starts, stops⟩ := exists_wordIn found
  have shown := hover_of_wordIn catalog own found
  refine ⟨starts, stops, front, word, back, own, rfl, rfl, sliceText_of_split own.text, shown, ?_, ?_⟩
  · rw [shown, Option.isSome_map, get?, Fields.get?_isSome]
  · intro other starts' stops' boundary
    have found' := own.wordAt starts' stops' boundary
    exact ⟨found', (hover_of_wordIn catalog own found').trans shown.symm⟩

/-- An id of two letters that take two bytes each, seen from its middle and from both of its ends. -/
theorem hover_at_word_of_wide :
    let catalog := Catalog.mk [("éé", ⟨"éé", "E", "two"⟩)]
    wordAt "-éé" 3 = some (1, 5) ∧ IsBoundary "-éé".toList 1 ∧ IsBoundary "-éé".toList 5 ∧
      wordAt "-éé" 1 = some (1, 5) ∧ wordAt "-éé" 5 = some (1, 5) ∧
      catalog.hover "-éé" 1 = some ("### E\n\ntwo", 1, 5) ∧ catalog.hover "-éé" 5 = some ("### E\n\ntwo", 1, 5) := by
  intro catalog
  have found : wordAt "-éé" 3 = some (1, 5) := by decide +kernel
  have shown : catalog.hover "-éé" 3 = some ("### E\n\ntwo", 1, 5) := by decide +kernel
  have first : IsBoundary "-éé".toList 1 := ⟨['-'], ['é', 'é'], by decide +kernel, rfl⟩
  have last : IsBoundary "-éé".toList 5 := ⟨['-', 'é', 'é'], [], by decide +kernel, rfl⟩
  obtain ⟨_, _, whole⟩ := hover_at_word catalog "-éé" 3
  obtain ⟨_, _, _, _, _, _, _, _, _, _, _, same⟩ := whole 1 5 found
  obtain ⟨found₁, shown₁⟩ := same 1 (by decide) (by decide) first
  obtain ⟨found₅, shown₅⟩ := same 5 (by decide) (by decide) last
  exact ⟨found, first, last, found₁, found₅, shown₁.trans shown, shown₅.trans shown⟩

end Catalog

end JsonAssist
