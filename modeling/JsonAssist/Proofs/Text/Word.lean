import Mathlib.Data.List.DropRight
import Mathlib.Data.String.Basic
import JsonAssist.Proofs.Text.Columns
import JsonAssist.Text.Word

namespace JsonAssist

/-- The offset lies between two characters, or at an end of the text. -/
def IsBoundary (s : List Char) (offset : Nat) : Prop :=
  ∃ before after, s = before ++ after ∧ byteLength before = offset

section Bytes

variable {s t : List Char} {offset : Nat}

theorem utf8Len_eq_byteLength (s : List Char) : String.utf8Len s = byteLength s := by
  induction s with
  | nil => rfl
  | cons c s ih => rw [String.utf8Len_cons, ih, byteLength_cons, Nat.add_comm]

theorem byteLength_reverse (s : List Char) : byteLength s.reverse = byteLength s := by
  rw [← utf8Len_eq_byteLength, String.utf8Len_reverse, utf8Len_eq_byteLength]

theorem splitAtByte?_go_eq_some {acc before after : List Char}
    (split : splitAtByte?.go offset acc s = some (before, after)) :
    ∃ front, s = front ++ after ∧ before = front.reverse ++ acc ∧ byteLength front = offset := by
  induction s generalizing offset acc with
  | nil =>
    cases offset with
    | zero =>
      obtain ⟨rfl, rfl⟩ := Prod.mk.inj (Option.some.inj split)
      exact ⟨[], rfl, rfl, rfl⟩
    | succ offset => cases split
  | cons c s ih =>
    cases offset with
    | zero =>
      obtain ⟨rfl, rfl⟩ := Prod.mk.inj (Option.some.inj split)
      exact ⟨[], rfl, rfl, rfl⟩
    | succ offset =>
      rw [splitAtByte?.go] at split
      by_cases fits : c.utf8Size ≤ offset + 1
      · rw [if_pos fits] at split
        obtain ⟨front, rfl, rfl, bytes⟩ := ih split
        refine ⟨c :: front, rfl, by simp, ?_⟩
        rw [byteLength_cons, bytes]
        omega
      · rw [if_neg fits] at split
        cases split

theorem splitAtByte?_eq_none_iff : splitAtByte? offset s = none ↔ ¬IsBoundary s offset := by
  constructor
  · rintro none ⟨before, after, rfl, rfl⟩
    rw [splitAtByte?_append] at none
    cases none
  · intro inside
    cases split : splitAtByte? offset s with
    | none => rfl
    | some parts =>
      obtain ⟨front, same, _, bytes⟩ := splitAtByte?_go_eq_some split
      exact absurd ⟨front, parts.2, same, bytes⟩ inside

/-- Of two fronts of a text the one with fewer bytes is a front of the other. -/
theorem isPrefix_of_byteLength_le {u : List Char} (front : s <+: u) (front' : t <+: u)
    (le : byteLength s ≤ byteLength t) : s <+: t := by
  rcases List.prefix_or_prefix_of_prefix front front' with shorter | ⟨more, rfl⟩
  · exact shorter
  · have none : more = [] := by
      by_contra some
      have := byteLength_pos some
      rw [byteLength_append] at le
      omega
    simp only [none, List.append_nil, List.prefix_rfl]

theorem IsBoundary.le (boundary : IsBoundary s offset) : offset ≤ byteLength s := by
  obtain ⟨before, after, rfl, rfl⟩ := boundary
  exact byteLength_le_of_isPrefix (List.prefix_append before after)

theorem isValid_of_isBoundary {text : String} (boundary : IsBoundary text.toList offset) :
    String.Pos.Raw.isValid text ⟨offset⟩ := by
  obtain ⟨before, after, same, rfl⟩ := boundary
  refine String.Pos.Raw.isValid_eq_true_iff.mpr (String.Pos.Raw.isValid_iff_exists_append.mpr ?_)
  refine ⟨String.ofList before, String.ofList after, ?_, ?_⟩
  · rw [← String.ofList_append, ← same, String.ofList_toList]
  · have size : (String.ofList before).utf8ByteSize = byteLength before := by
      rw [String.utf8ByteSize_ofList, utf8Len_eq_byteLength]
    rw [← size]
    rfl

/-- What stands between two places is cut out by their offsets. -/
theorem sliceText_of_split {text : String} {front inner back : List Char}
    (split : text.toList = front ++ (inner ++ back)) :
    sliceText text (byteLength front) (byteLength (front ++ inner)) = String.ofList inner := by
  have starts : IsBoundary text.toList (byteLength front) := ⟨front, _, split, rfl⟩
  have stops : IsBoundary text.toList (byteLength (front ++ inner)) :=
    ⟨front ++ inner, back, by simpa using split, rfl⟩
  have order : byteLength front ≤ byteLength (front ++ inner) :=
    byteLength_le_of_isPrefix (List.prefix_append front inner)
  simp only [sliceText, order, isValid_of_isBoundary starts, isValid_of_isBoundary stops, decide_true, Bool.and_self,
    if_true]
  have cut := String.extract_of_valid front inner back
  simp only [utf8Len_eq_byteLength] at cut
  rw [← byteLength_append, List.append_assoc, ← split, String.ofList_toList] at cut
  exact cut

end Bytes

namespace Text

/-- A word character is the last one. -/
def EndsInWord (s : List Char) : Prop := ∃ c, s.getLast? = some c ∧ isWordChar c

/-- A word character is the first one. -/
def BeginsWithWord (s : List Char) : Prop := ∃ c, s.head? = some c ∧ isWordChar c

/-- A word that stands in a text, with no word character next to it. -/
structure WordIn (s front word back : List Char) : Prop where
  text : s = front ++ (word ++ back)
  nonempty : word ≠ []
  own : ∀ c ∈ word, isWordChar c
  starts : ¬EndsInWord front
  stops : ¬BeginsWithWord back

section Words

variable {front left right back word : List Char} {text : String} {offset : Nat}

theorem takeWhile_append_of_stops (own : ∀ c ∈ word, isWordChar c) (stops : ¬BeginsWithWord back) :
    (word ++ back).takeWhile isWordChar = word := by
  rw [List.takeWhile_append_of_pos own]
  cases back with
  | nil => rw [List.takeWhile_nil, List.append_nil]
  | cons c back =>
    have other : ¬isWordChar c := fun isWord => stops ⟨c, rfl, isWord⟩
    rw [List.takeWhile_cons_of_neg other, List.append_nil]

theorem beginsWithWord_reverse (s : List Char) : BeginsWithWord s.reverse ↔ EndsInWord s := by
  rw [BeginsWithWord, EndsInWord, List.head?_reverse]

/-- What is found at a place inside a run of word characters that no other one is next to. -/
theorem wordAt_of_split (split : text.toList = (front ++ left) ++ (right ++ back))
    (own : ∀ c ∈ left ++ right, isWordChar c) (starts : ¬EndsInWord front) (stops : ¬BeginsWithWord back) :
    wordAt text (byteLength (front ++ left)) =
      if left ++ right = [] then none else some (byteLength front, byteLength (front ++ (left ++ right))) := by
  obtain ⟨ownLeft, ownRight⟩ := List.forall_mem_append.mp own
  have before : ((front ++ left).reverse).takeWhile isWordChar = left.reverse := by
    rw [List.reverse_append]
    exact takeWhile_append_of_stops (by simpa using ownLeft) (mt (beginsWithWord_reverse front).mp starts)
  have after : (right ++ back).takeWhile isWordChar = right := takeWhile_append_of_stops ownRight stops
  have left' : byteLength left.reverse = byteLength left := byteLength_reverse left
  rw [wordAt, split, splitAtByte?_append, Option.bind_some]
  simp only [before, after, left', byteLength_append, Nat.add_sub_cancel]
  by_cases empty : left ++ right = []
  · obtain ⟨rfl, rfl⟩ := List.append_eq_nil_iff.mp empty
    simp
  · have := byteLength_pos empty
    rw [byteLength_append] at this
    rw [if_neg empty, if_pos (by omega), Nat.add_assoc]

/-- A place in a text has a run of word characters around it, which may be empty. -/
theorem exists_split_at_word (before after : List Char) :
    ∃ front left right back, before = front ++ left ∧ after = right ++ back ∧ (∀ c ∈ left ++ right, isWordChar c) ∧
      ¬EndsInWord front ∧ ¬BeginsWithWord back := by
  refine ⟨before.rdropWhile isWordChar, before.rtakeWhile isWordChar, after.takeWhile isWordChar,
    after.dropWhile isWordChar, List.rdropWhile_append_rtakeWhile.symm, List.takeWhile_append_dropWhile.symm,
    List.forall_mem_append.mpr ⟨fun c => List.mem_rtakeWhile_imp, fun c => List.mem_takeWhile_imp⟩, ?_, ?_⟩
  · rintro ⟨c, last, isWord⟩
    obtain ⟨nonempty, rfl⟩ := List.mem_getLast?_eq_getLast last
    exact List.rdropWhile_last_not _ _ nonempty isWord
  · rintro ⟨c, first, isWord⟩
    have other : isWordChar c = false := by simpa only [first] using List.head?_dropWhile_not isWordChar after
    cases isWord.symm.trans other

/-- Nothing is found only where there is no place in the text, or none with a word character next to it. -/
theorem wordAt_eq_none_iff : wordAt text offset = none ↔ byteLength text.toList < offset ∨
    ¬IsBoundary text.toList offset ∨ ∃ before after, text.toList = before ++ after ∧ byteLength before = offset ∧
      ¬EndsInWord before ∧ ¬BeginsWithWord after := by
  constructor
  · intro none
    by_cases boundary : IsBoundary text.toList offset
    · obtain ⟨before, after, same, rfl⟩ := boundary
      obtain ⟨front, left, right, back, rfl, rfl, own, starts, stops⟩ := exists_split_at_word before after
      rw [wordAt_of_split same own starts stops] at none
      by_cases empty : left ++ right = []
      · obtain ⟨rfl, rfl⟩ := List.append_eq_nil_iff.mp empty
        rw [List.append_nil, List.nil_append] at *
        exact Or.inr (Or.inr ⟨front, back, by simpa using same, rfl, starts, stops⟩)
      · rw [if_neg empty] at none
        cases none
    · exact Or.inr (Or.inl boundary)
  · rintro (past | inside | ⟨before, after, same, rfl, starts, stops⟩)
    · have inside : ¬IsBoundary text.toList offset := fun boundary => Nat.not_lt.mpr boundary.le past
      rw [wordAt, splitAtByte?_eq_none_iff.mpr inside, Option.bind_none]
    · rw [wordAt, splitAtByte?_eq_none_iff.mpr inside, Option.bind_none]
    · have split : text.toList = (before ++ []) ++ ([] ++ after) := by simpa using same
      simpa using wordAt_of_split split nofun starts stops

/-- From every place that it touches a word is found. -/
theorem WordIn.wordAt (own : WordIn text.toList front word back) (starts : byteLength front ≤ offset)
    (stops : offset ≤ byteLength (front ++ word)) (boundary : IsBoundary text.toList offset) :
    wordAt text offset = some (byteLength front, byteLength (front ++ word)) := by
  obtain ⟨before, after, same, rfl⟩ := boundary
  have split := own.text
  have inText : front <+: text.toList := ⟨word ++ back, split.symm⟩
  have wordInText : front ++ word <+: text.toList := ⟨back, by rw [split, List.append_assoc]⟩
  have placeInText : before <+: text.toList := ⟨after, same.symm⟩
  obtain ⟨left, rfl⟩ := isPrefix_of_byteLength_le inText placeInText starts
  obtain ⟨right, whole⟩ := isPrefix_of_byteLength_le placeInText wordInText stops
  obtain rfl : word = left ++ right := by
    rw [List.append_assoc] at whole
    exact (List.append_cancel_left whole).symm
  rw [wordAt_of_split (by rw [split, List.append_assoc, List.append_assoc]) own.own own.starts own.stops,
    if_neg own.nonempty]

/-- What is found is a word that touches the place. -/
theorem exists_wordIn {start stop : Nat} (found : Text.wordAt text offset = some (start, stop)) :
    ∃ front word back, WordIn text.toList front word back ∧ byteLength front = start ∧
      byteLength (front ++ word) = stop ∧ start ≤ offset ∧ offset ≤ stop := by
  have some : Text.wordAt text offset ≠ none := by simp [found]
  obtain ⟨_, boundary, _⟩ : _ ∧ _ ∧ _ := by simpa only [Ne, wordAt_eq_none_iff, not_or] using some
  obtain ⟨before, after, same, rfl⟩ := not_not.mp boundary
  obtain ⟨front, left, right, back, rfl, rfl, own, starts, stops⟩ := exists_split_at_word before after
  rw [wordAt_of_split same own starts stops] at found
  by_cases empty : left ++ right = []
  · rw [if_pos empty] at found
    cases found
  · rw [if_neg empty] at found
    obtain ⟨rfl, rfl⟩ := Prod.mk.inj (Option.some.inj found)
    refine ⟨front, left ++ right, back, ⟨by simpa using same, empty, own, starts, stops⟩, rfl, rfl, ?_, ?_⟩
    · exact byteLength_le_of_isPrefix (List.prefix_append front left)
    · exact byteLength_le_of_isPrefix (by rw [← List.append_assoc]; exact List.prefix_append _ right)

end Words

end Text

end JsonAssist
