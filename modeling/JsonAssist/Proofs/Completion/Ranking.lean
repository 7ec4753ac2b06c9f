import JsonAssist.Category.Registry
import JsonAssist.Proofs.Completion.Offers
import JsonAssist.Proofs.Json.WrittenString

namespace JsonAssist

/-- The place of a kind among the kinds. -/
def CandidateKind.place : CandidateKind → Nat
  | .value => 0
  | .property => 1
  | .item => 2

namespace Completion

/-- The digits of a number behind as many zeros as fill the width. -/
def padded (width n : Nat) : List Char :=
  List.replicate (width - (Nat.toDigits 10 n).length) '0' ++ Nat.toDigits 10 n

theorem toList_rankText (rank : Nat) : (rankText rank).toList = padded 5 rank := String.toList_ofList

theorem digitChar_lt : ∀ n < 10, ∀ m < n, Nat.digitChar m < Nat.digitChar n := by decide

/-- The last digit stands behind the others, which fill the width but for one. -/
theorem padded_succ (width n : Nat) :
    padded (width + 2) n = padded (width + 1) (n / 10) ++ [Nat.digitChar (n % 10)] := by
  rcases Nat.lt_or_ge n 10 with digit | more
  · have none : n / 10 = 0 := Nat.div_eq_of_lt digit
    have last : n % 10 = n := Nat.mod_eq_of_lt digit
    rw [none, last, padded, padded, Nat.toDigits_of_lt_base digit, Nat.toDigits_of_lt_base (by decide)]
    exact congrArg (· ++ _) List.replicate_succ'
  · have digits := Nat.toDigits_of_base_le (by decide : 1 < 10) more
    have zeros : width + 2 - (Nat.toDigits 10 n).length = width + 1 - (Nat.toDigits 10 (n / 10)).length := by
      rw [digits, List.length_append, List.length_singleton]
      omega
    rw [padded, padded, zeros, digits, List.append_assoc]

/-- A lesser number comes before a greater one that the width holds, whatever follows them. -/
theorem padded_lt {width m n : Nat} (less : m < n) (fits : n < 10 ^ (width + 1)) (s t : List Char) :
    padded (width + 1) m ++ s < padded (width + 1) n ++ t := by
  induction width generalizing m n s t with
  | zero =>
    have digit {k : Nat} (small : k < 10) : padded 1 k = [Nat.digitChar k] := by
      rw [padded, Nat.toDigits_of_lt_base small]
      rfl
    rw [digit (by omega), digit (by omega)]
    exact List.cons_lt_cons_iff.mpr (Or.inl (digitChar_lt n (by omega) m less))
  | succ width ih =>
    rw [padded_succ, padded_succ, List.append_assoc, List.append_assoc]
    rcases Nat.lt_or_ge (m / 10) (n / 10) with front | others
    · exact ih front (by omega) _ _
    · have same : m / 10 = n / 10 := by omega
      rw [same]
      have last : m % 10 < n % 10 := by omega
      exact List.append_left_lt (List.cons_lt_cons_iff.mpr (Or.inl (digitChar_lt _ (by omega) _ last)))

theorem rankText_lt {m n : Nat} (less : m < n) (fits : n < 100000) : rankText m < rankText n := by
  rw [String.lt_iff_toList_lt, toList_rankText, toList_rankText]
  simpa using padded_lt less fits [] []

/-- The first number of six digits comes before those of five. -/
theorem rankText_overflows : rankText 100000 < rankText 99999 := by decide

theorem append_lt_append_left {s t : String} (front : String) (less : s < t) : front ++ s < front ++ t := by
  rw [String.lt_iff_toList_lt, String.toList_append, String.toList_append]
  exact List.append_left_lt (String.lt_iff_toList_lt.mp less)

section Literals

variable {values : List Value} {replace : Option (Nat × Nat)}

theorem length_valueCandidates (values : List Value) (replace : Option (Nat × Nat)) :
    (valueCandidates values replace).length = (literals values).length := by
  rw [valueCandidates, List.length_map, List.length_zipIdx]

theorem valueCandidates_nil : valueCandidates [] replace = [] := by simp [valueCandidates, literals, dropRepeats]

theorem sortText_valueCandidates {i : Nat} (inside : i < (valueCandidates values replace).length) :
    (valueCandidates values replace)[i].sortText = "0_" ++ rankText i := by
  simp [valueCandidates]

/-- As long as five digits number the literals, their sort texts increase. -/
theorem pairwise_sortText (few : (literals values).length ≤ 100000) :
    (valueCandidates values replace).Pairwise fun a b => a.sortText < b.sortText := by
  rw [List.pairwise_iff_getElem]
  intro i j inside inside' less
  have numbered : j < 100000 := by
    rw [length_valueCandidates] at inside'
    omega
  rw [sortText_valueCandidates, sortText_valueCandidates]
  exact append_lt_append_left _ (rankText_lt less numbered)

/-- If the sort texts of the literals never decrease, five digits number them. -/
theorem length_le_of_sorted
    (sorted : (valueCandidates values replace).Pairwise fun a b => ¬Text.utf8 b.sortText < Text.utf8 a.sortText) :
    (literals values).length ≤ 100000 := by
  by_contra many
  rw [List.pairwise_iff_getElem] at sorted
  have length := length_valueCandidates values replace
  have ordered := sorted 99999 100000 (by omega) (by omega) (by omega)
  rw [sortText_valueCandidates, sortText_valueCandidates] at ordered
  exact ordered (Text.utf8_lt (append_lt_append_left _ rankText_overflows))

/-- Candidates for literals in the order of their sort texts are in the order in which they were given if and
only if five digits number them. -/
theorem sorted_eq_iff {sorted : List Candidate} (same : sorted.Perm (valueCandidates values replace))
    (order : sorted.Pairwise fun a b => ¬Text.utf8 b.sortText < Text.utf8 a.sortText) :
    sorted = valueCandidates values replace ↔ (literals values).length ≤ 100000 := by
  constructor
  · rintro rfl
    exact length_le_of_sorted order
  · intro few
    have increasing : (valueCandidates values replace).Pairwise fun a b => a.sortText < b.sortText :=
      pairwise_sortText few
    have order' := increasing.imp fun less => Text.not_utf8_lt less.le
    refine same.eq_of_pairwise (fun a b member member' notAfter notBefore => ?_) order order'
    obtain ⟨i, inside, rfl⟩ := List.getElem_of_mem (same.subset member)
    obtain ⟨j, inside', rfl⟩ := List.getElem_of_mem member'
    rw [List.pairwise_iff_getElem] at increasing
    rcases Nat.lt_trichotomy i j with less | rfl | less
    · exact absurd (Text.utf8_lt (increasing i j inside inside' less)) notBefore
    · rfl
    · exact absurd (Text.utf8_lt (increasing j i inside' inside less)) notAfter

end Literals

section All

variable {registry : Registry} {catalog : Option Catalog} {path text : String} {offset : Nat}

/-- The sort text of a candidate begins with the digit of the place of its kind. -/
def Marked (c : Candidate) : Prop := ∃ rest, c.sortText.toList = Nat.digitChar c.kind.place :: rest

theorem Marked.lt {a b : Candidate} (marked : Marked a) (marked' : Marked b) (before : a.kind.place < b.kind.place) :
    a.sortText < b.sortText := by
  obtain ⟨rest, written⟩ := marked
  obtain ⟨rest', written'⟩ := marked'
  have digit : b.kind.place < 10 := by cases b.kind <;> decide
  rw [String.lt_iff_toList_lt, written, written']
  exact List.cons_lt_cons_iff.mpr (Or.inl (digitChar_lt _ digit _ before))

theorem marked_of_mem_plan {forest : Forest} {context : Cursor.Context} {c : Candidate}
    (member : c ∈ plan forest context) : Marked c := by
  rcases plan_cases forest context with ⟨values, literals⟩ | nothing | ⟨properties, names⟩
  · obtain ⟨v, _, rank, rfl⟩ := exists_of_mem_valueCandidates (literals ▸ member)
    exact ⟨_, String.toList_append⟩
  · exact absurd (nothing ▸ member) List.not_mem_nil
  · obtain ⟨entry, _, rfl⟩ := List.mem_map.mp (names ▸ member)
    exact ⟨_, String.toList_append⟩

theorem kind_of_mem_items {c : Candidate} (member : c ∈ (catalog.map Catalog.candidates).getD []) :
    c.kind = .item ∧ Marked c := by
  cases catalog with
  | none => exact absurd member List.not_mem_nil
  | some catalog =>
    obtain ⟨item, _, rfl⟩ := List.mem_map.mp member
    exact ⟨rfl, _, String.toList_append⟩

theorem marked_of_mem_complete {c : Candidate} (member : c ∈ complete registry catalog path text offset) :
    Marked c := by
  rcases List.mem_append.mp member with known | item
  · cases category : registry.select path with
    | none => simp [category] at known
    | some category' => exact marked_of_mem_plan (by simpa [category] using known)
  · exact (kind_of_mem_items item).2

/-- The candidates for literals. -/
def onlyValues (offered : List Candidate) : List Candidate := offered.filter fun c => c.kind = .value

theorem onlyValues_valueCandidates {values : List Value} {replace : Option (Nat × Nat)} :
    onlyValues (valueCandidates values replace) = valueCandidates values replace :=
  List.filter_eq_self.mpr fun _ member => decide_eq_true (kind_of_mem_valueCandidates member)

theorem onlyValues_items : onlyValues ((catalog.map Catalog.candidates).getD []) = [] := by
  refine List.filter_eq_nil_iff.mpr fun c member => ?_
  rw [(kind_of_mem_items member).1]
  decide

theorem onlyValues_plan (forest : Forest) (context : Cursor.Context) :
    ∃ values, onlyValues (plan forest context) = valueCandidates values context.replace := by
  rcases plan_cases forest context with ⟨values, literals⟩ | nothing | ⟨properties, names⟩
  · rw [literals]
    exact ⟨values, onlyValues_valueCandidates⟩
  · rw [nothing]
    exact ⟨[], valueCandidates_nil.symm⟩
  · rw [names]
    refine ⟨[], (List.filter_eq_nil_iff.mpr fun c member => ?_).trans valueCandidates_nil.symm⟩
    rw [kind_of_mem_propertyCandidates member]
    decide

theorem onlyValues_complete (registry : Registry) (catalog : Option Catalog) (path text : String) (offset : Nat) :
    ∃ values replace, onlyValues (complete registry catalog path text offset) = valueCandidates values replace := by
  rw [complete, onlyValues, List.filter_append]
  change ∃ values replace, onlyValues _ ++ onlyValues _ = _
  rw [onlyValues_items, List.append_nil]
  cases registry.select path with
  | none => exact ⟨[], none, valueCandidates_nil.symm⟩
  | some category =>
    obtain ⟨values, literals⟩ := onlyValues_plan category.forest (Cursor.contextAt (.parse text) offset)
    exact ⟨values, _, literals⟩

theorem onlyValues_complete_of_values {category : Category} {values : List Value}
    (selected : registry.select path = some category)
    (known : (category.forest.resolve (Cursor.contextAt (.parse text) offset).path).values = some values)
    (notEmpty : values ≠ []) :
    ∃ replace, onlyValues (complete registry catalog path text offset) = valueCandidates values replace := by
  rw [complete, onlyValues, List.filter_append, selected]
  change ∃ replace, onlyValues (plan _ _) ++ onlyValues _ = _
  rw [onlyValues_items, List.append_nil, plan_of_values known notEmpty]
  exact ⟨_, onlyValues_valueCandidates⟩

/-- The candidates in the order of the bytes of their sort texts are ordered by kind: values, then properties,
then items. The literals, which are offered in the order of their own bytes, keep that order if and only if there
are at most as many as five digits can number. -/
theorem order_by_sort_text (registry : Registry) (catalog : Option Catalog) (path text : String) (offset : Nat)
    {sorted : List Candidate} (same : sorted.Perm (complete registry catalog path text offset))
    (order : sorted.Pairwise fun a b => ¬Text.utf8 b.sortText < Text.utf8 a.sortText) :
    let literals := onlyValues (complete registry catalog path text offset)
    (sorted.Pairwise fun a b => a.kind.place ≤ b.kind.place) ∧
      (literals.Pairwise fun a b => Text.utf8 a.label < Text.utf8 b.label) ∧
      (onlyValues sorted = literals ↔ literals.length ≤ 100000) := by
  intro literals
  obtain ⟨values, replace, given⟩ : ∃ values replace, literals = valueCandidates values replace :=
    onlyValues_complete registry catalog path text offset
  refine ⟨order.imp_of_mem fun {a b} member member' notAfter => ?_, ?_, ?_⟩
  · by_contra after
    have marked := marked_of_mem_complete (same.subset member)
    have marked' := marked_of_mem_complete (same.subset member')
    exact notAfter (Text.utf8_lt (marked'.lt marked (Nat.lt_of_not_le after)))
  · rw [given]
    have increasing := (offersLiterals_valueCandidates values replace).increasing
    rw [List.pairwise_map] at increasing
    exact increasing
  · have values_same : (onlyValues sorted).Perm (valueCandidates values replace) := given ▸ same.filter _
    rw [given, length_valueCandidates]
    exact sorted_eq_iff values_same (order.filter _)

/-- Any candidates can be put in the order of the bytes of their sort texts. -/
theorem exists_sorted (offered : List Candidate) :
    ∃ sorted : List Candidate, sorted.Perm offered ∧
      sorted.Pairwise fun a b => ¬Text.utf8 b.sortText < Text.utf8 a.sortText := by
  have sorted := Text.pairwise_mergeSort Candidate.sortText offered
  exact ⟨_, List.mergeSort_perm _ _, sorted.imp Text.not_utf8_lt⟩

end All

/-- Behind a colon the values known of the name before it are offered. -/
theorem onlyValues_behind_colon (values : List Value) (notEmpty : values ≠ []) (catalog : Option Catalog) :
    let forest : Forest := [("a", .node .string none (some values))]
    ∃ replace, onlyValues (complete [⟨"s", "S", forest⟩] catalog "s.json" "\x7b\"a\":" 5) =
      valueCandidates values replace := by
  intro forest
  have occurs : occursIn "s".toList (withSlashes "s.json") = true := by decide
  have selected : Registry.select [⟨"s", "S", forest⟩] "s.json" = some ⟨"s", "S", forest⟩ :=
    List.find?_cons_of_pos occurs
  have path : (Cursor.contextAt (.parse "\x7b\"a\":") 5).path = [.key "a"] := by decide +kernel
  exact onlyValues_complete_of_values selected (path ▸ rfl) notEmpty

/-- Two literals and an item. -/
theorem order_by_sort_text_of_two :
    let forest : Forest := [("a", .node .string none (some [.string "b", .string "a"]))]
    let catalog : Catalog := ⟨[("Bone", ⟨"Bone", "A bone", ""⟩)]⟩
    let offered := complete [⟨"s", "S", forest⟩] (some catalog) "s.json" "\x7b\"a\":" 5
    ∃ sorted, sorted.Perm offered ∧
      (sorted.Pairwise fun a b => ¬Text.utf8 b.sortText < Text.utf8 a.sortText) ∧
      (sorted.Pairwise fun a b => a.kind.place ≤ b.kind.place) ∧
      onlyValues sorted = onlyValues offered ∧ (onlyValues sorted).length = 2 := by
  intro forest catalog offered
  obtain ⟨sorted, same, order⟩ := exists_sorted offered
  obtain ⟨replace, literals⟩ := onlyValues_behind_colon [.string "b", .string "a"] (by simp) (some catalog)
  have two : (onlyValues offered).length = 2 := by
    rw [literals, length_valueCandidates]
    exact length_literals (by decide)
  obtain ⟨kinds, _, kept⟩ := order_by_sort_text _ _ _ _ _ same order
  have unchanged : onlyValues sorted = onlyValues offered := kept.mpr (two.le.trans (by decide))
  exact ⟨sorted, same, order, kinds, unchanged, unchanged ▸ two⟩

/-- Texts of three characters, the digits of a number to the base 47. -/
def word (n : Nat) : String :=
  String.ofList [Char.ofNat (35 + n / 2209), Char.ofNat (35 + n / 47 % 47), Char.ofNat (35 + n % 47)]

def words (count : Nat) : List Value := (List.range count).map fun n => .string (word n)

theorem word_injOn {m n : Nat} (small : m < 103823) (small' : n < 103823) (same : word m = word n) : m = n := by
  have code {k : Nat} (valid : k < 128) : (Char.ofNat k).toNat = k := by
    rw [Char.ofNat, dif_pos (Or.inl (by omega))]
    rfl
  have digits := congrArg (List.map Char.toNat) (String.ofList_injective same)
  simp only [List.map_cons, List.map_nil] at digits
  rw [code (by omega), code (by omega), code (by omega), code (by omega), code (by omega), code (by omega)] at digits
  simp only [List.cons.injEq] at digits
  omega

theorem string_of_compact {s t : String} (same : (Value.string s).compact = (Value.string t).compact) : s = t := by
  have read := Reader.string_quoteChars s []
  rw [show quoteChars s.toList = quoteChars t.toList from Value.chars_of_compact same,
    Reader.string_quoteChars] at read
  exact (Prod.mk.inj (Except.ok.inj read)).1.symm

theorem nodup_compact_words {count : Nat} (few : count ≤ 103823) : ((words count).map Value.compact).Nodup := by
  rw [words, List.map_map]
  refine List.nodup_range.map_on fun m member n member' same => ?_
  have inside := List.mem_range.mp member
  have inside' := List.mem_range.mp member'
  exact word_injOn (by omega) (by omega) (string_of_compact same)

/-- With one literal more than five digits number, the order of the sort texts is not that of the literals. -/
theorem not_order_by_sort_text :
    let forest : Forest := [("a", .node .string none (some (words 100001)))]
    let offered := complete [⟨"s", "S", forest⟩] none "s.json" "\x7b\"a\":" 5
    ¬∀ sorted, sorted.Perm offered →
      (sorted.Pairwise fun a b => ¬Text.utf8 b.sortText < Text.utf8 a.sortText) →
      onlyValues sorted = onlyValues offered := by
  intro forest offered keeps
  have count : (words 100001).length = 100001 := by rw [words, List.length_map, List.length_range]
  have notEmpty : words 100001 ≠ [] := List.ne_nil_of_length_pos (by omega)
  obtain ⟨sorted, same, order⟩ := exists_sorted offered
  obtain ⟨replace, literals⟩ := onlyValues_behind_colon (words 100001) notEmpty none
  have values_same : (onlyValues sorted).Perm (valueCandidates (words 100001) replace) := literals ▸ same.filter _
  have kept : onlyValues sorted = valueCandidates (words 100001) replace := (keeps sorted same order).trans literals
  have few := (sorted_eq_iff values_same (order.filter _)).mp kept
  rw [length_literals (nodup_compact_words (by omega))] at few
  omega

end Completion

end JsonAssist
