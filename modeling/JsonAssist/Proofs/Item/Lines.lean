import Mathlib.Data.List.TakeWhile
import JsonAssist.Item.Catalog
import JsonAssist.Proofs.Text.Split

namespace JsonAssist

namespace Item

/-- A line without the carriage return at its end. -/
def withoutReturn (line : List Char) : List Char := if line.getLast? = some '\r' then line.dropLast else line

/-- What stands between the line feeds of a text, without a carriage return right before a line feed. -/
def linesOf (s : List Char) : List (List Char) :=
  (splitOn '\n' s).dropLast.map withoutReturn ++ (splitOn '\n' s).getLast?.toList

section Lines

variable {c : Char} {s part next : List Char} {parts : List (List Char)}

theorem linesOf_last (split : splitOn '\n' s = [part]) : linesOf s = [part] := by
  simp [linesOf, split]

theorem linesOf_next (split : splitOn '\n' s = part :: next :: parts) :
    linesOf s =
      withoutReturn part :: ((next :: parts).dropLast.map withoutReturn ++ (next :: parts).getLast?.toList) := by
  simp [linesOf, split]

theorem linesOf_lineFeed (s : List Char) : linesOf ('\n' :: s) = [] :: linesOf s := by
  obtain ⟨part, parts, split⟩ := exists_splitOn '\n' s
  have own : splitOn '\n' ('\n' :: s) = [] :: part :: parts := by rw [splitOn, if_pos rfl, split]
  rw [linesOf_next own, linesOf, split]
  rfl

theorem linesOf_return (s : List Char) : linesOf ('\r' :: '\n' :: s) = linesOf ('\n' :: s) := by
  obtain ⟨part, parts, split⟩ := exists_splitOn '\n' s
  have own : splitOn '\n' ('\n' :: s) = [] :: part :: parts := by rw [splitOn, if_pos rfl, split]
  rw [linesOf_next own, linesOf_next (splitOn_cons own (by decide))]
  rfl

/-- Only where a line feed is next is the first part of a text empty though others follow. -/
theorem head?_of_splitOn (split : splitOn '\n' s = [] :: next :: parts) : s.head? = some '\n' := by
  cases s with
  | nil => cases split
  | cons c s =>
    by_cases feed : c = '\n'
    · rw [feed, List.head?_cons]
    · obtain ⟨part, rest, behind⟩ := exists_splitOn '\n' s
      rw [splitOn_cons behind feed] at split
      cases split

/-- A character in front of a line leaves the return at its end, unless it is that return. -/
theorem withoutReturn_cons (kept : part = [] → c ≠ '\r') : withoutReturn (c :: part) = c :: withoutReturn part := by
  cases part with
  | nil => simp [withoutReturn, kept rfl]
  | cons d part =>
    simp only [withoutReturn, List.getLast?_cons_cons]
    split <;> rfl

/-- A character joins the first line of the text behind it. -/
theorem linesOf_cons (other : c ≠ '\n') (kept : ¬(c = '\r' ∧ s.head? = some '\n')) :
    ∃ line more, linesOf s = line :: more ∧ linesOf (c :: s) = (c :: line) :: more := by
  obtain ⟨part, parts, split⟩ := exists_splitOn '\n' s
  cases parts with
  | nil => exact ⟨part, [], linesOf_last split, linesOf_last (splitOn_cons split other)⟩
  | cons next parts =>
    refine ⟨_, _, linesOf_next split, ?_⟩
    rw [linesOf_next (splitOn_cons split other), withoutReturn_cons]
    rintro rfl rfl
    exact kept ⟨rfl, head?_of_splitOn split⟩

theorem sourceLines_eq (s : List Char) : sourceLines s = linesOf s := by
  induction s with
  | nil => rfl
  | cons c s ih =>
    by_cases feed : c = '\n'
    · rw [feed, linesOf_lineFeed, ← ih, sourceLines, if_pos rfl]
    · by_cases pair : c = '\r' ∧ s.head? = some '\n'
      · obtain ⟨rfl, first⟩ := pair
        obtain ⟨rest, rfl⟩ := List.head?_eq_some_iff.mp first
        rw [linesOf_return, ← ih, sourceLines, if_neg feed, if_pos (by simp)]
      · obtain ⟨line, more, behind, own⟩ := linesOf_cons feed pair
        have single : ¬(c = '\r' && s.head? == some '\n') := by simpa using pair
        rw [own, sourceLines, if_neg feed, if_neg single, ih, behind]

end Lines

/-- How a trait is written. -/
def Trait.word : Trait → String
  | .name => "name"
  | .description => "description"

/-- The value in what follows an equals sign: all of it behind the white space at its start, or, if there is nothing
but white space, the last character. -/
inductive ValueOf : List Char → List Char → Prop
  | text (blank : List Char) (c : Char) (more : List Char) (isBlank : ∀ b ∈ blank, Text.isWhiteSpace b)
      (starts : ¬Text.isWhiteSpace c) : ValueOf (blank ++ c :: more) (c :: more)
  | blank (front : List Char) (c : Char) (isBlank : ∀ b ∈ front ++ [c], Text.isWhiteSpace b) :
      ValueOf (front ++ [c]) [c]

/-- A line says something about an item: behind `items.` it has the id, a dot and the trait, then an equals sign,
white space before which does not count, and the value. -/
inductive States : List Char → String × Trait × String → Prop
  | line (id blank rest value : List Char) (trait : Trait) (nonempty : id ≠ []) (isId : ∀ c ∈ id, isIdChar c)
      (isBlank : ∀ c ∈ blank, Text.isWhiteSpace c) (hasValue : ValueOf rest value) :
      States ("items.".toList ++ (id ++ '.' :: (trait.word.toList ++ (blank ++ '=' :: rest))))
        (String.ofList id, trait, String.ofList value)

section States

variable {start s rest line value : List Char} {trait : Trait} {said : String × Trait × String}

theorem after?_eq_some_iff : after? start s = some rest ↔ s = start ++ rest := by
  induction start generalizing s with
  | nil => simp [after?]
  | cons c start ih =>
    cases s with
    | nil => simp [after?]
    | cons d s =>
      rw [after?, List.cons_append, List.cons.injEq]
      by_cases same : c = d
      · simp [same, ih]
      · simp [same, Ne.symm same]

theorem trait?_eq_some_iff : trait? s = some (trait, rest) ↔ s = trait.word.toList ++ rest := by
  unfold trait?
  cases named : after? "name".toList s with
  | some behind =>
    rw [after?_eq_some_iff.mp named]
    cases trait with
    | name =>
      have same : "name".toList ++ behind = Trait.name.word.toList ++ rest ↔ behind = rest := List.append_right_inj _
      simp only [same, Option.some.injEq, Prod.mk.injEq, true_and]
    | description => simp [Trait.word]
  | none =>
    cases trait with
    | name =>
      have other : s ≠ "name".toList ++ rest := fun same => by
        rw [after?_eq_some_iff.mpr same] at named
        cases named
      simpa [Trait.word] using other
    | description => simp [Trait.word, after?_eq_some_iff]

theorem lineValue?_eq_some_iff : lineValue? s = some value ↔ ValueOf s value := by
  constructor
  · intro found
    unfold lineValue? at found
    split at found
    next none =>
      obtain ⟨c, last, rfl⟩ := Option.map_eq_some_iff.mp found
      obtain ⟨front, rfl⟩ := List.getLast?_eq_some_iff.mp last
      exact .blank front c (List.dropWhile_eq_nil_iff.mp none)
    next some =>
      obtain rfl := Option.some.inj found
      obtain ⟨c, more, starts⟩ := List.exists_cons_of_ne_nil some
      have other : ¬Text.isWhiteSpace c := by
        have := List.head?_dropWhile_not Text.isWhiteSpace s
        simpa [starts] using this
      rw [starts, ← List.takeWhile_append_dropWhile (p := Text.isWhiteSpace) (l := s), starts]
      exact .text _ c more (fun b => List.mem_takeWhile_imp) other
  · rintro (⟨blank, c, more, isBlank, starts⟩ | ⟨front, c, isBlank⟩)
    · unfold lineValue?
      rw [List.dropWhile_append_of_pos isBlank, List.dropWhile_cons_of_neg starts]
    · unfold lineValue?
      rw [List.dropWhile_eq_nil_iff.mpr isBlank, List.getLast?_concat]
      rfl

theorem line?_eq_some_iff : line? line = some said ↔ States line said := by
  constructor
  · intro found
    unfold line? at found
    obtain ⟨behindItems, items, inItems⟩ := Option.bind_eq_some_iff.mp found
    dsimp only at inItems
    split at inItems
    next => cases inItems
    next nonempty =>
      obtain ⟨behindDot, dot, inDot⟩ := Option.bind_eq_some_iff.mp inItems
      obtain ⟨⟨trait, behindTrait⟩, named, inTrait⟩ := Option.bind_eq_some_iff.mp inDot
      obtain ⟨rest, equals, inValue⟩ := Option.bind_eq_some_iff.mp inTrait
      obtain ⟨value, hasValue, whole⟩ := Option.bind_eq_some_iff.mp inValue
      obtain rfl := Option.some.inj whole
      have atDot : behindItems.dropWhile isIdChar = '.' :: behindDot := after?_eq_some_iff.mp dot
      have atEquals : behindTrait.dropWhile Text.isWhiteSpace = '=' :: rest := after?_eq_some_iff.mp equals
      have parts : line = "items.".toList ++ (behindItems.takeWhile isIdChar ++ '.' :: (trait.word.toList ++
          (behindTrait.takeWhile Text.isWhiteSpace ++ '=' :: rest))) := by
        rw [← atEquals, List.takeWhile_append_dropWhile, ← trait?_eq_some_iff.mp named, ← atDot,
          List.takeWhile_append_dropWhile, ← after?_eq_some_iff.mp items]
      rw [parts]
      exact .line _ _ rest value trait (mt List.isEmpty_iff.mpr nonempty) (fun c => List.mem_takeWhile_imp)
        (fun c => List.mem_takeWhile_imp) (lineValue?_eq_some_iff.mp hasValue)
  · rintro ⟨id, blank, rest, value, trait, nonempty, isId, isBlank, hasValue⟩
    have other : ¬isIdChar '.' := by decide
    have other' : ¬Text.isWhiteSpace '=' := by decide
    have items (s : List Char) : after? "items.".toList ("items.".toList ++ s) = some s := after?_eq_some_iff.mpr rfl
    have mark (c : Char) (s : List Char) : after? [c] (c :: s) = some s := after?_eq_some_iff.mpr rfl
    have named (s : List Char) : trait? (trait.word.toList ++ s) = some (trait, s) := trait?_eq_some_iff.mpr rfl
    have filled : id.isEmpty = false := by simpa using nonempty
    simp only [line?, items, List.takeWhile_append_of_pos isId, List.dropWhile_append_of_pos isId,
      List.takeWhile_cons_of_neg other, List.dropWhile_cons_of_neg other, List.append_nil, filled, mark, named,
      List.dropWhile_append_of_pos isBlank, List.dropWhile_cons_of_neg other', lineValue?_eq_some_iff.mpr hasValue,
      bind, Option.bind_some, Bool.false_eq_true, if_false]

theorem line?_eq_none_iff : line? line = none ↔ ∀ said, ¬States line said := by
  simp only [← line?_eq_some_iff, Option.eq_none_iff_forall_ne_some, Ne]

end States

end Item

end JsonAssist
