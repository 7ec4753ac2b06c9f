import JsonAssist.Proofs.Json.Fits
import JsonAssist.Proofs.Json.Load
import JsonAssist.Proofs.Json.WrittenNumber
import JsonAssist.Proofs.Json.WrittenString

namespace JsonAssist

namespace Reader

open Grammar

variable {α β : Type} {may : Prop}

/-- The reader takes the text off the front and reads it as `x`, where the text goes on with nothing that
could belong to a number. -/
def Reads (r : Reader α) (s : List Char) (x : α) : Prop := ∀ rest, Ends rest → r (s ++ rest) = .ok (x, rest)

theorem Reads.map {r : Reader α} {s : List Char} {x : α} (reads : r.Reads s x) (f : α → β) :
    (f <$> r).Reads s (f x) := fun rest ends => map_apply (reads rest ends)

/-- A reader that goes on as another one on the text. -/
theorem Reads.of_eq {r r' : Reader α} {s : List Char} {x : α} (reads : r'.Reads s x)
    (same : ∀ rest, r (s ++ rest) = r' (s ++ rest)) : r.Reads s x := fun rest ends =>
  (same rest).trans (reads rest ends)

/-- A text that is covered is read, whatever follows, if it is read alone. -/
theorem Covers.reads {r : Reader α} {s left : List Char} {x : α} (covers : r.Covers may s Ends)
    (read : r s = .ok (x, left)) : r.Reads s x := by
  rw [← List.append_nil s] at read
  rcases covers with ⟨y, same⟩ | ⟨-, stops⟩
  · cases read.symm.trans (same [] trivial)
    exact same
  · obtain ⟨e, stopped, _⟩ := stops [] trivial
    exact nomatch read.symm.trans stopped

section Scalars

variable {onList onObject : Reader Value} {s : List Char} {c : Char}

theorem valueWith_minus : valueWith onList onObject ('-' :: s) = (Value.number <$> number true) s := rfl

theorem ne_of_isDigit (isDigit : c.isDigit) {d : Char} (other : d.isDigit = false) : c ≠ d := fun same => by
  simp [← same, isDigit] at other

theorem not_isBlank_of_isDigit (isDigit : c.isDigit) : isBlank c = false := by
  simp [isBlank, ne_of_isDigit isDigit]

theorem valueWith_digit (isDigit : c.isDigit) :
    valueWith onList onObject (c :: s) = (Value.number <$> number false) (c :: s) := by
  rw [valueWith, peek_bind_cons _ _ (not_isBlank_of_isDigit isDigit)]
  simp only
  rw [if_neg (ne_of_isDigit isDigit rfl), if_neg (ne_of_isDigit isDigit rfl), if_neg (ne_of_isDigit isDigit rfl),
    if_neg (ne_of_isDigit isDigit rfl), if_pos isDigit]

theorem valueWith_numeral (form : IsNumeral s) (rest : List Char) :
    valueWith onList onObject (s ++ rest) = (Value.number <$> number false) (s ++ rest) := by
  obtain ⟨d, t, rfl, isDigit⟩ := form.exists_digit
  exact valueWith_digit isDigit

theorem valueWith_signed {sign : List Char} (isSign : sign = [] ∨ sign = ['-']) (form : IsNumeral s)
    (rest : List Char) :
    valueWith onList onObject (sign ++ s ++ rest) = (Value.number <$> number (sign == ['-'])) (s ++ rest) := by
  rcases isSign with rfl | rfl
  · exact valueWith_numeral form rest
  · exact valueWith_minus

theorem toList_toString (i : Int) :
    (toString i).toList = if i < 0 then '-' :: Nat.toDigits 10 i.natAbs else Nat.toDigits 10 i.natAbs := by
  cases i with
  | ofNat n =>
    rw [if_neg (by simp)]
    exact Nat.toList_repr
  | negSucc n =>
    rw [if_pos (Int.negSucc_lt_zero n)]
    change ("-" ++ Nat.repr (n + 1)).toList = _
    rw [String.toList_append, Nat.toList_repr]
    rfl

/-- An integer that fits 64 bits reads back. -/
theorem reads_integer {i : Int} (low : -Nat.pow 2 63 ≤ i) (high : i < Nat.pow 2 64) :
    (valueWith onList onObject).Reads (toString i).toList (.number (.integer i)) := by
  intro rest ends
  have unsigned : Nat.pow 2 64 = 18446744073709551616 := rfl
  have signed : Nat.pow 2 63 = 9223372036854775808 := rfl
  have fits : i.natAbs < Nat.pow 2 64 := by omega
  rw [toList_toString]
  split
  next negative =>
    rw [List.cons_append, valueWith_minus]
    refine map_apply ((number_toDigits ends true fits).trans ((numberTail_of_ends ends true i.natAbs).trans ?_))
    have small : ¬(i.natAbs = 0 ∨ Nat.pow 2 63 < i.natAbs) := by omega
    have same : -(i.natAbs : Int) = i := by omega
    rw [if_neg (by simp), if_neg small, pure_apply, same]
  next positive =>
    rw [valueWith_numeral (numeral_toDigits _)]
    refine map_apply ((number_toDigits ends false fits).trans ((numberTail_of_ends ends false i.natAbs).trans ?_))
    have same : (i.natAbs : Int) = i := by omega
    rw [if_pos (by simp), pure_apply, same]

theorem load_of_apply {α : Type} {r : Reader α} {source : String} {x : α} {rest : List Char}
    (read : r source.toList = .ok (x, rest)) : load r source = .ok x := by
  rw [load, read]

theorem apart_of_ends (ends : Ends rest) (body : List Char) : Apart body rest := by
  rintro - c head continues
  obtain ⟨t, rfl⟩ := List.head?_eq_some_iff.mp head
  obtain ⟨notDigit, notPoint, noMark⟩ := ends
  rcases continues with isDigit | ⟨point, -⟩ | ⟨mark, -⟩
  · exact nomatch notDigit.symm.trans isDigit
  · exact notPoint point
  · exact mark.elim noMark.1 noMark.2

/-- A number is read whole where it does not go on, and it is read for sure if it is in range. -/
theorem covers_parts {sign whole fraction exponent : List Char} (isSign : sign = [] ∨ sign = ['-'])
    (isWhole : IsWhole whole) (fractional : IsFraction fraction) (form : IsExponent exponent)
    (inRange : may ∨ power exponent < 2 ^ 31 ∧ size whole fraction exponent ≤ Double.safe) :
    (valueWith onList onObject).Covers may (sign ++ whole ++ (fraction ++ exponent))
      (Apart (sign ++ whole ++ (fraction ++ exponent))) := by
  have numeral := IsNumeral.mk isWhole fractional form
  have isNumber : IsNumber (sign ++ whole ++ (fraction ++ exponent)) := by
    rcases isSign with rfl | rfl
    · exact .positive numeral
    · exact .negative numeral
  have own : (Value.number <$> number (sign == ['-'])).Covers may (whole ++ (fraction ++ exponent)) _ :=
    (covers_number isWhole fractional form inRange).map Value.number
  refine (own.mono fun rest apart => ?_).of_eq fun rest _ => ?_
  · exact (stops_iff isSign isWhole fractional form).mpr (apart isNumber)
  · rw [List.append_assoc sign]
    exact valueWith_signed isSign numeral rest

/-- The text of a number is a numeral, with a sign in front of it or without. -/
theorem exists_numeral_chars (n : Number) :
    ∃ sign numeral, (sign = [] ∨ sign = ['-']) ∧ IsNumeral numeral ∧ n.chars = sign ++ numeral := by
  cases n with
  | integer i =>
    rw [Number.chars, toList_toString]
    split
    · exact ⟨_, _, .inr rfl, numeral_toDigits _, rfl⟩
    · exact ⟨_, _, .inl rfl, numeral_toDigits _, rfl⟩
  | real x =>
    rw [Number.chars, Double.text]
    split
    · exact ⟨_, _, .inr rfl, numeral_layout _, rfl⟩
    · exact ⟨_, _, .inl rfl, numeral_layout _, rfl⟩

/-- A number whose text can be read reads back as what it is read as. -/
theorem reads_number {n : Number} (readable : n.Readable) :
    (valueWith onList onObject).Reads n.chars (.number n.reread) := by
  obtain ⟨sign, numeral, isSign, form, text⟩ := exists_numeral_chars n
  obtain ⟨left, read⟩ := exists_of_load readable
  have settled : (Value.number <$> number (sign == ['-'])).Covers True numeral Ends := by
    cases form with
    | mk isWhole fractional form =>
      exact ((covers_number isWhole fractional form (.inl trivial)).mono fun rest ends => ends.stops).map Value.number
  have own : (Value.number <$> number (sign == ['-'])) (numeral ++ []) = .ok (.number n.reread, left) := by
    rw [String.toList_ofList, text, ← List.append_nil (sign ++ numeral)] at read
    exact (valueWith_signed isSign form []).symm.trans read
  rw [List.append_nil] at own
  rw [text]
  exact fun rest ends => (valueWith_signed isSign form rest).trans (settled.reads own rest ends)

theorem reads_null : (valueWith onList onObject).Reads (Value.chars .null) .null := fun _ _ => rfl

theorem reads_boolean (b : Bool) : (valueWith onList onObject).Reads (Value.chars (.boolean b)) (.boolean b) :=
  fun _ _ => by cases b <;> rfl

theorem reads_string (s : String) : (valueWith onList onObject).Reads (Value.chars (.string s)) (.string s) :=
  fun rest _ => map_apply (g := Value.string) (string_quoteChars s rest)

end Scalars

section Items

variable {blanks gap s rest after : List Char} {text : α → List Char} {xs : List α}

/-- The text begins with a character that neither is passed over nor ends a list. -/
def Begins (s : List Char) : Prop := ∃ c t, s = c :: t ∧ isBlank c = false ∧ c ≠ ']'

theorem Begins.append (begins : Begins s) (rest : List Char) : Begins (s ++ rest) := by
  obtain ⟨c, t, rfl, notBlank, notEnd⟩ := begins
  exact ⟨c, t ++ rest, rfl, notBlank, notEnd⟩

theorem begins_of_numeral {form : List Char} (numeral : IsNumeral form) : Begins form := by
  obtain ⟨d, t, rfl, isDigit⟩ := numeral.exists_digit
  exact ⟨d, t, rfl, not_isBlank_of_isDigit isDigit, ne_of_isDigit isDigit rfl⟩

theorem begins_number (n : Number) : Begins n.chars := by
  obtain ⟨sign, numeral, rfl | rfl, form, text⟩ := exists_numeral_chars n
  · exact text ▸ begins_of_numeral form
  · exact text ▸ ⟨'-', numeral, rfl, rfl, by decide⟩

theorem nextElement_lead {first : Bool} {lead : List Char} (leads : IsLead first lead) (begins : Begins s) :
    nextElement first (lead ++ s) = .ok (true, s) := by
  obtain ⟨c, t, rfl, notBlank, notEnd⟩ := begins
  cases leads with
  | first blank =>
    rw [nextElement, peek_bind_blanks blank, peek_bind_cons _ _ notBlank]
    exact congrFun (if_neg notEnd) _
  | comma blankBefore blank =>
    rw [List.append_assoc, List.cons_append, nextElement, peek_bind_blanks blankBefore, peek_bind_cons _ _ rfl]
    change (drop >>= fun _ => _) _ = _
    rw [drop_bind, peek_bind_blanks blank, peek_bind_cons _ _ notBlank]
    exact congrFun (if_neg notEnd) _

theorem nextElement_first (blank : AllBlank blanks) (begins : Begins s) :
    nextElement true (blanks ++ s) = .ok (true, s) := nextElement_lead (.first blank) begins

theorem nextElement_comma (blank : AllBlank blanks) (begins : Begins s) :
    nextElement false (',' :: (blanks ++ s)) = .ok (true, s) := nextElement_lead (.comma allBlank_nil blank) begins

theorem nextElement_end (blank : AllBlank blanks) (first : Bool) :
    nextElement first (blanks ++ ']' :: rest) = .ok (false, ']' :: rest) := by
  rw [nextElement, peek_bind_blanks blank, peek_bind_cons _ _ rfl]
  rfl

theorem closeList_apply (rest : List Char) : closeList (']' :: rest) = .ok ((), rest) := rfl

theorem nextName_end (blank : AllBlank blanks) (first : Bool) :
    nextName first (blanks ++ '\x7d' :: rest) = .ok (none, '\x7d' :: rest) := by
  refine within_apply ?_
  rw [peek_bind_blanks blank, peek_bind_cons _ _ rfl]
  rfl

theorem nextName_lead {first : Bool} {lead : List Char} {name : String} (leads : IsLead first lead)
    (read : string ('"' :: s) = .ok (name, rest)) : nextName first (lead ++ '"' :: s) = .ok (some name, rest) := by
  refine within_apply ?_
  cases leads with
  | first blank =>
    rw [peek_bind_blanks blank, peek_bind_cons _ _ rfl]
    exact map_apply read
  | comma blankBefore blank =>
    rw [List.append_assoc, List.cons_append, peek_bind_blanks blankBefore, peek_bind_cons _ _ rfl]
    change (drop >>= fun _ => _) _ = _
    rw [drop_bind, peek_bind_blanks blank, peek_bind_cons _ _ rfl]
    exact map_apply read

theorem nextName_first (blank : AllBlank blanks) (name : String) (rest : List Char) :
    nextName true (blanks ++ (quoteChars name.toList ++ rest)) = .ok (some name, rest) :=
  nextName_lead (.first blank) (string_quoteChars name rest)

theorem nextName_comma (blank : AllBlank blanks) (name : String) (rest : List Char) :
    nextName false (',' :: (blanks ++ (quoteChars name.toList ++ rest))) = .ok (some name, rest) :=
  nextName_lead (.comma allBlank_nil blank) (string_quoteChars name rest)

theorem tryCloseObject_apply (rest : List Char) : tryCloseObject ('\x7d' :: rest) = .ok ((), rest) := rfl

theorem elementsFrom_next {item : Reader α} {left : List Char} {fuel index : Nat} {first : Bool}
    (place : (index == 0) = first) (more : nextElement first s = .ok (true, left)) :
    elementsFrom item (fuel + 1) index s =
      (within (.index index) item >>= fun x => (x :: ·) <$> elementsFrom item fuel (index + 1)) left := by
  rw [elementsFrom, place]
  exact bind_apply more

/-- An element that reads back is followed by the elements that are read behind it. -/
theorem elementsFrom_succ {item : Reader α} {x : α} {left : List Char} {fuel index : Nat} {first : Bool}
    (place : (index == 0) = first) (more : nextElement first s = .ok (true, left))
    (own : item left = .ok (x, rest))
    (others : elementsFrom item fuel (index + 1) rest = .ok (xs, ']' :: after)) :
    elementsFrom item (fuel + 1) index s = .ok (x :: xs, ']' :: after) := by
  rw [elementsFrom_next place more, bind_apply (within_apply own)]
  exact map_apply others

theorem elementsFrom_end {item : Reader α} (blank : AllBlank blanks) (fuel index : Nat) :
    elementsFrom item (fuel + 1) index (blanks ++ ']' :: rest) = .ok ([], ']' :: rest) := by
  rw [elementsFrom, bind_apply (nextElement_end blank _)]
  rfl

theorem membersFrom_next {step : β → String → Reader β} {state : β} {name : String} {left : List Char} {fuel : Nat}
    {first : Bool} (more : nextName first s = .ok (some name, left)) :
    membersFrom step (fuel + 1) first state s = (step state name >>= membersFrom step fuel false) left := by
  rw [membersFrom]
  exact bind_apply more

theorem membersFrom_succ {step : β → String → Reader β} {state next : β} {name : String} {left : List Char}
    {fuel : Nat} {first : Bool} (more : nextName first s = .ok (some name, left))
    (own : step state name left = .ok (next, rest)) :
    membersFrom step (fuel + 1) first state s = membersFrom step fuel false next rest := by
  rw [membersFrom_next more, bind_apply own]

theorem membersFrom_end {step : β → String → Reader β} {state : β} (blank : AllBlank blanks) (fuel : Nat)
    (first : Bool) : membersFrom step (fuel + 1) first state (blanks ++ '\x7d' :: rest) =
      .ok (state, '\x7d' :: rest) := by
  rw [membersFrom]
  exact bind_apply (nextName_end blank first)

/-- Items behind another one, each with a comma and blanks in front of it. -/
def behind (gap : List Char) (text : α → List Char) (xs : List α) : List Char :=
  xs.flatMap fun x => ',' :: (gap ++ text x)

theorem behind_cons (x : α) (rest : List Char) :
    behind gap text (x :: xs) ++ rest = ',' :: (gap ++ (text x ++ (behind gap text xs ++ rest))) := by
  simp only [behind, List.flatMap_cons, List.append_assoc, List.cons_append]

theorem length_le_behind (gap : List Char) (text : α → List Char) (xs : List α) :
    xs.length ≤ (behind gap text xs).length := by
  induction xs with
  | nil => exact Nat.zero_le _
  | cons x xs ih =>
    rw [behind, List.flatMap_cons, ← behind, List.length_append, List.length_cons, List.length_cons]
    omega

/-- No number goes on behind an item. -/
theorem ends_behind (ends : Ends after) : Ends (behind gap text xs ++ after) := by
  cases xs with
  | nil => exact ends
  | cons x xs =>
    rw [behind_cons]
    simp [Ends]

theorem ends_blanks (blank : AllBlank blanks) (ends : Ends rest) : Ends (blanks ++ rest) := by
  cases blanks with
  | nil => exact ends
  | cons c blanks =>
    have isBlank := blank c List.mem_cons_self
    simp only [Reader.isBlank, Bool.or_eq_true, beq_iff_eq] at isBlank
    rcases isBlank with ((rfl | rfl) | rfl) | rfl <;> simp [Ends]

/-- Items between an opener and a closer. -/
def enclosed (opener closer : Char) (gap last : List Char) (text : α → List Char) : List α → List Char
  | [] => [opener, closer]
  | x :: xs => opener :: (gap ++ (text x ++ (behind gap text xs ++ (last ++ [closer]))))

theorem enclosed_cons (opener closer : Char) (last : List Char) (x : α) (rest : List Char) :
    enclosed opener closer gap last text (x :: xs) ++ rest =
      opener :: (gap ++ (text x ++ (behind gap text xs ++ (last ++ closer :: rest)))) := by
  simp only [enclosed, List.append_assoc, List.cons_append, List.nil_append]

end Items

/-- A blank in front of the text makes no difference to the reader. -/
def PassesBlank (r : Reader α) : Prop := ∀ s, r (' ' :: s) = r s

theorem passesBlank_peek (f : Option Char → Reader β) : PassesBlank (peek >>= f) :=
  peek_bind_blanks (show AllBlank [' '] by simp [AllBlank, isBlank]) f

theorem passesBlank_value (depth : Nat) : (value depth).PassesBlank := by
  cases depth <;> exact passesBlank_peek _

theorem PassesBlank.replicate {r : Reader α} (passes : r.PassesBlank) (n : Nat) (s : List Char) :
    r (List.replicate n ' ' ++ s) = r s := by
  induction n with
  | zero => rfl
  | succ n ih => exact (passes _).trans ih

/-- A way to write values. In front of each item of a list or object and of what closes it stand blanks, as the
level says, and spaces behind the colon of a member. -/
structure Layout where
  text : (level : Nat) → Value → List Char
  gap : (level : Nat) → List Char
  spaces : Nat
  blank : ∀ level, AllBlank (gap level)
  leaf : ∀ level v, v.nesting = 0 → text level v = v.chars
  array : ∀ level xs, text level (.array xs) =
    enclosed '[' ']' (gap (level + 1)) (gap level) (text (level + 1)) xs
  object : ∀ level ms, text level (.object ms) = enclosed '\x7b' '\x7d' (gap (level + 1)) (gap level)
    (fun m => quoteChars m.1.toList ++ ':' :: (List.replicate spaces ' ' ++ text (level + 1) m.2)) ms

namespace Layout

variable {L : Layout} {level : Nat}

/-- What is written of a member behind its name. -/
def memberText (L : Layout) (level : Nat) (v : Value) : List Char :=
  ':' :: (List.replicate L.spaces ' ' ++ L.text level v)

theorem begins (L : Layout) (level : Nat) (v : Value) : Begins (L.text level v) := by
  have mark {c : Char} {t : List Char} (notBlank : isBlank c = false) (other : c ≠ ']') : Begins (c :: t) :=
    ⟨c, t, rfl, notBlank, other⟩
  cases v with
  | null => exact L.leaf level .null rfl ▸ mark rfl (by decide)
  | boolean b =>
    rw [L.leaf level _ rfl]
    cases b <;> exact mark rfl (by decide)
  | number n => exact L.leaf level (.number n) rfl ▸ begins_number n
  | string s => exact L.leaf level (.string s) rfl ▸ mark rfl (by decide)
  | array xs =>
    rw [L.array]
    cases xs <;> exact mark rfl (by decide)
  | object ms =>
    rw [L.object]
    cases ms <;> exact mark rfl (by decide)

section Elements

variable {item : Reader α} {f : Value → α} {xs : List Value}

theorem ends_elements (L : Layout) (xs : List Value) (rest : List Char) :
    Ends (behind (L.gap (level + 1)) (L.text (level + 1)) xs ++ (L.gap level ++ ']' :: rest)) :=
  ends_behind (ends_blanks (L.blank level) (by simp [Ends]))

/-- The elements behind the first one read back. -/
theorem elementsFrom_behind (own : ∀ x ∈ xs, item.Reads (L.text (level + 1) x) (f x)) {fuel : Nat}
    (enough : xs.length < fuel) (index : Nat) (rest : List Char) :
    elementsFrom item fuel (index + 1)
      (behind (L.gap (level + 1)) (L.text (level + 1)) xs ++ (L.gap level ++ ']' :: rest)) =
        .ok (xs.map f, ']' :: rest) := by
  induction xs generalizing fuel index with
  | nil =>
    obtain ⟨more, rfl⟩ := Nat.exists_eq_add_of_lt enough
    exact elementsFrom_end (L.blank level) _ (index + 1)
  | cons x xs ih =>
    obtain ⟨more, rfl⟩ := Nat.exists_eq_add_of_lt enough
    obtain ⟨first, others⟩ := List.forall_mem_cons.mp own
    rw [behind_cons]
    exact elementsFrom_succ (beq_false_of_ne (Nat.succ_ne_zero index))
      (nextElement_comma (L.blank (level + 1)) ((L.begins (level + 1) x).append _))
      (first _ (L.ends_elements xs _)) (ih others (Nat.lt_of_succ_lt_succ enough) (index + 1))

/-- A list reads back if its elements do. -/
theorem reads_list (own : ∀ x ∈ xs, item.Reads (L.text (level + 1) x) (f x)) :
    (list item).Reads (L.text level (.array xs)) (xs.map f) := by
  intro rest _
  rw [L.array]
  cases xs with
  | nil => rfl
  | cons x xs =>
    obtain ⟨first, others⟩ := List.forall_mem_cons.mp own
    have inside (fuel : Nat) (enough : xs.length < fuel) := elementsFrom_succ (beq_self_eq_true 0)
      (nextElement_first (L.blank (level + 1)) ((L.begins (level + 1) x).append _))
      (first _ (L.ends_elements xs _)) (elementsFrom_behind others enough 0 rest)
    rw [enclosed_cons, List.map_cons, list, drop_bind, look_bind, bind_apply (inside _ ?_),
      bind_apply (closeList_apply rest), pure_apply]
    have := length_le_behind (L.gap (level + 1)) (L.text (level + 1)) xs
    simp only [List.length_append, List.length_cons]
    omega

end Elements

section Members

variable {step : β → String → Reader β} {state final : β} {item : Reader α}
variable {ms : List (String × Value)}

/-- The members of an object, each read from its colon on, lead from one state to another. -/
inductive Folds (L : Layout) (step : β → String → Reader β) (level : Nat) : β → List (String × Value) → β → Prop
  | nil (state : β) : Folds L step level state [] state
  | cons {state next final : β} {name : String} {v : Value} {ms : List (String × Value)}
      (own : (step state name).Reads (L.memberText (level + 1) v) next)
      (others : Folds L step level next ms final) : Folds L step level state ((name, v) :: ms) final

theorem reads_memberValue {v : Value} {x : α} (passes : item.PassesBlank) (own : item.Reads (L.text level v) x)
    (name : String) : (memberValue name item).Reads (L.memberText level v) x := by
  intro rest ends
  have passed : item (List.replicate L.spaces ' ' ++ L.text level v ++ rest) = item (L.text level v ++ rest) := by
    rw [List.append_assoc, passes.replicate]
  exact within_apply (passed.trans (own rest ends))

theorem object_cons (L : Layout) (level : Nat) (name : String) (v : Value) (ms : List (String × Value))
    (rest : List Char) : L.text level (.object ((name, v) :: ms)) ++ rest =
      '\x7b' :: (L.gap (level + 1) ++ (quoteChars name.toList ++ (L.memberText (level + 1) v ++
        (behind (L.gap (level + 1)) (fun m => quoteChars m.1.toList ++ L.memberText (level + 1) m.2) ms ++
          (L.gap level ++ '\x7d' :: rest))))) := by
  rw [L.object, enclosed_cons, List.append_assoc]
  rfl

theorem ends_members (L : Layout) (ms : List (String × Value)) (rest : List Char) :
    Ends (behind (L.gap (level + 1)) (fun m => quoteChars m.1.toList ++ L.memberText (level + 1) m.2) ms ++
      (L.gap level ++ '\x7d' :: rest)) :=
  ends_behind (ends_blanks (L.blank level) (by simp [Ends]))

/-- The members behind the first one are read in their order. -/
theorem Folds.membersFrom_behind (folds : L.Folds step level state ms final) {fuel : Nat}
    (enough : ms.length < fuel) (rest : List Char) :
    membersFrom step fuel false state
      (behind (L.gap (level + 1)) (fun m => quoteChars m.1.toList ++ L.memberText (level + 1) m.2) ms ++
        (L.gap level ++ '\x7d' :: rest)) = .ok (final, '\x7d' :: rest) := by
  induction folds generalizing fuel with
  | nil state =>
    obtain ⟨more, rfl⟩ := Nat.exists_eq_add_of_lt enough
    exact membersFrom_end (L.blank level) _ false
  | @cons state next final name v ms own others ih =>
    obtain ⟨more, rfl⟩ := Nat.exists_eq_add_of_lt enough
    rw [behind_cons, List.append_assoc, membersFrom_succ (nextName_comma (L.blank (level + 1)) name _)
      (own _ (L.ends_members ms _))]
    exact ih (Nat.lt_of_succ_lt_succ enough)

/-- The members of an object are read in their order, up to the closing brace. -/
theorem Folds.membersFrom_object (folds : L.Folds step level state ms final) (rest : List Char) :
    ∃ inside, L.text level (.object ms) ++ rest = '\x7b' :: inside ∧
      membersFrom step (inside.length + 1) true state inside = .ok (final, '\x7d' :: rest) := by
  cases folds with
  | nil =>
    rw [L.object]
    exact ⟨'\x7d' :: rest, rfl, membersFrom_end (show AllBlank [] from nofun) _ true⟩
  | @cons _ next _ name v ms own others =>
    refine ⟨_, L.object_cons level name v ms rest, ?_⟩
    have enough := length_le_behind (L.gap (level + 1))
      (fun m => quoteChars m.1.toList ++ L.memberText (level + 1) m.2) ms
    rw [membersFrom_succ (nextName_first (L.blank (level + 1)) name _) (own _ (L.ends_members ms _)),
      others.membersFrom_behind]
    simp only [List.length_append, List.length_cons]
    omega

theorem Folds.reads_members (folds : L.Folds step level state ms final) :
    (members step state).Reads (L.text level (.object ms)) final := by
  intro rest _
  obtain ⟨inside, text, read⟩ := folds.membersFrom_object rest
  rw [text, members, drop_bind, look_bind, bind_apply read, bind_apply (tryCloseObject_apply rest), pure_apply]

theorem folds_fields {γ : Type} (passes : item.PassesBlank) (written : γ → Value) {f : γ → α} {entries : Fields γ}
    (own : ∀ entry ∈ entries, item.Reads (L.text (level + 1) (written entry.2)) (f entry.2)) (before : Fields α)
    (names : (Fields.names before ++ Fields.names entries).Nodup) :
    L.Folds (fun entries name => do
      let x ← memberValue name item
      pure (Fields.insert entries name x)) level before
        (entries.map fun entry => (entry.1, written entry.2))
        (before ++ entries.map fun entry => (entry.1, f entry.2)) := by
  induction entries generalizing before with
  | nil =>
    rw [List.map_nil, List.map_nil, List.append_nil]
    exact .nil before
  | cons entry entries ih =>
    obtain ⟨first, others⟩ := List.forall_mem_cons.mp own
    have fresh : entry.1 ∉ Fields.names before := fun old =>
      (List.nodup_append.mp names).2.2 entry.1 old entry.1 List.mem_cons_self rfl
    refine .cons ((reads_memberValue passes first entry.1).map fun x => Fields.insert before entry.1 x) ?_
    have after := ih others (before ++ [(entry.1, f entry.2)]) (by simpa using names)
    rw [← List.append_cons] at after
    rwa [Fields.insert_of_fresh fresh]

/-- An object reads back as fields if its entries do. -/
theorem reads_fields {γ : Type} (passes : item.PassesBlank) (written : γ → Value) {f : γ → α} {entries : Fields γ}
    (names : (Fields.names entries).Nodup)
    (own : ∀ entry ∈ entries, item.Reads (L.text (level + 1) (written entry.2)) (f entry.2)) :
    (fields item).Reads (L.text level (.object (entries.map fun entry => (entry.1, written entry.2))))
      (entries.map fun entry => (entry.1, f entry.2)) :=
  (folds_fields passes written own [] names).reads_members

end Members

section Values

variable {onList onObject : Reader Value}

theorem reads_leaf {v w : Value} (flat : v.nesting = 0) (own : (valueWith onList onObject).Reads v.chars w) :
    (valueWith onList onObject).Reads (L.text level v) w := L.leaf level v flat ▸ own

theorem valueWith_array (xs : List Value) (rest : List Char) :
    valueWith onList onObject (L.text level (.array xs) ++ rest) = onList (L.text level (.array xs) ++ rest) := by
  rw [L.array]
  cases xs <;> rfl

theorem valueWith_object (ms : List (String × Value)) (rest : List Char) :
    valueWith onList onObject (L.text level (.object ms) ++ rest) = onObject (L.text level (.object ms) ++ rest) := by
  rw [L.object]
  cases ms <;> rfl

end Values

/-- A value that fits reads back, its numbers as what their texts are read as, if it writes no name twice. -/
theorem reads_value {v : Value} (distinct : v.NamesDistinct) {depth : Nat} (fits : v.Fits Number.Readable depth)
    (level : Nat) : (value depth).Reads (L.text level v) v.reread := by
  induction distinct generalizing depth level with
  | null => cases depth <;> exact reads_leaf rfl reads_null
  | boolean b => cases depth <;> exact reads_leaf rfl (reads_boolean b)
  | number n =>
    have own := fits.back n List.mem_cons_self
    cases depth <;> exact reads_leaf rfl (reads_number own)
  | string s => cases depth <;> exact reads_leaf rfl (reads_string s)
  | @array xs _ ih =>
    obtain ⟨depth, rfl, within⟩ := Value.fits_array.mp fits
    have own := reads_list fun x member => ih x member (within x member) (level + 1)
    rw [Value.reread_array]
    exact (own.map Value.array).of_eq (valueWith_array xs)
  | @object ms names _ ih =>
    obtain ⟨depth, rfl, within⟩ := Value.fits_object.mp fits
    have own := reads_fields (passesBlank_value depth) id names fun m member =>
      ih m member (within m member) (level + 1)
    have text : (ms.map fun m => (m.1, id m.2)) = ms := List.map_id ms
    rw [text] at own
    rw [Value.reread_object]
    exact (own.map Value.object).of_eq (valueWith_object ms)

end Layout

theorem load_of_number {x : Double} {n : Number} {left : List Char}
    (read : number x.negative (Double.layout x.shortest) = .ok (n, left)) :
    Value.load (String.ofList x.text) = .ok (.number n) := by
  refine load_of_apply (?_ : valueWith _ _ (String.ofList x.text).toList = .ok (_, left))
  rw [String.toList_ofList]
  cases sign : x.negative with
  | true =>
    rw [Double.text, if_pos sign, valueWith_minus, ← sign]
    exact map_apply read
  | false =>
    rw [Double.text, if_neg (by simp [sign]), ← List.append_nil (Double.layout _),
      valueWith_numeral (numeral_layout x.shortest), List.append_nil, ← sign]
    exact map_apply read

/-- Whether a binary64 number loads from its text can be computed. -/
theorem comesBack_of_number {x : Double}
    (read : (number x.negative (Double.layout x.shortest)).toOption = some (.real x, [])) :
    Number.ComesBack (.real x) := by
  cases outcome : number x.negative (Double.layout x.shortest) with
  | error e => simp [outcome, Except.toOption] at read
  | ok done =>
    obtain rfl : done = (.real x, []) := by simpa [outcome, Except.toOption] using read
    exact load_of_number outcome

theorem load_of_reads {r : Reader α} {source : String} {s : List Char} {x : α} (text : source.toList = s)
    (reads : r.Reads s x) : load r source = .ok x := by
  have read := reads [] trivial
  rw [List.append_nil, ← text] at read
  exact load_of_apply read

end Reader

open Reader

namespace Number

theorem ComesBack.load {n : Number} (back : n.ComesBack) :
    Value.load (String.ofList n.chars) = .ok (.number n) := by
  cases n with
  | integer i =>
    have reads : (value nestingLimit).Reads (Number.chars (.integer i)) (.number (.integer i)) :=
      reads_integer back.1 back.2
    exact load_of_reads String.toList_ofList reads
  | real x => exact back

theorem ComesBack.readable {n : Number} (back : n.ComesBack) : n.Readable := readable_of_load back.load

end Number

namespace Value

/-- A value whose numbers come back is read as it was. -/
theorem reread_of_comesBack {v : Value} (back : ∀ n ∈ v.numbers, n.ComesBack) : v.reread = v :=
  reread_eq_self fun n member => Number.reread_eq (back n member).load

theorem fits_of_comesBack {v : Value} {depth : Nat} (fits : v.Fits Number.ComesBack depth) :
    v.Fits Number.Readable depth :=
  ⟨fits.shallow, fun n member => (fits.back n member).readable⟩

theorem elementChars_eq (xs : List Value) : elementChars xs = behind [] chars xs := by
  induction xs with
  | nil => rfl
  | cons x xs ih => exact congrArg (',' :: chars x ++ ·) ih

theorem memberChars_eq (ms : List (String × Value)) :
    memberChars ms = behind [] (fun m => quoteChars m.1.toList ++ ':' :: chars m.2) ms := by
  induction ms with
  | nil => rfl
  | cons m ms ih => exact congrArg (',' :: quoteChars m.1.toList ++ ':' :: chars m.2 ++ ·) ih

/-- Values without any blanks. -/
def oneLine : Layout where
  text _ v := v.chars
  gap _ := []
  spaces := 0
  blank _ := nofun
  leaf _ _ _ := rfl
  array _ xs := by
    cases xs with
    | nil => rfl
    | cons x xs =>
      rw [chars, elementChars_eq, enclosed]
      simp only [List.cons_append, List.append_assoc, List.nil_append]
  object _ ms := by
    cases ms with
    | nil => rfl
    | cons m ms =>
      rw [chars, memberChars_eq, enclosed]
      simp only [List.cons_append, List.append_assoc, List.nil_append, List.replicate_zero]

/-- A value loads from its text on one line. -/
theorem load_compact {v : Value} (distinct : v.NamesDistinct) (fits : v.Fits Number.ComesBack nestingLimit) :
    load v.compact = .ok v := by
  have reads := oneLine.reads_value distinct (fits_of_comesBack fits) 0
  rw [reread_of_comesBack fits.back] at reads
  exact load_of_reads String.toList_ofList reads

theorem allBlank_newLine (level : Nat) : AllBlank (newLine level) := fun c member => by
  rcases List.mem_cons.mp member with rfl | inBlanks
  · rfl
  · rw [List.eq_of_mem_replicate inBlanks]
    rfl

theorem prettyElements_eq (level : Nat) (xs : List Value) :
    prettyElements level xs = behind (newLine (level + 1)) (prettyChars (level + 1)) xs := by
  induction xs with
  | nil => rfl
  | cons x xs ih => exact congrArg (',' :: newLine (level + 1) ++ prettyChars (level + 1) x ++ ·) ih

theorem prettyMembers_eq (level : Nat) (ms : List (String × Value)) : prettyMembers level ms =
    behind (newLine (level + 1)) (fun m => quoteChars m.1.toList ++ ':' :: ' ' :: prettyChars (level + 1) m.2) ms := by
  induction ms with
  | nil => rfl
  | cons m ms ih =>
    rw [prettyMembers, ih]
    simp only [behind, List.flatMap_cons, List.cons_append, List.append_assoc]

/-- Values with each item on a line of its own. -/
def severalLines : Layout where
  text := prettyChars
  gap := newLine
  spaces := 1
  blank := allBlank_newLine
  leaf level v flat := by
    cases v with
    | boolean b => cases b <;> rfl
    | array xs => exact absurd flat (Nat.succ_ne_zero _)
    | object ms => exact absurd flat (Nat.succ_ne_zero _)
    | _ => rfl
  array level xs := by
    cases xs with
    | nil => rfl
    | cons x xs =>
      rw [prettyChars, prettyElements_eq, enclosed]
      simp only [List.cons_append, List.append_assoc]
  object level ms := by
    cases ms with
    | nil => rfl
    | cons m ms =>
      rw [prettyChars, prettyMembers_eq, enclosed]
      simp only [List.cons_append, List.append_assoc, List.nil_append, List.replicate_one]

/-- A value loads from its text over several lines. -/
theorem load_pretty {v : Value} (distinct : v.NamesDistinct) (fits : v.Fits Number.ComesBack nestingLimit) :
    load v.pretty = .ok v := by
  have reads := severalLines.reads_value distinct (fits_of_comesBack fits) 0
  rw [reread_of_comesBack fits.back] at reads
  exact load_of_reads String.toList_ofList reads

end Value

end JsonAssist
