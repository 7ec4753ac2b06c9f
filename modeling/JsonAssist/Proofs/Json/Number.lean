import JsonAssist.Proofs.Json.Range

namespace JsonAssist

namespace Reader

open Grammar

/-- Behind a number there stands nothing that could belong to it. -/
structure Stops (fraction exponent rest : List Char) : Prop where
  digit : startsWithDigit rest = false
  mark : exponent = [] → ∀ c ∈ rest.head?, ¬IsMark c
  point : fraction = [] → exponent = [] → rest.head? ≠ some '.'

section Numbers

variable {may : Prop} {negative down : Bool} {significand : Nat} {start : Int} {P : List Char → Prop}
  {d : Char} {s ds fraction exponent : List Char}

theorem covers_real (negative : Bool) (small : may ∨ Double.Small significand start) :
    (real negative significand start).Covers may [] P := by
  cases value : Double.ofDecimal negative significand start with
  | some x => exact .inl ⟨.real x, fun rest _ => by simp only [real, value, List.nil_append]⟩
  | none =>
    refine .inr ⟨small.resolve_right fun small => ?_, fun rest _ =>
      ⟨⟨.numberOutOfRange, byteLength rest, []⟩, by simp [real, value, fail], rfl⟩⟩
    obtain ⟨x, made⟩ := Double.exists_ofDecimal negative small
    exact nomatch value.symm.trans made

/-- The digits of an exponent, of which the sign has been read. -/
def exponentDigits (negative : Bool) (significand : Nat) (start : Int) (down : Bool) : Reader Number := do
  match ← look with
  | [] => fail .eofInValue
  | c :: rest =>
    if c.isDigit then do
      let (power, _, rest) := takeDigits (Nat.pow 2 31) 0 0 (c :: rest)
      if startsWithDigit rest then
        if significand ≠ 0 ∧ ¬down then do moveTo rest.tail; fail .numberOutOfRange
        else do moveTo (skipDigits rest); pure (.real (.zero negative))
      else do
        moveTo rest
        real negative significand (if down then start - power else start + power)
    else failPast .invalidNumber

theorem exponentPart_sign {sign : List Char} (isSign : IsSign sign) (first : d.isDigit) (s : List Char) :
    exponentPart negative significand start (sign ++ d :: s) =
      exponentDigits negative significand start (sign == ['-']) (d :: s) := by
  rcases isSign with rfl | rfl | rfl
  · have plus : d ≠ '+' := fun same => by simp [same] at first
    have minus : d ≠ '-' := fun same => by simp [same] at first
    rw [exponentPart, exponentDigits, List.nil_append, look_bind, look_bind]
    split
    next same => exact absurd (List.cons.inj same).1 plus
    next same => exact absurd (List.cons.inj same).1 minus
    next => rfl
  · rfl
  · rfl

theorem covers_exponentDigits {written : Int} (first : d.isDigit) (digits : AllDigits ds)
    (value : written =
      if down then -(Nat.ofDigitChars 10 (d :: ds) 0 : Int) else (Nat.ofDigitChars 10 (d :: ds) 0 : Int))
    (small : may ∨ written < 2 ^ 31 ∧ Double.Small significand (start + written)) :
    (exponentDigits negative significand start down).Covers may (d :: ds) (startsWithDigit · = false) := by
  have own := allDigits_cons.mpr ⟨first, digits⟩
  obtain ⟨power, count, more, taken⟩ : ∃ power count more,
    takeDigits (Nat.pow 2 31) 0 0 (d :: ds) = (power, count, more) := ⟨_, _, _, rfl⟩
  have digitsMore := own.of_takeDigits taken
  have behind {rest : List Char} (ends : startsWithDigit rest = false) :
      takeDigits (Nat.pow 2 31) 0 0 (d :: ds ++ rest) = (power, count, more ++ rest) := by
    rw [takeDigits_append ends, taken]
  have opened {rest : List Char} (ends : startsWithDigit rest = false) :
      exponentDigits negative significand start down (d :: ds ++ rest) =
        (if startsWithDigit more then
          if significand ≠ 0 ∧ ¬down then do moveTo (more ++ rest).tail; fail .numberOutOfRange
          else do moveTo rest; pure (.real (.zero negative))
        else do
          moveTo (more ++ rest)
          real negative significand (if down then start - power else start + power) : Reader Number)
            (d :: ds ++ rest) := by
    rw [exponentDigits, look_bind, List.cons_append]
    simp only [if_pos first, ← List.cons_append, behind ends, startsWithDigit_append ends,
      skipDigits_append digitsMore ends]
  by_cases goesOn : startsWithDigit more
  · by_cases overflows : significand ≠ 0 ∧ ¬down
    · refine .inr ⟨small.resolve_right fun ⟨counted, _⟩ => ?_, fun rest ends =>
        ⟨_, by rw [opened ends, if_pos goesOn, if_pos overflows]; rfl, rfl⟩⟩
      cases more with
      | nil => exact nomatch goesOn
      | cons c more =>
        have reached : 2 ^ 31 ≤ Nat.ofDigitChars 10 (d :: ds) 0 :=
          Nat.le_trans (Nat.le_mul_of_pos_right _ (Nat.pow_pos (by decide))) (bound_mul_pow_le own taken)
        rw [value, if_neg overflows.2] at counted
        omega
    · exact .inl ⟨_, fun rest ends => by rw [opened ends, if_pos goesOn, if_neg overflows, moveTo_bind, pure_apply]⟩
  · obtain rfl := digitsMore.eq_nil (by simpa using goesOn)
    have counted : (if down then start - power else start + power) = start + written := by
      rw [value, ← (ofDigitChars_takeDigits taken).1, Nat.ofDigitChars_nil]
      split <;> omega
    refine (covers_real negative (small.imp_right And.right)).of_eq fun rest ends => ?_
    rw [opened ends, if_neg goesOn, moveTo_bind, counted]

theorem covers_realTail (form : IsExponent exponent)
    (small : may ∨ power exponent < 2 ^ 31 ∧ Double.Small significand (start + power exponent)) :
    (realTail negative significand start).Covers may exponent
      fun rest => startsWithDigit rest = false ∧ (exponent = [] → ∀ c ∈ rest.head?, ¬IsMark c) := by
  cases form with
  | none =>
    have plain : may ∨ Double.Small significand start := by simpa [power] using small.imp_right And.right
    refine (covers_real negative plain).of_eq fun rest ends => ?_
    rw [realTail, look_bind, List.nil_append]
    cases rest with
    | nil => rfl
    | cons c rest => exact congrFun (if_neg (ends.2 rfl c rfl)) _
  | @digits mark d sign ds isMark isSign first digits =>
    have behind (t : List Char) : realTail negative significand start (mark :: (sign ++ d :: t)) =
        exponentDigits negative significand start (sign == ['-']) (d :: t) := by
      rw [realTail, look_bind, ← exponentPart_sign isSign first]
      exact congrFun (if_pos isMark) _
    have own : (exponentDigits negative significand start (sign == ['-'])).Covers may (d :: ds) _ :=
      covers_exponentDigits first digits (power_digits isSign first ds) small
    refine (own.mono fun rest ends => ends.1).of_eq fun rest ends => ?_
    rw [List.cons_append, List.append_assoc, List.cons_append, behind]

theorem not_startsWithDigit_exponent (form : IsExponent exponent) {rest : List Char}
    (ends : startsWithDigit rest = false) : startsWithDigit (exponent ++ rest) = false := by
  cases form with
  | none => exact ends
  | digits isMark => rcases isMark with rfl | rfl <;> rfl

theorem covers_fractionPart {value taken : Nat} {more : List Char} (first : d.isDigit) (digits : AllDigits ds)
    (form : IsExponent exponent) (took : takeDigits (Nat.pow 2 64) significand 0 (d :: ds) = (value, taken, more))
    (small : may ∨ power exponent < 2 ^ 31 ∧ Double.Small value (start - taken + power exponent)) :
    (fractionPart negative significand start).Covers may (d :: ds ++ exponent)
      fun rest => startsWithDigit rest = false ∧ (exponent = [] → ∀ c ∈ rest.head?, ¬IsMark c) := by
  have digitsMore := (allDigits_cons.mpr ⟨first, digits⟩).of_takeDigits took
  -- If no digit fits, all of them are passed over.
  have passed : taken = 0 → startsWithDigit more := fun noneTaken => by
    obtain ⟨front, _, split, count⟩ := exists_takeDigits (Nat.pow 2 64) significand 0 (d :: ds)
    simp only [took, noneTaken] at split count
    have empty : front = [] := List.eq_nil_of_length_eq_zero (by omega)
    rw [empty, List.nil_append] at split
    exact split ▸ first
  have tail : (realTail negative value (start - taken)).Covers may exponent _ := covers_realTail form small
  refine tail.of_eq fun rest ends => ?_
  have stops := not_startsWithDigit_exponent form ends.1
  rw [List.append_assoc, fractionPart, look_bind, takeDigits_append stops, took]
  simp only [moveTo_bind, skipDigits_append digitsMore stops, startsWithDigit_append stops]
  rw [if_neg fun ⟨noneTaken, noneLeft⟩ => noneLeft (passed noneTaken)]

theorem not_startsWithDigit_fraction (fractional : IsFraction fraction) (form : IsExponent exponent) {rest : List Char}
    (ends : startsWithDigit rest = false) : startsWithDigit (fraction ++ (exponent ++ rest)) = false := by
  cases fractional with
  | none => exact not_startsWithDigit_exponent form ends
  | digits => rfl

/-- Digits that nothing follows are an integer if they fit 64 bits. -/
theorem covers_integer (negative : Bool) (significand more : Nat) (small : may ∨ Double.Small significand more) :
    Covers (if more ≠ 0 then realTail negative significand more
      else if ¬negative then pure (.integer significand)
      else if significand = 0 ∨ Nat.pow 2 63 < significand then real true significand 0
      else pure (.integer (-significand))) may [] (Stops [] []) := by
  split
  · refine (covers_realTail .none ?_).mono fun rest ends => ⟨ends.digit, ends.mark⟩
    exact small.imp_right fun small => ⟨by decide, by simpa [power] using small⟩
  next none =>
    obtain rfl : more = 0 := by simpa using none
    split
    · exact covers_pure _
    split
    · exact covers_real _ small
    · exact covers_pure _

theorem covers_numberTail {value taken : Nat} {more : List Char} (digits : AllDigits ds)
    (fractional : IsFraction fraction) (form : IsExponent exponent)
    (took : takeDigits (Nat.pow 2 64) significand 0 fraction.tail = (value, taken, more))
    (small : may ∨ power exponent < 2 ^ 31 ∧ Double.Small value (ds.length - taken + power exponent)) :
    (numberTail negative significand).Covers may (ds ++ (fraction ++ exponent)) (Stops fraction exponent) := by
  have passed {t : List Char} (ends : startsWithDigit t = false) : skipDigits (ds ++ t) = t :=
    skipDigits_append digits ends
  have count (t : List Char) : (ds ++ t).length - t.length = ds.length := by simp
  cases fractional with
  | @digits d fs first others =>
    have own : (fractionPart negative significand ds.length).Covers may (d :: fs ++ exponent) _ :=
      covers_fractionPart first others form took small
    refine (own.mono fun rest ends => ⟨ends.digit, ends.mark⟩).of_eq fun rest ends => ?_
    rw [List.append_assoc, numberTail, look_bind, passed rfl, moveTo_bind, count]
    rfl
  | none =>
    cases took
    rw [Nat.cast_zero, Int.sub_zero] at small
    cases form with
    | none =>
      have plain : may ∨ Double.Small significand ds.length := by simpa [power] using small.imp_right And.right
      refine (covers_integer negative significand ds.length plain).of_eq fun rest ends => ?_
      rw [List.append_assoc, numberTail, look_bind, List.nil_append, List.nil_append, passed ends.digit, moveTo_bind,
        count]
      split
      next => exact absurd rfl (ends.point rfl rfl)
      next =>
        have noMark : ¬(rest.head? = some 'e' ∨ rest.head? = some 'E') := by
          rintro (mark | mark)
          · exact ends.mark rfl 'e' mark (.inl rfl)
          · exact ends.mark rfl 'E' mark (.inr rfl)
        simp only [noMark, or_false]
    | @digits mark d sign es isMark isSign first others =>
      have own : (realTail negative significand ds.length).Covers may (mark :: (sign ++ d :: es)) _ :=
        covers_realTail (.digits isMark isSign first others) small
      refine (own.mono fun rest ends => ⟨ends.digit, ends.mark⟩).of_eq fun rest ends => ?_
      have notDigit : startsWithDigit (mark :: (sign ++ d :: es) ++ rest) = false := by
        rcases isMark with rfl | rfl <;> rfl
      rw [List.append_assoc, List.nil_append, numberTail, look_bind, passed notDigit, moveTo_bind, count]
      rcases isMark with rfl | rfl <;> exact congrFun (if_pos (by simp)) _

theorem allDigits_of_isWhole {whole : List Char} (isWhole : IsWhole whole) : AllDigits whole := by
  cases isWhole with
  | zero => exact allDigits_cons.mpr ⟨rfl, allDigits_nil⟩
  | digits first _ others => exact allDigits_cons.mpr ⟨first, others⟩

/-- A number of the grammar is read whole, unless it is out of range. -/
theorem covers_number {whole : List Char} (isWhole : IsWhole whole) (fractional : IsFraction fraction)
    (form : IsExponent exponent)
    (inRange : may ∨ power exponent < 2 ^ 31 ∧ size whole fraction exponent ≤ Double.safe) :
    (number negative).Covers may (whole ++ (fraction ++ exponent)) (Stops fraction exponent) := by
  have behind {rest : List Char} (ends : Stops fraction exponent rest) :
      startsWithDigit (fraction ++ (exponent ++ rest)) = false :=
    not_startsWithDigit_fraction fractional form ends.digit
  have small {value count significand taken : Nat} {more left : List Char}
      (took : takeDigits (Nat.pow 2 64) 0 0 whole = (value, count, more))
      (tookMore : takeDigits (Nat.pow 2 64) value 0 fraction.tail = (significand, taken, left)) :
      may ∨ power exponent < 2 ^ 31 ∧ Double.Small significand (more.length - taken + power exponent) :=
    inRange.imp_right fun ⟨counted, bound⟩ =>
      ⟨counted, small_of_size (allDigits_of_isWhole isWhole) bound took tookMore⟩
  cases isWhole with
  | zero =>
    have own : (numberTail negative 0).Covers may (fraction ++ exponent) _ :=
      covers_numberTail allDigits_nil fractional form rfl (small rfl rfl)
    refine own.of_eq fun rest ends => ?_
    rw [List.append_assoc, List.append_assoc, number, look_bind]
    simp only [List.cons_append, List.nil_append, if_true, moveTo_bind, behind ends]
    rfl
  | @digits d ds first notZero others =>
    obtain ⟨value, taken, more, took⟩ : ∃ value taken more,
      takeDigits (Nat.pow 2 64) 0 0 (d :: ds) = (value, taken, more) := ⟨_, _, _, rfl⟩
    have digitsMore := (allDigits_cons.mpr ⟨first, others⟩).of_takeDigits took
    have own : (numberTail negative value).Covers may (more ++ (fraction ++ exponent)) _ :=
      covers_numberTail digitsMore fractional form rfl (small took rfl)
    refine own.of_eq fun rest ends => ?_
    rw [List.append_assoc, List.append_assoc, List.append_assoc, List.append_assoc, number, look_bind]
    simp only [List.cons_append, if_neg notZero, if_pos first]
    rw [← List.cons_append, takeDigits_append (behind ends), took, moveTo_bind]

end Numbers

section Read

variable {negative down : Bool} {significand : Nat} {start : Int} {n : Number} {s rest : List Char}

theorem exists_cons_of_digits {ds : List Char} (begins : startsWithDigit (ds ++ rest))
    (ends : startsWithDigit rest = false) : ∃ d others, ds = d :: others := by
  cases ds with
  | nil => simp [ends] at begins
  | cons d others => exact ⟨d, others, rfl⟩

theorem eq_of_real (read : real negative significand start s = .ok (n, rest)) : rest = s := by
  rw [real] at read
  split at read
  · cases read
    rfl
  · exact nomatch read

theorem exists_exponentDigits (read : exponentDigits negative significand start down s = .ok (n, rest)) :
    ∃ d ds, d.isDigit ∧ AllDigits ds ∧ s = d :: (ds ++ rest) ∧ startsWithDigit rest = false := by
  rw [exponentDigits, look_bind] at read
  cases s with
  | nil => exact nomatch read
  | cons c s =>
    dsimp only at read
    split at read
    next first =>
      obtain ⟨ds, digits, split, _⟩ := exists_takeDigits (Nat.pow 2 31) 0 0 (c :: s)
      generalize (takeDigits (Nat.pow 2 31) 0 0 (c :: s)).2.2 = left at read split
      -- Either all digits were taken, or those that do not fit are passed over.
      have all : ∃ ds, AllDigits ds ∧ c :: s = ds ++ rest ∧ startsWithDigit rest = false := by
        split at read
        · split at read
          · exact nomatch read
          · obtain ⟨more, digits', split', ends⟩ := exists_skipDigits left
            cases read
            exact ⟨ds ++ more, digits.append digits', by rw [split, List.append_assoc, ← split'], ends⟩
        next ends =>
          rw [moveTo_bind] at read
          exact ⟨ds, digits, by rw [split, eq_of_real read], by rw [eq_of_real read]; simpa using ends⟩
      obtain ⟨ds, digits, split, ends⟩ := all
      obtain ⟨d, others, rfl⟩ := exists_cons_of_digits (show startsWithDigit (ds ++ rest) from split ▸ first) ends
      exact ⟨d, others, (allDigits_cons.mp digits).1, (allDigits_cons.mp digits).2, split, ends⟩
    next => exact nomatch read

/-- An exponent is read as its digits, without the sign. -/
theorem exists_sign (negative : Bool) (significand : Nat) (start : Int) (s : List Char) : ∃ sign down digits,
    IsSign sign ∧ s = sign ++ digits ∧
      exponentPart negative significand start s = exponentDigits negative significand start down digits := by
  rw [exponentPart, look_bind]
  split
  next digits => exact ⟨['+'], false, digits, .inr (.inl rfl), rfl, by cases digits <;> rfl⟩
  next digits => exact ⟨['-'], true, digits, .inr (.inr rfl), rfl, by cases digits <;> rfl⟩
  next => exact ⟨[], false, s, .inl rfl, rfl, by cases s <;> rfl⟩

theorem exists_realTail (read : realTail negative significand start s = .ok (n, rest)) :
    ∃ exponent, IsExponent exponent ∧ s = exponent ++ rest ∧
      (exponent = [] → ∀ c ∈ rest.head?, ¬IsMark c) ∧ (exponent ≠ [] → startsWithDigit rest = false) := by
  rw [realTail, look_bind] at read
  cases s with
  | nil =>
    obtain rfl := eq_of_real read
    exact ⟨[], .none, rfl, nofun, absurd rfl⟩
  | cons c s =>
    dsimp only at read
    split at read
    next isMark =>
      rw [moveTo_bind] at read
      obtain ⟨sign, down, digits, isSign, rfl, same⟩ := exists_sign negative significand start s
      rw [same] at read
      obtain ⟨d, ds, first, others, rfl, ends⟩ := exists_exponentDigits read
      exact ⟨_, .digits isMark isSign first others, by simp, nofun, fun _ => ends⟩
    next notMark =>
      obtain rfl := eq_of_real read
      exact ⟨[], .none, rfl, fun _ c' head => Option.some.inj head ▸ notMark, absurd rfl⟩

theorem exists_fractionPart (read : fractionPart negative significand start s = .ok (n, rest)) :
    ∃ d ds exponent, d.isDigit ∧ AllDigits ds ∧ IsExponent exponent ∧ s = d :: (ds ++ (exponent ++ rest)) ∧
      startsWithDigit rest = false ∧ (exponent = [] → ∀ c ∈ rest.head?, ¬IsMark c) := by
  rw [fractionPart, look_bind] at read
  obtain ⟨ds, digits, split, count⟩ := exists_takeDigits (Nat.pow 2 64) significand 0 s
  obtain ⟨value, taken, left, took⟩ : ∃ value taken left,
    takeDigits (Nat.pow 2 64) significand 0 s = (value, taken, left) := ⟨_, _, _, rfl⟩
  simp only [took] at read split count
  obtain ⟨more, digits', split', ends⟩ := exists_skipDigits left
  rw [moveTo_bind] at read
  split at read
  next => split at read <;> exact nomatch read
  next entered =>
    obtain ⟨exponent, form, split'', mark, digit⟩ := exists_realTail read
    -- Unless a digit was taken there is one that does not fit.
    have begins : startsWithDigit (ds ++ more ++ skipDigits left) := by
      rw [List.append_assoc, ← split']
      cases ds with
      | nil => simpa [count] using entered
      | cons d ds => exact digits d List.mem_cons_self
    obtain ⟨d, others, all⟩ := exists_cons_of_digits begins ends
    obtain ⟨first, rest'⟩ := allDigits_cons.mp (all ▸ digits.append digits')
    refine ⟨d, others, exponent, first, rest', form, ?_, ?_, mark⟩
    · rw [split, ← List.cons_append, ← all, List.append_assoc, ← split'', ← split']
    · cases form with
      | none => rwa [split''] at ends
      | digits => exact digit (by simp)

theorem exists_numberTail (read : numberTail negative significand s = .ok (n, rest)) :
    ∃ ds fraction exponent, AllDigits ds ∧ IsFraction fraction ∧ IsExponent exponent ∧
      s = ds ++ (fraction ++ (exponent ++ rest)) ∧ Stops fraction exponent rest := by
  obtain ⟨ds, digits, split, ends⟩ := exists_skipDigits s
  rw [numberTail, look_bind, moveTo_bind] at read
  generalize skipDigits s = left at read split ends
  split at read
  next fraction =>
    rw [moveTo_bind] at read
    obtain ⟨d, others, exponent, first, rest', form, split', ends', mark⟩ := exists_fractionPart read
    exact ⟨ds, _, exponent, digits, .digits first rest', form, by rw [split, split']; simp, ⟨ends', mark, nofun⟩⟩
  next noPoint =>
    have tail : ∃ exponent, IsExponent exponent ∧ left = exponent ++ rest ∧
        (exponent = [] → ∀ c ∈ rest.head?, ¬IsMark c) ∧ (exponent ≠ [] → startsWithDigit rest = false) := by
      split at read
      next => exact exists_realTail read
      next plain =>
        obtain rfl : rest = left := by
          split at read
          · cases read
            rfl
          split at read
          · exact eq_of_real read
          · cases read
            rfl
        refine ⟨[], .none, rfl, fun _ c head mark => plain (.inr ?_), absurd rfl⟩
        rcases mark with rfl | rfl
        · exact .inl head
        · exact .inr head
    obtain ⟨exponent, form, rfl, mark, digit⟩ := tail
    refine ⟨ds, [], exponent, digits, .none, form, split, ?_, mark, ?_⟩
    · cases form with
      | none => exact ends
      | digits => exact digit (by simp)
    · rintro - rfl point
      obtain ⟨fraction, same⟩ := List.head?_eq_some_iff.mp point
      exact noPoint fraction same

/-- What is read as a number is one of the grammar. -/
theorem exists_number (read : number negative s = .ok (n, rest)) :
    ∃ whole fraction exponent, IsWhole whole ∧ IsFraction fraction ∧ IsExponent exponent ∧
      s = whole ++ (fraction ++ (exponent ++ rest)) ∧ Stops fraction exponent rest := by
  rw [number, look_bind] at read
  cases s with
  | nil => exact nomatch read
  | cons c s =>
    dsimp only at read
    split at read
    next zero =>
      rw [moveTo_bind] at read
      split at read
      · exact nomatch read
      next single =>
        obtain ⟨ds, fraction, exponent, digits, fractional, form, rfl, stops⟩ := exists_numberTail read
        have noDigits : ds = [] := digits.eq_nil (by
          rwa [startsWithDigit_append (not_startsWithDigit_fraction fractional form stops.digit),
            Bool.not_eq_true] at single)
        exact ⟨['0'], fraction, exponent, .zero, fractional, form, by rw [noDigits, zero]; rfl, stops⟩
    next notZero =>
      split at read
      next first =>
        obtain ⟨ds, digits, split, _⟩ := exists_takeDigits (Nat.pow 2 64) 0 0 (c :: s)
        rw [moveTo_bind] at read
        obtain ⟨more, fraction, exponent, digits', fractional, form, split', stops⟩ := exists_numberTail read
        have begins : startsWithDigit (ds ++ more ++ (fraction ++ (exponent ++ rest))) := by
          rw [List.append_assoc, ← split', ← split]
          exact first
        obtain ⟨d, others, all⟩ :=
          exists_cons_of_digits begins (not_startsWithDigit_fraction fractional form stops.digit)
        rw [split', ← List.append_assoc, all] at split
        obtain rfl : c = d := (List.cons.inj split).1
        have whole := allDigits_cons.mp (all ▸ digits.append digits')
        exact ⟨_, fraction, exponent, .digits first notZero whole.2, fractional, form, split, stops⟩
      next => exact nomatch read

end Read

section Follows

variable {sign whole fraction exponent rest : List Char} {d : Char}

theorem not_isMark_of_isDigit (isDigit : d.isDigit) : ¬IsMark d := by
  rintro (rfl | rfl) <;> simp at isDigit

/-- What stands in front of the point is neither a point nor a mark. -/
theorem plain_of_isWhole (isSign : sign = [] ∨ sign = ['-']) (isWhole : IsWhole whole) :
    ∀ d ∈ sign ++ whole, d ≠ '.' ∧ ¬IsMark d := by
  refine List.forall_mem_append.mpr ⟨?_, fun d member => ?_⟩
  · rcases isSign with rfl | rfl <;> simp [IsMark]
  · have isDigit := allDigits_of_isWhole isWhole d member
    exact ⟨fun same => by simp [same] at isDigit, not_isMark_of_isDigit isDigit⟩

theorem not_isMark_of_isFraction (fractional : IsFraction fraction) : ∀ d ∈ fraction, ¬IsMark d := by
  cases fractional with
  | none => nofun
  | digits first others =>
    refine List.forall_mem_cons.mpr ⟨by simp [IsMark], fun d member => ?_⟩
    exact not_isMark_of_isDigit (allDigits_cons.mpr ⟨first, others⟩ d member)

/-- Which character goes on with a number can be told from the number as a whole. -/
theorem stops_iff (isSign : sign = [] ∨ sign = ['-']) (isWhole : IsWhole whole) (fractional : IsFraction fraction)
    (form : IsExponent exponent) : Stops fraction exponent rest ↔
      ∀ c ∈ rest.head?, ¬Continues (sign ++ whole ++ (fraction ++ exponent)) c := by
  have plain := plain_of_isWhole isSign isWhole
  constructor
  · rintro ends c head (isDigit | ⟨rfl, none⟩ | ⟨mark, none⟩)
    · obtain ⟨t, rfl⟩ := List.head?_eq_some_iff.mp head
      exact absurd isDigit (by simpa [startsWithDigit] using ends.digit)
    · cases fractional with
      | digits => exact (none '.' (by simp)).1 rfl
      | none =>
        cases form with
        | digits isMark => exact (none _ (by simp)).2 isMark
        | none => exact ends.point rfl rfl head
    · cases form with
      | digits isMark => exact none _ (by simp) isMark
      | none => exact ends.mark rfl c head mark
  · intro apart
    refine ⟨?_, ?_, ?_⟩
    · cases rest with
      | nil => rfl
      | cons c t => exact Bool.eq_false_iff.mpr fun isDigit => apart c rfl (.inl isDigit)
    · rintro rfl c head mark
      refine apart c head (.inr (.inr ⟨mark, ?_⟩))
      rw [List.append_nil]
      exact List.forall_mem_append.mpr ⟨fun d member => (plain d member).2, not_isMark_of_isFraction fractional⟩
    · rintro rfl rfl head
      exact apart '.' head (.inr (.inl ⟨rfl, by simpa using plain⟩))

end Follows

end Reader

end JsonAssist
