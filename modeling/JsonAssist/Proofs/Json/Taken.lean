import JsonAssist.Proofs.Json.Number
import JsonAssist.Proofs.Json.String

namespace JsonAssist

namespace Reader

open Grammar

variable {α β : Type} {Form : List Char → Prop} {s t rest : List Char}

/-- What the reader takes off the front of a text has the form, behind blanks, and what is left does not belong to
it. -/
def Takes (r : Reader α) (Form : List Char → Prop) : Prop :=
  ∀ s x rest, r s = .ok (x, rest) →
    ∃ blanks used, AllBlank blanks ∧ s = blanks ++ (used ++ rest) ∧ Form used ∧ Apart used rest

section Scalars

variable {onList onObject : Reader Value} {c : Char} {w : List Char} {v : Value}

theorem apart_of_first (notDigit : c.isDigit = false) (notMinus : c ≠ '-') (s rest : List Char) :
    Apart (c :: s) rest := by
  intro number
  generalize first : c :: s = number at number
  cases number with
  | positive numeral =>
    obtain ⟨d, t, rfl, isDigit⟩ := numeral.exists_digit
    rw [← (List.cons.inj first).1, notDigit] at isDigit
    exact nomatch isDigit
  | negative => exact absurd (List.cons.inj first).1 notMinus

theorem eq_of_word (read : word w s = .ok ((), rest)) : s = w ++ rest := by
  induction w generalizing s with
  | nil =>
    cases read
    rfl
  | cons c w ih =>
    rw [word, look_bind] at read
    cases s with
    | nil => exact nomatch read
    | cons d s =>
      dsimp only at read
      split at read
      next same => rw [same, ih read, List.cons_append]
      next => exact nomatch read

theorem exists_of_drop_word {v' : Value} (form : IsScalar IsNumber (c :: w)) (notDigit : c.isDigit = false)
    (notMinus : c ≠ '-') (read : (do drop; word w; pure v : Reader Value) (c :: t) = .ok (v', rest)) :
    ∃ used, c :: t = used ++ rest ∧ IsScalar IsNumber used ∧ Apart used rest := by
  rw [drop_bind] at read
  obtain ⟨_, left, taken, done⟩ := exists_of_bind read
  cases done
  rw [eq_of_word taken]
  exact ⟨c :: w, rfl, form, apart_of_first notDigit notMinus w rest⟩

theorem exists_numeral {negative : Bool} {n : Number} (read : number negative s = .ok (n, rest)) :
    ∃ numeral, IsNumeral numeral ∧ s = numeral ++ rest ∧ Apart numeral rest ∧ Apart ('-' :: numeral) rest := by
  obtain ⟨whole, fraction, exponent, isWhole, fractional, form, rfl, stops⟩ := exists_number read
  refine ⟨_, .mk isWhole fractional form, by simp only [List.append_assoc], fun _ => ?_, fun _ => ?_⟩
  · exact (stops_iff (.inl rfl) isWhole fractional form).mp stops
  · exact (stops_iff (.inr rfl) isWhole fractional form).mp stops

theorem takes_valueWith (scalar : ∀ s, IsScalar IsNumber s → Form s)
    (array : ∀ s v rest, onList ('[' :: s) = .ok (v, rest) → ∃ inner, s = inner ++ rest ∧ Form ('[' :: inner))
    (object : ∀ s v rest, onObject ('\x7b' :: s) = .ok (v, rest) →
      ∃ inner, s = inner ++ rest ∧ Form ('\x7b' :: inner)) :
    (valueWith onList onObject).Takes Form := by
  intro s v rest own
  rw [valueWith] at own
  obtain ⟨blanks, t, blank, rfl, read⟩ := exists_of_peek own
  refine ⟨blanks, ?_⟩
  -- What stands behind the blanks is told by its first character.
  suffices ∃ used, t = used ++ rest ∧ Form used ∧ Apart used rest by
    obtain ⟨used, rfl, form, apart⟩ := this
    exact ⟨used, blank, rfl, form, apart⟩
  cases t with
  | nil => exact nomatch read
  | cons c t =>
    dsimp only [List.head?_cons] at read
    have known (found : ∃ used, c :: t = used ++ rest ∧ IsScalar IsNumber used ∧ Apart used rest) :
        ∃ used, c :: t = used ++ rest ∧ Form used ∧ Apart used rest := by
      obtain ⟨used, same, form, apart⟩ := found
      exact ⟨used, same, scalar used form, apart⟩
    split at read
    next first =>
      subst first
      exact known (exists_of_drop_word .null rfl (by decide) read)
    split at read
    next first =>
      subst first
      exact known (exists_of_drop_word .true rfl (by decide) read)
    split at read
    next first =>
      subst first
      exact known (exists_of_drop_word .false rfl (by decide) read)
    split at read
    next first =>
      subst first
      obtain ⟨n, taken, -⟩ := exists_of_map read
      obtain ⟨numeral, form, rfl, -, apart⟩ := exists_numeral taken
      exact known ⟨'-' :: numeral, rfl, .number (.negative form), apart⟩
    split at read
    next =>
      obtain ⟨n, taken, -⟩ := exists_of_map read
      obtain ⟨numeral, form, same, apart, -⟩ := exists_numeral taken
      exact known ⟨numeral, same, .number (.positive form), apart⟩
    split at read
    next first =>
      subst first
      obtain ⟨name, taken, -⟩ := exists_of_map read
      obtain ⟨used, form, same⟩ := exists_of_string taken
      refine known ⟨used, same, .string form, ?_⟩
      cases form
      exact apart_of_first rfl (by decide) _ _
    split at read
    next first =>
      subst first
      obtain ⟨inner, rfl, form⟩ := array t v rest read
      exact ⟨_, rfl, form, apart_of_first rfl (by decide) _ _⟩
    split at read
    next first =>
      subst first
      obtain ⟨inner, rfl, form⟩ := object t v rest read
      exact ⟨_, rfl, form, apart_of_first rfl (by decide) _ _⟩
    next => exact nomatch read

end Scalars

section Lists

variable {item : Reader α} {first : Bool} {left : List Char} {xs : List α}

theorem nextElement_cases {more : Bool} (read : nextElement first s = .ok (more, left)) :
    (more = false ∧ ∃ blanks after, AllBlank blanks ∧ s = blanks ++ ']' :: after ∧ left = ']' :: after) ∨
      more = true ∧ ∃ lead, IsLead first lead ∧ s = lead ++ left := by
  rw [nextElement] at read
  obtain ⟨blanks, t, blank, rfl, found⟩ := exists_of_peek read
  cases t with
  | nil => exact nomatch found
  | cons c t =>
    dsimp only [List.head?_cons] at found
    split at found
    next close =>
      cases found
      exact .inl ⟨rfl, blanks, t, blank, by rw [close], by rw [close]⟩
    split at found
    next isFirst =>
      cases found
      exact .inr ⟨rfl, blanks, isFirst ▸ .first blank, rfl⟩
    next notFirst =>
      split at found
      next comma =>
        rw [drop_bind] at found
        obtain ⟨more, t', blank', rfl, behind⟩ := exists_of_peek found
        cases t' with
        | nil => exact nomatch behind
        | cons d t' =>
          dsimp only [List.head?_cons] at behind
          split at behind
          · exact nomatch behind
          · cases behind
            refine .inr ⟨rfl, blanks ++ ',' :: more, (Bool.not_eq_true _ ▸ notFirst) ▸ .comma blank blank', ?_⟩
            rw [comma, List.append_assoc, List.cons_append]
      next => exact nomatch found

theorem exists_of_elementsFrom (own : item.Takes Form) {fuel index : Nat}
    (read : elementsFrom item fuel index s = .ok (xs, left)) :
    ∃ inner after, s = inner ++ after ∧ left = ']' :: after ∧ Items Form ']' (index == 0) inner := by
  -- One element takes one unit of fuel, whatever its length.
  induction fuel generalizing index s xs with
  | zero => exact nomatch read
  | succ fuel ih =>
    rw [elementsFrom] at read
    obtain ⟨more, t, next, behind⟩ := exists_of_bind read
    obtain ⟨rfl, blanks, after, blank, rfl, rfl⟩ | ⟨rfl, lead, leads, rfl⟩ := nextElement_cases next
    · cases behind
      exact ⟨blanks ++ [']'], after, by simp, rfl, .close blank⟩
    · obtain ⟨x, t', taken, behind⟩ := exists_of_bind behind
      obtain ⟨xs, t'', others, done⟩ := exists_of_bind behind
      cases done
      obtain ⟨blanks, used, blank, rfl, form, -⟩ := own _ _ _ (exists_of_within taken)
      obtain ⟨inner, after, rfl, rfl, items⟩ := ih others
      exact ⟨lead ++ blanks ++ (used ++ inner), after, by simp, rfl, .item (leads.append blank) form items⟩

theorem exists_of_list (own : item.Takes Form) (read : list item ('[' :: s) = .ok (xs, rest)) :
    ∃ inner, s = inner ++ rest ∧ Items Form ']' true inner := by
  rw [list, drop_bind, look_bind] at read
  obtain ⟨elements, left, taken, read⟩ := exists_of_bind read
  obtain ⟨inner, after, same, rfl, items⟩ := exists_of_elementsFrom own taken
  cases read
  exact ⟨inner, same, items⟩

end Lists

section Objects

variable {item : Reader α} {first : Bool} {left : List Char}

theorem exists_of_some_string {c : Char} {found : Option String} (quote : c = '"')
    (read : (some <$> string) (c :: t) = .ok (found, left)) :
    ∃ name, found = some name ∧ ∃ used, IsString used ∧ c :: t = used ++ left := by
  obtain ⟨name, taken, rfl⟩ := exists_of_map read
  rw [quote] at taken ⊢
  exact ⟨name, rfl, exists_of_string taken⟩

theorem nextName_cases {found : Option String} (read : nextName first s = .ok (found, left)) :
    (found = none ∧ ∃ blanks after, AllBlank blanks ∧ s = blanks ++ '\x7d' :: after ∧ left = '\x7d' :: after) ∨
      ∃ name, found = some name ∧ ∃ lead used, IsLead first lead ∧ IsString used ∧ s = lead ++ (used ++ left) := by
  obtain ⟨blanks, t, blank, rfl, here⟩ := exists_of_peek (exists_of_within read)
  cases t with
  | nil => exact nomatch here
  | cons c t =>
    dsimp only [List.head?_cons] at here
    split at here
    next close =>
      cases here
      exact .inl ⟨rfl, blanks, t, blank, by rw [close], by rw [close]⟩
    split at here
    next isFirst =>
      split at here
      next quote =>
        obtain ⟨name, rfl, used, form, same⟩ := exists_of_some_string quote here
        exact .inr ⟨name, rfl, blanks, used, isFirst ▸ .first blank, form, congrArg (blanks ++ ·) same⟩
      next => exact nomatch here
    next notFirst =>
      split at here
      next comma =>
        rw [drop_bind] at here
        obtain ⟨more, t', blank', rfl, behind⟩ := exists_of_peek here
        cases t' with
        | nil => exact nomatch behind
        | cons d t' =>
          dsimp only [List.head?_cons] at behind
          split at behind
          next quote =>
            obtain ⟨name, rfl, used, form, same⟩ := exists_of_some_string quote behind
            have leads : IsLead first (blanks ++ ',' :: more) := (Bool.not_eq_true _ ▸ notFirst) ▸ .comma blank blank'
            exact .inr ⟨name, rfl, _, used, leads, form, by rw [comma, same, List.append_assoc, List.cons_append]⟩
          next => split at behind <;> exact nomatch behind
      next => exact nomatch here

theorem exists_of_colon (read : colon s = .ok ((), left)) : ∃ before, AllBlank before ∧ s = before ++ ':' :: left := by
  rw [colon] at read
  obtain ⟨before, t, blank, rfl, found⟩ := exists_of_peek read
  cases t with
  | nil => exact nomatch found
  | cons c t =>
    dsimp only [List.head?_cons] at found
    split at found
    next isColon =>
      cases found
      exact ⟨before, blank, by rw [isColon]; rfl⟩
    next => exact nomatch found

theorem exists_of_memberValue (own : item.Takes Form) {name : String} {x : α}
    (read : memberValue name item s = .ok (x, rest)) :
    ∃ used, IsNamed Form used ∧ s = used ++ rest := by
  obtain ⟨_, t, taken, behind⟩ := exists_of_bind read
  obtain ⟨before, blankBefore, rfl⟩ := exists_of_colon taken
  obtain ⟨blanks, used, blank, rfl, form, -⟩ := own _ _ _ (exists_of_within behind)
  exact ⟨_, .mk blankBefore blank form, by simp⟩

theorem exists_of_membersFrom {step : β → String → Reader β}
    (own : ∀ {state name s next rest}, step state name s = .ok (next, rest) →
      ∃ used, IsNamed Form used ∧ s = used ++ rest)
    {fuel : Nat} {state out : β} (read : membersFrom step fuel first state s = .ok (out, left)) :
    ∃ inner after, s = inner ++ after ∧ left = '\x7d' :: after ∧ Items (IsMember Form) '\x7d' first inner := by
  induction fuel generalizing first s state with
  | zero => exact nomatch read
  | succ fuel ih =>
    rw [membersFrom] at read
    obtain ⟨found, t, next, behind⟩ := exists_of_bind read
    obtain ⟨rfl, blanks, after, blank, rfl, rfl⟩ | ⟨name, rfl, lead, used, leads, isString, rfl⟩ := nextName_cases next
    · cases behind
      exact ⟨blanks ++ ['\x7d'], after, by simp, rfl, .close blank⟩
    · obtain ⟨state', t', taken, others⟩ := exists_of_bind behind
      obtain ⟨named, form, rfl⟩ := own taken
      obtain ⟨inner, after, rfl, rfl, items⟩ := ih others
      exact ⟨lead ++ (used ++ named ++ inner), after, by simp, rfl, .item leads (.mk isString form) items⟩

theorem exists_of_fields (own : item.Takes Form) {entries : Fields α}
    (read : fields item ('\x7b' :: s) = .ok (entries, rest)) :
    ∃ inner, s = inner ++ rest ∧ Items (IsMember Form) '\x7d' true inner := by
  rw [fields, members, drop_bind, look_bind] at read
  obtain ⟨state, left, taken, behind⟩ := exists_of_bind read
  obtain ⟨inner, after, same, rfl, items⟩ := exists_of_membersFrom (fun read => by
    obtain ⟨x, t, value, done⟩ := exists_of_bind read
    cases done
    exact exists_of_memberValue own value) taken
  cases behind
  exact ⟨inner, same, items⟩

end Objects

/-- Whatever is read as a value is one of the grammar. -/
theorem takes_value (depth : Nat) : (value depth).Takes (IsValue IsNumber depth) := by
  induction depth with
  | zero => exact takes_valueWith (fun _ scalar => scalar) (fun _ _ _ => nofun) (fun _ _ _ => nofun)
  | succ depth ih =>
    refine takes_valueWith (fun _ scalar => .inl scalar) (fun s v rest read => ?_) (fun s v rest read => ?_)
    · obtain ⟨xs, taken, -⟩ := exists_of_map read
      obtain ⟨inner, same, items⟩ := exists_of_list ih taken
      exact ⟨inner, same, .inr (.inl (.mk items))⟩
    · obtain ⟨entries, taken, -⟩ := exists_of_map read
      obtain ⟨inner, same, items⟩ := exists_of_fields ih taken
      exact ⟨inner, same, .inr (.inr (.mk items))⟩

end Reader

end JsonAssist
