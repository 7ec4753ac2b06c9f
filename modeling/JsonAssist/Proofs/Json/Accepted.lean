import JsonAssist.Proofs.Json.Taken
import JsonAssist.Proofs.Json.WrittenValue

namespace JsonAssist

namespace Reader

open Grammar

variable {α β : Type} {may : Prop} {Form IsNumeric P : List Char → Prop} {s rest : List Char}

section Scalars

variable {onList onObject : Reader Value}

theorem covers_scalar (numeric : ∀ s, IsNumeric s → may ∧ IsNumber s ∨ InRange s) (scalar : IsScalar IsNumeric s) :
    (valueWith onList onObject).Covers may s (Apart s) := by
  cases scalar with
  | null => exact .inl ⟨.null, fun _ _ => rfl⟩
  | true => exact .inl ⟨.boolean true, fun _ _ => rfl⟩
  | false => exact .inl ⟨.boolean false, fun _ _ => rfl⟩
  | number isNumber =>
    rcases numeric s isNumber with ⟨granted, ⟨numeral⟩ | ⟨numeral⟩⟩ |
      ⟨isSign, isWhole, fractional, form, counted, bound⟩
    · cases numeral with
      | mk isWhole fractional form => exact covers_parts (.inl rfl) isWhole fractional form (.inl granted)
    · cases numeral with
      | mk isWhole fractional form => exact covers_parts (.inr rfl) isWhole fractional form (.inl granted)
    · exact covers_parts isSign isWhole fractional form (.inr ⟨counted, bound⟩)
  | string isString =>
    obtain ⟨name, read⟩ := exists_string isString
    cases isString
    exact .inl ⟨.string name, fun rest _ => map_apply (read rest)⟩

end Scalars

section Items

variable {item : Reader α} {first : Bool} {closer : Char} {inner : List Char}

/-- With fuel for its length, the text up to its closer is read as one and the same, whatever follows, or a number in
it is out of range, if that may be at all. -/
def CoversTo (closer : Char) (may : Prop) (r : (fuel : Nat) → Reader α) (s : List Char) : Prop :=
  (∃ x, ∀ fuel, s.length < fuel → ∀ rest, r fuel (s ++ rest) = .ok (x, closer :: rest)) ∨
    may ∧ ∀ fuel, s.length < fuel → ∀ rest, (r fuel).StopsFor .numberOutOfRange (s ++ rest)

theorem ends_items (items : Items Form closer false s) (ends : Ends (closer :: rest)) : Ends (s ++ rest) := by
  cases items with
  | close blank =>
    rw [List.append_assoc]
    exact ends_blanks blank ends
  | item leads =>
    cases leads with
    | comma blankBefore blank =>
      rw [List.append_assoc, List.append_assoc]
      exact ends_blanks blankBefore (by simp [Ends])

theorem CoversTo.map {r : (fuel : Nat) → Reader α} (covers : CoversTo closer may r s) (f : α → β) :
    CoversTo closer may (fun fuel => f <$> r fuel) s :=
  covers.imp (fun ⟨x, read⟩ => ⟨f x, fun fuel enough rest => map_apply (read fuel enough rest)⟩)
    fun ⟨granted, stops⟩ => ⟨granted, fun fuel enough rest => (stops fuel enough rest).bind _⟩

/-- An item and what stands behind it: the fuel for all is enough for either. -/
theorem CoversTo.of_bind {q : Reader β} {next : β → (fuel : Nat) → Reader α} {r : (fuel : Nat) → Reader α}
    {lead : List Char} (any : s ≠ []) (own : q.Covers may s Ends) (ends : ∀ rest, Ends (inner ++ rest))
    (others : ∀ x, CoversTo closer may (next x) inner)
    (same : ∀ fuel rest, r (fuel + 1) (lead ++ (s ++ inner) ++ rest) = (q >>= (next · fuel)) (s ++ (inner ++ rest))) :
    CoversTo closer may r (lead ++ (s ++ inner)) := by
  have less {fuel : Nat} (enough : (lead ++ (s ++ inner)).length < fuel) :
      ∃ more, fuel = more + 1 ∧ inner.length < more := by
    have := List.length_pos_iff.mpr any
    rw [List.length_append, List.length_append] at enough
    exact ⟨fuel - 1, by omega, by omega⟩
  rcases own with ⟨x, read⟩ | ⟨granted, stops⟩
  · rcases others x with ⟨y, readOthers⟩ | ⟨granted, stopsOthers⟩
    · refine .inl ⟨y, fun fuel enough rest => ?_⟩
      obtain ⟨more, rfl, left⟩ := less enough
      rw [same, bind_apply (read _ (ends rest))]
      exact readOthers more left rest
    · refine .inr ⟨granted, fun fuel enough rest => ?_⟩
      obtain ⟨more, rfl, left⟩ := less enough
      rw [StopsFor, same]
      exact stopsFor_bind (read _ (ends rest)) (stopsOthers more left rest)
  · refine .inr ⟨granted, fun fuel enough rest => ?_⟩
    obtain ⟨more, rfl, -⟩ := less enough
    rw [StopsFor, same]
    exact (stops _ (ends rest)).bind _

theorem coversTo_elements (own : ∀ s, Form s → item.Covers may s Ends ∧ Begins s) (items : Items Form ']' first inner)
    (index : Nat) (place : (index == 0) = first) : CoversTo ']' may (elementsFrom item · index) inner := by
  induction items generalizing index with
  | close blank =>
    refine .inl ⟨[], fun fuel enough rest => ?_⟩
    obtain ⟨more, rfl⟩ := Nat.exists_eq_add_of_lt enough
    rw [List.append_assoc]
    exact elementsFrom_end blank _ index
  | @item first lead s inner leads form others ih =>
    obtain ⟨covers, begins⟩ := own s form
    have any : s ≠ [] := by
      obtain ⟨c, t, rfl, -⟩ := begins
      exact List.cons_ne_nil c t
    refine .of_bind any (covers.within (.index index)) (fun rest => ends_items others (by simp [Ends]))
      (fun x => (ih (index + 1) rfl).map (x :: ·)) fun fuel rest => elementsFrom_next place ?_
    rw [List.append_assoc, List.append_assoc]
    exact nextElement_lead leads (begins.append _)

theorem coversTo_members {step : β → String → Reader β}
    (own : ∀ s, IsNamed Form s → ∀ state name, (step state name).Covers may s Ends)
    (items : Items (IsMember Form) '\x7d' first inner) (state : β) :
    CoversTo '\x7d' may (membersFrom step · first state) inner := by
  induction items generalizing state with
  | close blank =>
    refine .inl ⟨state, fun fuel enough rest => ?_⟩
    obtain ⟨more, rfl⟩ := Nat.exists_eq_add_of_lt enough
    rw [List.append_assoc]
    exact membersFrom_end blank _ _
  | @item first lead s inner leads form others ih =>
    cases form with
    | @mk text named isString form =>
      obtain ⟨name, read⟩ := exists_string isString
      have any : named ≠ [] := by
        cases form
        simp
      -- The name belongs to what leads up to the value.
      have split : lead ++ (text ++ named ++ inner) = lead ++ text ++ (named ++ inner) := by simp
      rw [split]
      refine .of_bind any (own named form state name) (fun rest => ends_items others (by simp [Ends])) ih
        fun fuel rest => membersFrom_next ?_
      have read := read (named ++ (inner ++ rest))
      rw [List.append_assoc, List.append_assoc, List.append_assoc]
      cases isString
      exact nextName_lead leads read

/-- A list and an object begin with fuel that is enough for what stands in them. -/
theorem CoversTo.covers {r : (fuel : Nat) → Reader α} {q : Reader β} {f : α → Reader β} {g : α → β} {opener : Char}
    (covers : CoversTo closer may r inner) (opens : ∀ t, q (opener :: t) = (r (t.length + 1) >>= f) t)
    (closes : ∀ x rest, f x (closer :: rest) = .ok (g x, rest)) : q.Covers may (opener :: inner) P := by
  have enough (rest : List Char) : inner.length < (inner ++ rest).length + 1 := by
    rw [List.length_append]
    omega
  rcases covers with ⟨x, read⟩ | ⟨granted, stops⟩
  · refine .inl ⟨g x, fun rest _ => ?_⟩
    rw [List.cons_append, opens, bind_apply (read _ (enough rest) rest), closes]
  · refine .inr ⟨granted, fun rest _ => ?_⟩
    rw [List.cons_append, StopsFor, opens]
    exact (stops _ (enough rest) rest).bind f

theorem covers_list (own : ∀ s, Form s → item.Covers may s Ends ∧ Begins s) (items : Items Form ']' true inner) :
    (list item).Covers may ('[' :: inner) P :=
  (coversTo_elements own items 0 rfl).covers (fun _ => rfl) fun _ _ => rfl

theorem colon_apply {before : List Char} (blank : AllBlank before) (s : List Char) :
    colon (before ++ ':' :: s) = .ok ((), s) := by
  rw [colon, peek_bind_blanks blank]
  rfl

/-- Blanks in front of a value make no difference. -/
theorem value_blanks (depth : Nat) {blanks : List Char} (blank : AllBlank blanks) (s : List Char) :
    value depth (blanks ++ s) = value depth s := by
  cases depth <;> exact peek_bind_blanks blank _ s

theorem covers_named {depth : Nat} (own : ∀ s, Form s → (value depth).Covers may s P) (form : IsNamed Form s)
    (name : String) : (memberValue name (value depth)).Covers may s P := by
  cases form with
  | @mk before blanks v blankBefore blank form =>
    refine ((own v form).within (.key name)).of_eq fun rest _ => ?_
    rw [List.append_assoc, List.cons_append, List.append_assoc, memberValue, bind_apply (colon_apply blankBefore _)]
    simp only [within, value_blanks depth blank]

theorem covers_fields {depth : Nat} (own : ∀ s, Form s → (value depth).Covers may s Ends)
    (items : Items (IsMember Form) '\x7d' true inner) : (fields (value depth)).Covers may ('\x7b' :: inner) P := by
  have each (s : List Char) (form : IsNamed Form s) (entries : Fields Value) (name : String) :=
    (covers_named own form name).map fun x => Fields.insert entries name x
  exact (coversTo_members each items []).covers (fun _ => rfl) fun _ _ => rfl

end Items

section Values

variable {depth : Nat}

theorem begins_of_isValue (numeric : ∀ s, IsNumeric s → IsNumber s) (form : IsValue IsNumeric depth s) : Begins s := by
  have scalar (form : IsScalar IsNumeric s) : Begins s := by
    cases form with
    | null | true | false => exact ⟨_, _, rfl, rfl, by decide⟩
    | number isNumber =>
      cases numeric s isNumber with
      | positive form => exact begins_of_numeral form
      | negative => exact ⟨_, _, rfl, rfl, by decide⟩
    | string isString =>
      cases isString
      exact ⟨_, _, rfl, rfl, by decide⟩
  cases depth with
  | zero => exact scalar form
  | succ depth =>
    rcases form with form | form | form
    · exact scalar form
    · cases form
      exact ⟨_, _, rfl, rfl, by decide⟩
    · cases form
      exact ⟨_, _, rfl, rfl, by decide⟩

/-- Every value of the grammar is read, unless a number in it is out of range. -/
theorem covers_value (numeric : ∀ s, IsNumeric s → may ∧ IsNumber s ∨ InRange s) (form : IsValue IsNumeric depth s) :
    (value depth).Covers may s (Apart s) := by
  have isNumber (s : List Char) (own : IsNumeric s) : IsNumber s := (numeric s own).elim And.right InRange.isNumber
  induction depth generalizing s with
  | zero => exact covers_scalar numeric form
  | succ depth ih =>
    have own (s : List Char) (form : IsValue IsNumeric depth s) : (value depth).Covers may s Ends :=
      (ih form).mono fun rest ends => apart_of_ends ends s
    rcases form with scalar | array | object
    · exact covers_scalar numeric scalar
    · cases array with
      | mk items =>
        refine ((covers_list (fun s form => ?_) items).map Value.array).of_eq fun rest _ => rfl
        exact ⟨own s form, begins_of_isValue isNumber form⟩
    · cases object with
      | mk items => exact ((covers_fields own items).map Value.object).of_eq fun rest _ => rfl

theorem ends_of_allBlank (blank : AllBlank rest) : Ends rest := by
  rw [← List.append_nil rest]
  exact ends_blanks blank trivial

/-- A value is read as it is read alone, with blanks in front and what does not belong to it behind, or else neither is
read. -/
theorem outcome_of_isValue {front body : List Char} (blank : AllBlank front) (isValue : IsValue IsNumber depth body)
    (apart : Apart body rest) :
    (∃ v, value depth (front ++ (body ++ rest)) = .ok (v, rest) ∧ value depth body = .ok (v, [])) ∨
      (value depth).StopsFor .numberOutOfRange (front ++ (body ++ rest)) ∧
        (value depth).StopsFor .numberOutOfRange body := by
  have skipped := value_blanks depth blank (body ++ rest)
  have atEnd : Apart body [] := fun _ => nofun
  have covers : (value depth).Covers True body (Apart body) :=
    covers_value (fun _ number => .inl ⟨trivial, number⟩) isValue
  rcases covers with ⟨v, own⟩ | ⟨-, stops⟩
  · have alone := own [] atEnd
    rw [List.append_nil] at alone
    exact .inl ⟨v, skipped.trans (own rest apart), alone⟩
  · have alone := stops [] atEnd
    rw [List.append_nil] at alone
    refine .inr ⟨?_, alone⟩
    rw [StopsFor, skipped]
    exact stops rest apart

theorem outcome_of_beginsWith {body : List Char} (begins : BeginsWith body s) :
    (∃ v rest, value nestingLimit s = .ok (v, rest) ∧ value nestingLimit body = .ok (v, [])) ∨
      (value nestingLimit).StopsFor .numberOutOfRange s ∧ (value nestingLimit).StopsFor .numberOutOfRange body := by
  cases begins with
  | @mk front rest blank isValue apart =>
    exact (outcome_of_isValue blank isValue apart).imp_left fun ⟨v, read⟩ => ⟨v, rest, read⟩

/-- A value is read if its numbers are in range. -/
theorem exists_of_inRange {body : List Char} (begins : BeginsWith body s)
    (inRange : IsValue InRange nestingLimit body) : ∃ v rest, value nestingLimit s = .ok (v, rest) := by
  cases begins with
  | @mk front rest blank _ apart =>
    have covers : (value nestingLimit).Covers False body (Apart body) := covers_value (fun _ own => .inr own) inRange
    obtain ⟨v, own⟩ := covers.resolve_right And.left
    exact ⟨v, rest, (value_blanks nestingLimit blank (body ++ rest)).trans (own rest apart)⟩

/-- A text that is read is a document exactly if only blanks are left behind its value. -/
theorem isDocument_iff {v : Value} (read : value nestingLimit s = .ok (v, rest)) : IsDocument s ↔ AllBlank rest := by
  constructor
  · rintro (@⟨front, body, back, blankFront, isValue, blankBack⟩)
    have apart := apart_of_ends (ends_of_allBlank blankBack) body
    rcases outcome_of_isValue blankFront isValue apart with ⟨v', own, -⟩ | ⟨⟨e, stopped, -⟩, -⟩
    · cases read.symm.trans own
      exact blankBack
    · exact nomatch read.symm.trans stopped
  · intro blankBack
    obtain ⟨front, body, blankFront, rfl, isValue, -⟩ := takes_value _ _ _ _ read
    exact .mk blankFront isValue blankBack

end Values

end Reader

namespace Value

open Grammar Reader

/-- A text loads if it begins with a value that loads, as that value and in no other case: what follows the value is
not looked at. If a text begins with a value it loads unless a number is out of range, and it does load if each number
in it is in range: up to the safe size, which is two units in the last place below the largest number there is. -/
theorem load_eq_ok_iff_beginsWith (text : String) :
    (∀ v, load text = .ok v ↔ ∃ body, BeginsWith body text.toList ∧ load (String.ofList body) = .ok v) ∧
      ∀ body, BeginsWith body text.toList →
        ((∃ v, load text = .ok v) ∨ ∃ e, load text = .error e ∧ e.cause = .numberOutOfRange) ∧
          (IsValue InRange nestingLimit body → ∃ v, load text = .ok v) := by
  refine ⟨fun v => ⟨fun loaded => ?_, fun ⟨body, begins, own⟩ => ?_⟩, fun body begins => ⟨?_, fun inRange => ?_⟩⟩
  · obtain ⟨rest, read⟩ := exists_of_load loaded
    obtain ⟨front, body, blank, same, isValue, apart⟩ := takes_value _ _ _ _ read
    have begins : BeginsWith body text.toList := same ▸ .mk blank isValue apart
    rcases outcome_of_beginsWith begins with ⟨v', rest', read', alone⟩ | ⟨⟨e, stopped, -⟩, -⟩
    · cases read.symm.trans read'
      exact ⟨body, begins, load_of_apply (by rwa [String.toList_ofList])⟩
    · exact nomatch read.symm.trans stopped
  · obtain ⟨left, alone⟩ := exists_of_load own
    rw [String.toList_ofList] at alone
    rcases outcome_of_beginsWith begins with ⟨v', rest, read, alone'⟩ | ⟨-, e, stopped, -⟩
    · cases alone.symm.trans alone'
      exact load_of_apply read
    · exact nomatch alone.symm.trans stopped
  · rcases outcome_of_beginsWith begins with ⟨v, rest, read, -⟩ | ⟨stops, -⟩
    · exact .inl ⟨v, load_of_apply read⟩
    · exact .inr stops.load
  · obtain ⟨v, rest, read⟩ := exists_of_inRange begins inRange
    exact ⟨v, load_of_apply read⟩

/-- A text that loads need not be a document, for other text may follow its value. -/
theorem not_isDocument_of_load : ¬∀ text v, load text = .ok v → IsDocument text.toList := by
  intro whole
  have read : value nestingLimit "null x".toList = .ok (.null, [' ', 'x']) := rfl
  have blank := (isDocument_iff read).mp (whole "null x" .null (load_of_apply read))
  exact absurd (blank 'x' (by decide)) (by decide)

end Value

end JsonAssist
