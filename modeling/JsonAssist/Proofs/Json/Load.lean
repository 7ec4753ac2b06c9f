import JsonAssist.Json.Reader
import JsonAssist.Proofs.Json.Equality

namespace JsonAssist

namespace Reader

variable {α β : Type} {P : α → Prop} {Q : β → Prop}

/-- What a reader hands back has a property, whatever the text. -/
def Yields (r : Reader α) (P : α → Prop) : Prop := ∀ s x rest, r s = .ok (x, rest) → P x

theorem yields_pure {x : α} (holds : P x) : Yields (pure x) P := by
  rintro s _ _ ⟨⟩
  exact holds

theorem yields_fail (cause : Cause) : Yields (fail cause) P := nofun

theorem yields_failPast (cause : Cause) : Yields (failPast cause) P := nofun

theorem Yields.bind {r : Reader α} {f : α → Reader β} (first : r.Yields P)
    (next : ∀ x, P x → (f x).Yields Q) : Yields (r >>= f) Q := by
  intro s y rest read
  cases taken : r s with
  | error e => simp [Bind.bind, taken] at read
  | ok done =>
    simp only [Bind.bind, taken] at read
    exact next done.1 (first s done.1 done.2 taken) done.2 y rest read

theorem yields_bind {r : Reader α} {f : α → Reader β} (next : ∀ x, (f x).Yields Q) :
    Yields (r >>= f) Q :=
  Yields.bind (P := fun _ => True) (fun _ _ _ _ => trivial) fun x _ => next x

theorem Yields.within {r : Reader α} (own : r.Yields P) (segment : Segment) : (within segment r).Yields P := by
  intro s x rest read
  rw [Reader.within] at read
  split at read
  next taken =>
    cases read
    exact own s x rest taken
  next => exact nomatch read

/-- Elements that are read one after the other have what each has. -/
theorem yields_elementsFrom {item : Reader α} (own : item.Yields P) (fuel index : Nat) :
    (elementsFrom item fuel index).Yields fun xs => ∀ x ∈ xs, P x := by
  induction fuel generalizing index with
  | zero => exact yields_fail _
  | succ fuel ih =>
    refine yields_bind fun more => ?_
    split
    · refine (own.within _).bind fun x holds => (ih (index + 1)).bind fun xs others => ?_
      exact yields_pure (List.forall_mem_cons.mpr ⟨holds, others⟩)
    · exact yields_pure (by simp)

theorem yields_list {item : Reader α} (own : item.Yields P) :
    (list item).Yields fun xs => ∀ x ∈ xs, P x := by
  refine yields_bind fun _ => yields_bind fun left => ?_
  exact (yields_elementsFrom own _ 0).bind fun xs holds => yields_bind fun _ => yields_pure holds

/-- What a member keeps, all members keep. -/
theorem yields_membersFrom {step : β → String → Reader β}
    (kept : ∀ state name, Q state → (step state name).Yields Q) (fuel : Nat) (first : Bool) {state : β}
    (start : Q state) : (membersFrom step fuel first state).Yields Q := by
  induction fuel generalizing first state with
  | zero => exact yields_fail _
  | succ fuel ih =>
    refine yields_bind fun name => ?_
    cases name with
    | none => exact yields_pure start
    | some name => exact (kept state name start).bind fun next holds => ih false holds

theorem yields_members {step : β → String → Reader β}
    (kept : ∀ state name, Q state → (step state name).Yields Q) {start : β} (holds : Q start) :
    (members step start).Yields Q := by
  refine yields_bind fun _ => yields_bind fun left => ?_
  exact (yields_membersFrom kept _ true holds).bind fun state done => yields_bind fun _ => yields_pure done

/-- The fields of an object have different names, for a later one replaces an earlier one. -/
theorem yields_fields {item : Reader α} (own : item.Yields P) :
    (fields item).Yields fun entries => (Fields.names entries).Nodup ∧ ∀ entry ∈ entries, P entry.2 := by
  refine yields_members (fun entries name ⟨names, holds⟩ => ?_) ⟨List.nodup_nil, by simp⟩
  refine (yields_bind fun _ => own.within _).bind fun x new => yields_pure ⟨?_, ?_⟩
  · exact Fields.nodup_names_insert names name x
  · intro entry member
    rcases Fields.mem_insert member with old | rfl
    · exact holds entry old
    · exact new

theorem Yields.map {r : Reader α} {f : α → β} (own : r.Yields P) (next : ∀ x, P x → Q (f x)) :
    Yields (f <$> r) Q :=
  own.bind fun x holds => yields_pure (next x holds)

theorem yields_map {r : Reader α} {f : α → β} (next : ∀ x, Q (f x)) : Yields (f <$> r) Q :=
  yields_bind fun x => yields_pure (next x)

/-- What all scalars have is had by every value if lists and objects have it. -/
theorem yields_valueWith {P : Value → Prop} {onList onObject : Reader Value} (null : P .null)
    (boolean : ∀ b, P (.boolean b)) (string : ∀ s, P (.string s))
    (number : ∀ negative, (number negative).Yields fun n => P (.number n)) (list : onList.Yields P)
    (object : onObject.Yields P) : (valueWith onList onObject).Yields P := by
  refine yields_bind fun next => ?_
  cases next with
  | none => exact yields_fail _
  | some c =>
    dsimp only
    split
    · exact yields_bind fun _ => yields_bind fun _ => yields_pure null
    split
    · exact yields_bind fun _ => yields_bind fun _ => yields_pure (boolean _)
    split
    · exact yields_bind fun _ => yields_bind fun _ => yields_pure (boolean _)
    split
    · exact yields_bind fun _ => (number true).map fun _ holds => holds
    split
    · exact (number false).map fun _ holds => holds
    split
    · exact yields_map string
    split
    · exact list
    split
    · exact object
    · exact yields_failPast _

/-- No object in a value that is read writes a name twice. -/
theorem yields_value (depth : Nat) : (value depth).Yields Value.NamesDistinct := by
  have number (negative : Bool) : (number negative).Yields fun n => (Value.number n).NamesDistinct :=
    fun _ n _ _ => .number n
  induction depth with
  | zero => exact yields_valueWith .null .boolean .string number (yields_failPast _) (yields_failPast _)
  | succ depth ih =>
    refine yields_valueWith .null .boolean .string number ((yields_list ih).map fun xs => .array) ?_
    exact (yields_fields ih).map fun ms ⟨names, members⟩ => .object names members

theorem exists_of_load {r : Reader α} {source : String} {x : α} (loaded : load r source = .ok x) :
    ∃ rest, r source.toList = .ok (x, rest) := by
  rw [load] at loaded
  split at loaded
  next y rest read => exact ⟨rest, Except.ok.inj loaded ▸ read⟩
  next => exact nomatch loaded

theorem Yields.of_load {r : Reader α} (own : r.Yields P) {source : String} {x : α} (loaded : load r source = .ok x) :
    P x := by
  obtain ⟨rest, read⟩ := exists_of_load loaded
  exact own _ x rest read

end Reader

theorem Value.namesDistinct_of_load {text : String} {v : Value} (loaded : Value.load text = .ok v) :
    v.NamesDistinct := (Reader.yields_value _).of_load loaded

end JsonAssist
