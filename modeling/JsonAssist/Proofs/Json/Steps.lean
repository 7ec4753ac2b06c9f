import Mathlib.Data.List.TakeWhile
import JsonAssist.Json.Reader

namespace JsonAssist.Reader

variable {α β : Type} {r : Reader α} {f : α → Reader β} {s rest : List Char} {x : α}

@[simp] theorem pure_apply (x : α) (s : List Char) : (pure x : Reader α) s = .ok (x, s) := rfl

theorem bind_apply (read : r s = .ok (x, rest)) : (r >>= f) s = f x rest := by
  simp only [bind, read]

@[simp] theorem look_bind (f : List Char → Reader β) (s : List Char) : (look >>= f) s = f s s := rfl

@[simp] theorem moveTo_bind (rest : List Char) (f : Unit → Reader β) (s : List Char) :
    (moveTo rest >>= f) s = f () rest := rfl

@[simp] theorem drop_bind (f : Unit → Reader β) (c : Char) (s : List Char) :
    (drop >>= f) (c :: s) = f () s := rfl

/-- A reader that read something goes on with it. -/
theorem exists_of_bind {y : β} {left : List Char} (read : (r >>= f) s = .ok (y, left)) :
    ∃ x rest, r s = .ok (x, rest) ∧ f x rest = .ok (y, left) := by
  cases taken : r s with
  | error e => simp [bind, taken] at read
  | ok done => exact ⟨done.1, done.2, rfl, by simpa only [bind, taken] using read⟩

theorem map_apply {g : α → β} (read : r s = .ok (x, rest)) : (g <$> r) s = .ok (g x, rest) :=
  bind_apply read

theorem exists_of_map {g : α → β} {y : β} {left : List Char} (read : (g <$> r) s = .ok (y, left)) :
    ∃ x, r s = .ok (x, left) ∧ g x = y := by
  obtain ⟨x, rest, taken, same⟩ := exists_of_bind read
  obtain ⟨rfl, rfl⟩ := Prod.mk.inj (Except.ok.inj same)
  exact ⟨x, taken, rfl⟩

theorem within_apply {segment : Segment} (read : r s = .ok (x, rest)) : within segment r s = .ok (x, rest) := by
  rw [within, read]

theorem exists_of_within {segment : Segment} (read : within segment r s = .ok (x, rest)) : r s = .ok (x, rest) := by
  rw [within] at read
  split at read
  next done taken => rw [taken, read]
  next => exact nomatch read

section Stops

variable {cause : Cause}

/-- The reader stops on the text, for the cause. -/
def StopsFor (cause : Cause) (r : Reader α) (s : List Char) : Prop := ∃ e, r s = .error e ∧ e.cause = cause

theorem StopsFor.bind (stops : r.StopsFor cause s) (f : α → Reader β) : (r >>= f).StopsFor cause s := by
  obtain ⟨e, stopped, same⟩ := stops
  exact ⟨e, by simp only [Bind.bind, stopped], same⟩

theorem stopsFor_bind (read : r s = .ok (x, rest)) (stops : (f x).StopsFor cause rest) :
    (r >>= f).StopsFor cause s := by
  rwa [StopsFor, bind_apply read]

theorem StopsFor.within (stops : r.StopsFor cause s) (segment : Segment) : (within segment r).StopsFor cause s := by
  obtain ⟨e, stopped, same⟩ := stops
  exact ⟨{ e with path := segment :: e.path }, by rw [Reader.within, stopped], same⟩

theorem StopsFor.load {source : String} (stops : r.StopsFor cause source.toList) :
    ∃ e, load r source = .error e ∧ e.cause = cause := by
  obtain ⟨e, stopped, same⟩ := stops
  exact ⟨_, by rw [Reader.load, stopped], same⟩

end Stops

section Covers

variable {t : List Char} {may : Prop} {P Q : List Char → Prop}

/-- The reader takes the text off the front and reads it as one and the same, whatever follows, as long as that has
the property `P`; or a number in it is out of range, whatever follows, if that may be at all. -/
def Covers (r : Reader α) (may : Prop) (s : List Char) (P : List Char → Prop) : Prop :=
  (∃ x, ∀ rest, P rest → r (s ++ rest) = .ok (x, rest)) ∨
    may ∧ ∀ rest, P rest → r.StopsFor .numberOutOfRange (s ++ rest)

theorem Covers.mono (covers : r.Covers may s P) (weaker : ∀ rest, Q rest → P rest) : r.Covers may s Q :=
  covers.imp (fun ⟨x, read⟩ => ⟨x, fun rest holds => read rest (weaker rest holds)⟩)
    fun ⟨granted, stops⟩ => ⟨granted, fun rest holds => stops rest (weaker rest holds)⟩

/-- A reader that goes on as another one on the text. -/
theorem Covers.of_eq {r' : Reader α} (covers : r'.Covers may t P)
    (same : ∀ rest, P rest → r (s ++ rest) = r' (t ++ rest)) : r.Covers may s P :=
  covers.imp (fun ⟨x, read⟩ => ⟨x, fun rest holds => (same rest holds).trans (read rest holds)⟩)
    fun ⟨granted, stops⟩ => ⟨granted, fun rest holds => by rw [StopsFor, same rest holds]; exact stops rest holds⟩

theorem Covers.bind (covers : r.Covers may s P) (next : ∀ x, (f x).Covers may t Q)
    (leads : ∀ rest, Q rest → P (t ++ rest)) : (r >>= f).Covers may (s ++ t) Q := by
  rcases covers with ⟨x, read⟩ | ⟨granted, stops⟩
  · refine (next x).of_eq fun rest holds => ?_
    rw [List.append_assoc, bind_apply (read _ (leads rest holds))]
  · refine Or.inr ⟨granted, fun rest holds => ?_⟩
    rw [List.append_assoc]
    exact (stops _ (leads rest holds)).bind f

theorem covers_pure (x : α) : (pure x : Reader α).Covers may [] P := Or.inl ⟨x, fun _ _ => rfl⟩

theorem Covers.map (covers : r.Covers may s P) (g : α → β) : (g <$> r).Covers may s P := by
  have mapped := covers.bind (f := fun x => pure (g x)) (fun x => covers_pure (P := P) (g x)) fun _ holds => holds
  rwa [List.append_nil] at mapped

theorem Covers.within (covers : r.Covers may s P) (segment : Segment) : (within segment r).Covers may s P :=
  covers.imp (fun ⟨x, read⟩ => ⟨x, fun rest holds => within_apply (read rest holds)⟩)
    fun ⟨granted, stops⟩ => ⟨granted, fun rest holds => (stops rest holds).within segment⟩

end Covers

section Blanks

variable {blanks : List Char} {c : Char}

def AllBlank (s : List Char) : Prop := ∀ c ∈ s, isBlank c

def AllDigits (s : List Char) : Prop := ∀ c ∈ s, c.isDigit

/-- Blanks in front of the text make no difference to a reader that looks for the next character. -/
theorem peek_bind_blanks (blank : AllBlank blanks) (f : Option Char → Reader β) (s : List Char) :
    (peek >>= f) (blanks ++ s) = (peek >>= f) s := by
  have same : peek (blanks ++ s) = peek s := by rw [peek, peek, List.dropWhile_append_of_pos blank]
  simp only [bind, same]

theorem peek_bind_cons (f : Option Char → Reader β) (s : List Char) (notBlank : isBlank c = false) :
    (peek >>= f) (c :: s) = f (some c) (c :: s) := by
  have found : peek (c :: s) = .ok (some c, c :: s) := by
    rw [peek, List.dropWhile_cons_of_neg (by simp [notBlank])]
    rfl
  exact bind_apply found

theorem allBlank_nil : AllBlank [] := by simp [AllBlank]

theorem AllBlank.append {more : List Char} (blank : AllBlank blanks) (others : AllBlank more) :
    AllBlank (blanks ++ more) := List.forall_mem_append.mpr ⟨blank, others⟩

/-- A reader that looks for the next character and reads something goes on with it behind blanks. -/
theorem exists_of_peek {f : Option Char → Reader β} {y : β} {left : List Char}
    (read : (peek >>= f) s = .ok (y, left)) :
    ∃ blanks t, AllBlank blanks ∧ s = blanks ++ t ∧ f t.head? t = .ok (y, left) :=
  ⟨s.takeWhile isBlank, s.dropWhile isBlank, fun _ => List.mem_takeWhile_imp, List.takeWhile_append_dropWhile.symm,
    read⟩

end Blanks

end JsonAssist.Reader
