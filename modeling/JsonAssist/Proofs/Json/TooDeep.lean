import JsonAssist.Proofs.Json.WrittenValue

namespace JsonAssist

namespace Reader

variable {α β : Type}

/-- The reader stops on the text because lists and objects nest too deep, whatever follows. -/
def TooDeep (r : Reader α) (s : List Char) : Prop := ∀ rest, r.StopsFor .tooDeep (s ++ rest)

section Steps

variable {r : Reader α} {s : List Char}

theorem TooDeep.map (deep : r.TooDeep s) (f : α → β) : (f <$> r).TooDeep s := fun rest => (deep rest).bind _

theorem TooDeep.of_eq {r' : Reader α} (deep : r'.TooDeep s) (same : ∀ rest, r (s ++ rest) = r' (s ++ rest)) :
    r.TooDeep s := fun rest => by
  rw [StopsFor, same]
  exact deep rest

end Steps

section Elements

variable {L : Layout} {item : Reader α} {f : Value → α} {xs : List Value} {Admits : Number → Prop} {level depth : Nat}

/-- Behind elements that are read stands one that nests too deep. -/
inductive ElementsBreak (L : Layout) (item : Reader α) (level : Nat) : List Value → Prop
  | here {x : Value} {xs : List Value} (own : item.TooDeep (L.text (level + 1) x)) :
      ElementsBreak L item level (x :: xs)
  | later {x : Value} {y : α} {xs : List Value} (own : item.Reads (L.text (level + 1) x) y)
      (others : ElementsBreak L item level xs) : ElementsBreak L item level (x :: xs)

theorem elementsBreak_of (reads : ∀ x ∈ xs, x.Fits Admits depth → item.Reads (L.text (level + 1) x) (f x))
    (stops : ∀ x ∈ xs, ¬ x.Fits Admits depth → item.TooDeep (L.text (level + 1) x))
    (deep : ¬ ∀ x ∈ xs, x.Fits Admits depth) :
    ElementsBreak L item level xs := by
  induction xs with
  | nil => exact absurd nofun deep
  | cons x xs ih =>
    obtain ⟨first, others⟩ := List.forall_mem_cons.mp reads
    obtain ⟨stopsFirst, stopsOthers⟩ := List.forall_mem_cons.mp stops
    by_cases fits : x.Fits Admits depth
    · exact .later (first fits) (ih others stopsOthers fun inside => deep (List.forall_mem_cons.mpr ⟨fits, inside⟩))
    · exact .here (stopsFirst fits)

section

variable {s left rest : List Char} {x : α} {fuel index : Nat} {first : Bool}

theorem stopsDeep_elementsFrom_here (place : (index == 0) = first) (more : nextElement first s = .ok (true, left))
    (own : item.StopsFor .tooDeep left) : (elementsFrom item (fuel + 1) index).StopsFor .tooDeep s := by
  rw [StopsFor, elementsFrom_next place more]
  exact (own.within _).bind _

theorem stopsDeep_elementsFrom_later (place : (index == 0) = first) (more : nextElement first s = .ok (true, left))
    (own : item left = .ok (x, rest)) (others : (elementsFrom item fuel (index + 1)).StopsFor .tooDeep rest) :
    (elementsFrom item (fuel + 1) index).StopsFor .tooDeep s := by
  rw [StopsFor, elementsFrom_next place more]
  exact stopsFor_bind (within_apply own) (others.bind _)

end

theorem ElementsBreak.stopsDeep (breaks : ElementsBreak L item level xs) {fuel : Nat} (enough : xs.length < fuel)
    (index : Nat) (rest : List Char) : (elementsFrom item fuel (index + 1)).StopsFor .tooDeep
      (behind (L.gap (level + 1)) (L.text (level + 1)) xs ++ (L.gap level ++ ']' :: rest)) := by
  have behind (index : Nat) : (index + 1 == 0) = false := beq_false_of_ne (Nat.succ_ne_zero index)
  have comma (x : Value) (after : List Char) :=
    nextElement_comma (L.blank (level + 1)) ((L.begins (level + 1) x).append after)
  induction breaks generalizing fuel index with
  | @here x xs own =>
    obtain ⟨more, rfl⟩ := Nat.exists_eq_add_of_lt enough
    rw [behind_cons]
    exact stopsDeep_elementsFrom_here (behind index) (comma x _) (own _)
  | @later x _ xs own others ih =>
    obtain ⟨more, rfl⟩ := Nat.exists_eq_add_of_lt enough
    rw [behind_cons]
    exact stopsDeep_elementsFrom_later (behind index) (comma x _) (own _ (L.ends_elements xs _))
      (ih (Nat.lt_of_succ_lt_succ enough) (index + 1))

theorem ElementsBreak.tooDeep (breaks : ElementsBreak L item level xs) :
    (list item).TooDeep (L.text level (.array xs)) := by
  intro rest
  cases xs with
  | nil => cases breaks
  | cons x xs =>
    have start (after : List Char) :=
      nextElement_first (L.blank (level + 1)) ((L.begins (level + 1) x).append after)
    rw [L.array, enclosed_cons, StopsFor, list, drop_bind, look_bind]
    refine StopsFor.bind (r := elementsFrom item _ 0) ?_ _
    cases breaks with
    | here own => exact stopsDeep_elementsFrom_here (beq_self_eq_true 0) (start _) (own _)
    | later own others =>
      refine stopsDeep_elementsFrom_later (beq_self_eq_true 0) (start _) (own _ (L.ends_elements xs _))
        (others.stopsDeep ?_ 0 rest)
      have := length_le_behind (L.gap (level + 1)) (L.text (level + 1)) xs
      simp only [List.length_append, List.length_cons]
      omega

end Elements

section Members

variable {L : Layout} {step : β → String → Reader β} {state : β} {item : Reader α} {level depth : Nat}
variable {ms : List (String × Value)}

/-- Behind members that are read stands one whose value nests too deep. -/
inductive MembersBreak (L : Layout) (step : β → String → Reader β) (level : Nat) :
    β → List (String × Value) → Prop
  | here {state : β} {name : String} {v : Value} {ms : List (String × Value)}
      (own : (step state name).TooDeep (L.memberText (level + 1) v)) :
      MembersBreak L step level state ((name, v) :: ms)
  | later {state next : β} {name : String} {v : Value} {ms : List (String × Value)}
      (own : (step state name).Reads (L.memberText (level + 1) v) next)
      (others : MembersBreak L step level next ms) : MembersBreak L step level state ((name, v) :: ms)

theorem stopsDeep_membersFrom_here {name : String} {s left : List Char} {fuel : Nat} {first : Bool}
    (more : nextName first s = .ok (some name, left)) (own : (step state name).StopsFor .tooDeep left) :
    (membersFrom step (fuel + 1) first state).StopsFor .tooDeep s := by
  rw [StopsFor, membersFrom_next more]
  exact own.bind _

theorem MembersBreak.stopsDeep (breaks : MembersBreak L step level state ms) {fuel : Nat} (enough : ms.length < fuel)
    (rest : List Char) : (membersFrom step fuel false state).StopsFor .tooDeep
      (behind (L.gap (level + 1)) (fun m => quoteChars m.1.toList ++ L.memberText (level + 1) m.2) ms ++
        (L.gap level ++ '\x7d' :: rest)) := by
  have comma := nextName_comma (L.blank (level + 1))
  induction breaks generalizing fuel with
  | @here state name v ms own =>
    obtain ⟨more, rfl⟩ := Nat.exists_eq_add_of_lt enough
    rw [behind_cons, List.append_assoc]
    exact stopsDeep_membersFrom_here (comma name _) (own _)
  | @later state next name v ms own others ih =>
    obtain ⟨more, rfl⟩ := Nat.exists_eq_add_of_lt enough
    rw [behind_cons, List.append_assoc, StopsFor, membersFrom_succ (comma name _) (own _ (L.ends_members ms _))]
    exact ih (Nat.lt_of_succ_lt_succ enough)

/-- The members of an object are given up before its closing brace. -/
theorem MembersBreak.stopsDeep_object (breaks : MembersBreak L step level state ms) (rest : List Char) :
    ∃ inside, L.text level (.object ms) ++ rest = '\x7b' :: inside ∧
      (membersFrom step (inside.length + 1) true state).StopsFor .tooDeep inside := by
  cases ms with
  | nil => cases breaks
  | cons m ms =>
    refine ⟨_, L.object_cons level m.1 m.2 ms rest, ?_⟩
    have start := nextName_first (L.blank (level + 1)) m.1
    cases breaks with
    | here own => exact stopsDeep_membersFrom_here (start _) (own _)
    | later own others =>
      rw [StopsFor, membersFrom_succ (start _) (own _ (L.ends_members ms _))]
      refine others.stopsDeep ?_ rest
      have := length_le_behind (L.gap (level + 1))
        (fun m => quoteChars m.1.toList ++ L.memberText (level + 1) m.2) ms
      simp only [List.length_append, List.length_cons]
      omega

theorem MembersBreak.tooDeep_members (breaks : MembersBreak L step level state ms) :
    (members step state).TooDeep (L.text level (.object ms)) := by
  intro rest
  obtain ⟨inside, text, stops⟩ := breaks.stopsDeep_object rest
  rw [text, StopsFor, members, drop_bind, look_bind]
  exact stops.bind _

theorem tooDeep_memberValue {v : Value} (passes : item.PassesBlank) (own : item.TooDeep (L.text level v))
    (name : String) : (memberValue name item).TooDeep (L.memberText level v) := fun rest => by
  obtain ⟨e, stopped, deep⟩ := own rest
  have passed : item (List.replicate L.spaces ' ' ++ L.text level v ++ rest) = item (L.text level v ++ rest) := by
    rw [List.append_assoc, passes.replicate]
  exact StopsFor.within ⟨e, passed.trans stopped, deep⟩ (.key name)

/-- An object is given up if the value of one of its members nests too deep. -/
theorem tooDeep_fields {γ : Type} {Admits : Number → Prop} (passes : item.PassesBlank) (written : γ → Value) {f : γ → α}
    {entries : Fields γ}
    (reads : ∀ entry ∈ entries, (written entry.2).Fits Admits depth →
      item.Reads (L.text (level + 1) (written entry.2)) (f entry.2))
    (stops : ∀ entry ∈ entries, ¬ (written entry.2).Fits Admits depth →
      item.TooDeep (L.text (level + 1) (written entry.2)))
    (deep : ¬ ∀ entry ∈ entries, (written entry.2).Fits Admits depth) :
    (fields item).TooDeep
      (L.text level (.object (entries.map fun entry => (entry.1, written entry.2)))) := by
  refine MembersBreak.tooDeep_members ?_
  generalize ([] : Fields α) = before
  induction entries generalizing before with
  | nil => exact absurd nofun deep
  | cons entry entries ih =>
    obtain ⟨first, others⟩ := List.forall_mem_cons.mp reads
    obtain ⟨stopsFirst, stopsOthers⟩ := List.forall_mem_cons.mp stops
    by_cases fits : (written entry.2).Fits Admits depth
    · exact .later ((Layout.reads_memberValue passes (first fits) entry.1).map fun x => Fields.insert before entry.1 x)
        (ih others stopsOthers (fun inside => deep (List.forall_mem_cons.mpr ⟨fits, inside⟩)) _)
    · exact .here ((tooDeep_memberValue passes (stopsFirst fits) entry.1).map _)

end Members

section Values

theorem tooDeep_failPast (s : List Char) : (failPast .tooDeep : Reader α).TooDeep s := fun _ => ⟨_, rfl, rfl⟩

/-- A value that would fit if more lists and objects could be nested is given up as too deep. -/
theorem tooDeep_value {L : Layout} {v : Value} (distinct : v.NamesDistinct) {depth more : Nat}
    (fits : v.Fits Number.Readable more)
    (deep : ¬ v.Fits Number.Readable depth) (level : Nat) : (value depth).TooDeep (L.text level v) := by
  induction distinct generalizing depth more level with
  | null | boolean _ | number _ | string _ => exact absurd ⟨Nat.zero_le _, fits.back⟩ deep
  | @array xs distinct ih =>
    cases depth with
    | zero => exact (tooDeep_failPast _).of_eq (Layout.valueWith_array xs)
    | succ depth =>
      obtain ⟨more, rfl, within⟩ := Value.fits_array.mp fits
      have breaks : ElementsBreak L (value depth) level xs := elementsBreak_of
        (fun x member fits => Layout.reads_value (distinct x member) fits (level + 1))
        (fun x member deep => ih x member (within x member) deep (level + 1))
        fun inside => deep (Value.fits_array.mpr ⟨depth, rfl, inside⟩)
      exact (breaks.tooDeep.map Value.array).of_eq (Layout.valueWith_array xs)
  | @object ms names distinct ih =>
    cases depth with
    | zero => exact (tooDeep_failPast _).of_eq (Layout.valueWith_object ms)
    | succ depth =>
      obtain ⟨more, rfl, within⟩ := Value.fits_object.mp fits
      have own := tooDeep_fields (passesBlank_value depth) id
        (fun m member fits => Layout.reads_value (distinct m member) fits (level + 1))
        (fun m member deep => ih m member (within m member) deep (level + 1))
        fun inside => deep (Value.fits_object.mpr ⟨depth, rfl, inside⟩)
      have text : (ms.map fun m => (m.1, id m.2)) = ms := List.map_id ms
      rw [text] at own
      exact (own.map Value.object).of_eq (Layout.valueWith_object ms)

end Values

theorem TooDeep.load {r : Reader α} {source : String} {s : List Char} (text : source.toList = s)
    (deep : r.TooDeep s) : ∃ e, load r source = .error e ∧ e.cause = .tooDeep := by
  have stops := deep []
  rw [List.append_nil, ← text] at stops
  exact stops.load

end Reader

end JsonAssist
