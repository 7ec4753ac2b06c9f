import JsonAssist.Proofs.Text.Lines

namespace JsonAssist

open Text

namespace Position

section Lines

variable {line : List Char} {lines : List (List Char)} {offset n column : Nat}

theorem offsetIn_first (line : List Char) (lines : List (List Char)) (column : Nat) :
    offsetIn (line :: lines) ⟨0, column⟩ = bytesWithin column (stripLine line) := rfl

theorem offsetIn_next (line : List Char) (lines : List (List Char)) (n column : Nat) :
    offsetIn (line :: lines) ⟨n + 1, column⟩ = byteLength line + offsetIn lines ⟨n, column⟩ := rfl

theorem ofOffsetIn_last (line : List Char) (offset : Nat) :
    ofOffsetIn [line] offset = ⟨0, unitsWithin offset line⟩ := rfl

theorem ofOffsetIn_first (more : lines ≠ []) (inside : offset < byteLength line) :
    ofOffsetIn (line :: lines) offset = ⟨0, unitsWithin offset line⟩ := by
  obtain ⟨next, others, rfl⟩ := List.exists_cons_of_ne_nil more
  exact if_pos inside

theorem ofOffsetIn_next (more : lines ≠ []) (offset : Nat) :
    ofOffsetIn (line :: lines) (byteLength line + offset) =
      ⟨(ofOffsetIn lines offset).line + 1, (ofOffsetIn lines offset).column⟩ := by
  obtain ⟨next, others, rfl⟩ := List.exists_cons_of_ne_nil more
  rw [ofOffsetIn, if_neg (by omega), Nat.add_sub_cancel_left]

/-- The bytes up to a position are those of whole characters. -/
theorem exists_isPrefix_offsetIn (lines : List (List Char)) (p : Position) :
    ∃ before, before <+: lines.flatten ∧ byteLength before = offsetIn lines p := by
  obtain ⟨n, column⟩ := p
  induction lines generalizing n with
  | nil => exact ⟨[], List.nil_prefix, rfl⟩
  | cons line lines ih =>
    cases n with
    | zero =>
      obtain ⟨before, after, same, bytes, _⟩ := exists_split_bytesWithin column (stripLine line)
      have front : before <+: line := List.IsPrefix.trans ⟨after, same.symm⟩ (stripLine_isPrefix line)
      exact ⟨before, front.trans (List.prefix_append line _), bytes.symm⟩
    | succ n =>
      obtain ⟨before, front, bytes⟩ := ih n
      refine ⟨line ++ before, (List.prefix_append_right_inj line).mpr front, ?_⟩
      rw [offsetIn_next, byteLength_append, bytes]

theorem offsetIn_first_le (line : List Char) (lines : List (List Char)) (column : Nat) :
    offsetIn (line :: lines) ⟨0, column⟩ ≤ byteLength line :=
  Nat.le_trans (bytesWithin_le column (stripLine line)) (byteLength_le_of_isPrefix (stripLine_isPrefix line))

theorem offsetIn_mono (lines : List (List Char)) {p q : Position}
    (order : p.line < q.line ∨ p.line = q.line ∧ p.column ≤ q.column) : offsetIn lines p ≤ offsetIn lines q := by
  obtain ⟨m, column⟩ := p
  obtain ⟨n, column'⟩ := q
  simp only at order
  induction lines generalizing m n with
  | nil => exact Nat.le_refl 0
  | cons line lines ih =>
    cases n with
    | zero =>
      obtain ⟨rfl, columns⟩ : m = 0 ∧ column ≤ column' := by omega
      exact bytesWithin_mono columns (stripLine line)
    | succ n =>
      cases m with
      | zero =>
        have := offsetIn_first_le line lines column
        rw [offsetIn_next]
        omega
      | succ m =>
        rw [offsetIn_next, offsetIn_next]
        exact Nat.add_le_add_left (ih m n (by omega)) _

end Lines

section Text

variable {content mark rest before after : List Char}

/-- A place in a text is behind its first line, in what stands in that line, or inside the break at its end. -/
theorem place_cases (cut : Break mark rest) (same : content ++ (mark ++ rest) = before ++ after) :
    (∃ front, before = (content ++ mark) ++ front ∧ rest = front ++ after) ∨
      byteLength before < byteLength (content ++ mark) ∧
        (before <+: content ∨ before.getLast? = some '\r' ∧ after.head? = some '\n') := by
  rw [← List.append_assoc] at same
  rcases List.append_eq_append_iff.mp same with ⟨front, behind, next⟩ | ⟨missing, line, next⟩
  · exact Or.inl ⟨front, behind, next⟩
  · by_cases whole : missing = []
    · subst whole
      exact Or.inl ⟨[], by simpa using line.symm, next.symm⟩
    · refine Or.inr ⟨?_, ?_⟩
      · have := byteLength_pos whole
        rw [line, byteLength_append]
        omega
      · rcases List.append_eq_append_iff.mp line with ⟨part, behind, split⟩ | ⟨other, inContent, _⟩
        · rcases cut.parts split whole with rfl | ⟨rfl, rfl⟩
          · rw [behind, List.append_nil]
            exact Or.inl List.prefix_rfl
          · refine Or.inr ⟨?_, by rw [next]; rfl⟩
            rw [behind, List.getLast?_concat]
        · exact Or.inl (inContent ▸ List.prefix_append before other)

theorem offsetIn_ofOffsetIn (s : List Char) {before after : List Char} (same : s = before ++ after)
    (whole : ¬(before.getLast? = some '\r' ∧ after.head? = some '\n')) :
    offsetIn (Text.lines s) (ofOffsetIn (Text.lines s) (byteLength before)) = byteLength before := by
  induction s using induction_on_lines generalizing before with
  | last s plain =>
    rw [lines_of_plain plain, ofOffsetIn_last, offsetIn_first, stripLine_of_plain plain, same, unitsWithin_byteLength,
      bytesWithin_unitLength]
  | line content mark rest plain cut ih =>
    rw [lines_cut plain cut]
    rcases place_cases cut same with ⟨front, rfl, next⟩ | ⟨inside, inContent | between⟩
    · rw [byteLength_append, ofOffsetIn_next (lines_ne_nil rest), offsetIn_next, ih next ?_]
      exact fun between => whole ⟨by rw [List.getLast?_append, between.1, Option.some_or], between.2⟩
    · obtain ⟨kept, stripped⟩ := inContent.trans (isPrefix_stripLine plain cut)
      obtain ⟨others, ends⟩ := inContent.trans (List.prefix_append content mark)
      rw [ofOffsetIn_first (lines_ne_nil rest) inside, offsetIn_first, ← ends, unitsWithin_byteLength, ends,
        ← stripped, bytesWithin_unitLength]
    · exact absurd between whole

/-- A position of a text counts no further than its bytes. -/
theorem ofOffsetIn_le (s : List Char) (offset : Nat) :
    (ofOffsetIn (Text.lines s) offset).line ≤ byteLength s ∧
      (ofOffsetIn (Text.lines s) offset).column ≤ byteLength s := by
  have columns (t : List Char) (offset : Nat) : unitsWithin offset t ≤ byteLength t :=
    Nat.le_trans (unitsWithin_le offset t) (unitLength_le_byteLength t)
  induction s using induction_on_lines generalizing offset with
  | last s plain =>
    rw [lines_of_plain plain, ofOffsetIn_last]
    exact ⟨Nat.zero_le _, columns s offset⟩
  | line content mark rest plain cut ih =>
    rw [lines_cut plain cut, ← List.append_assoc, byteLength_append]
    by_cases inside : offset < byteLength (content ++ mark)
    · rw [ofOffsetIn_first (lines_ne_nil rest) inside]
      exact ⟨Nat.zero_le _, Nat.le_add_right_of_le (columns _ offset)⟩
    · have positive : 0 < byteLength (content ++ mark) :=
        byteLength_pos (List.append_ne_nil_of_right_ne_nil content cut.ne_nil)
      obtain ⟨further, rfl⟩ := Nat.exists_eq_add_of_le (Nat.le_of_not_lt inside)
      obtain ⟨line, column⟩ := ih further
      rw [ofOffsetIn_next (lines_ne_nil rest)]
      constructor
      · simp only
        omega
      · exact Nat.le_add_left_of_le column

end Text

/-- A position that stands for an offset between two characters, though not for one inside a pair of carriage
return and line feed, goes back to that offset, and its parts fit 32 bits where the text is no longer. Every
position stands for an offset between two characters, and a later one for none that is earlier. -/
theorem offset_ofOffset (text : String) :
    (byteLength text.toList < UInt32.size → ∀ before after, text.toList = before ++ after →
        ¬(before.getLast? = some '\r' ∧ after.head? = some '\n') →
          (ofOffset text (byteLength before)).line < UInt32.size ∧
            (ofOffset text (byteLength before)).column < UInt32.size ∧
            offset text (ofOffset text (byteLength before)) = byteLength before) ∧
      (∀ p, offset text p ≤ byteLength text.toList ∧
        ∃ before after, text.toList = before ++ after ∧ offset text p = byteLength before) ∧
      ∀ p q : Position, p.line < q.line ∨ p.line = q.line ∧ p.column ≤ q.column → offset text p ≤ offset text q := by
  refine ⟨fun size before after same whole => ?_, fun p => ?_, fun p q => offsetIn_mono _⟩
  · obtain ⟨line, column⟩ := ofOffsetIn_le text.toList (byteLength before)
    exact ⟨Nat.lt_of_le_of_lt line size, Nat.lt_of_le_of_lt column size, offsetIn_ofOffsetIn text.toList same whole⟩
  · obtain ⟨before, front, bytes⟩ := exists_isPrefix_offsetIn (Text.lines text.toList) p
    rw [lines_flatten] at front
    obtain ⟨after, same⟩ := front
    refine ⟨?_, before, after, same.symm, bytes.symm⟩
    rw [offset, ← bytes]
    exact byteLength_le_of_isPrefix ⟨after, same⟩

/-- Breaks of several kinds, a character of two units, and the offset between a lone carriage return and a line
separator. -/
theorem offset_ofOffset_of_breaks :
    let text := "😀\r\nx\r\u2028é"
    let before := ['😀', '\r', '\n', 'x', '\r']
    byteLength text.toList < UInt32.size ∧ text.toList = before ++ ['\u2028', 'é'] ∧
      ¬(before.getLast? = some '\r' ∧ ['\u2028', 'é'].head? = some '\n') ∧
      ofOffset text (byteLength before) = ⟨2, 0⟩ ∧ offset text ⟨2, 0⟩ = byteLength before ∧
      offset text ⟨0, 1⟩ ≤ offset text ⟨0, 2⟩ := by
  intro text before
  have size : byteLength text.toList < UInt32.size := by decide +kernel
  have same : text.toList = before ++ ['\u2028', 'é'] := by decide +kernel
  have whole : ¬(before.getLast? = some '\r' ∧ ['\u2028', 'é'].head? = some '\n') := by decide
  have place : ofOffset text (byteLength before) = ⟨2, 0⟩ := by decide +kernel
  obtain ⟨back, _, mono⟩ := offset_ofOffset text
  exact ⟨size, same, whole, place, place ▸ (back size before _ same whole).2.2, mono _ _ (Or.inr ⟨rfl, by decide⟩)⟩

end Position

end JsonAssist
