import Mathlib.Data.Nat.Find
import JsonAssist.Proofs.Text.Position

namespace JsonAssist

namespace Text

/-- A line as an editor counts it: what stands in it, and the line feed, the carriage return or the pair of both
at its end. -/
structure EditorLine where
  content : List Char
  ending : List Char

/-- The lines of a text. The last one has no ending. -/
def editorLines : List Char → List EditorLine
  | [] => [⟨[], []⟩]
  | '\r' :: '\n' :: rest => ⟨[], ['\r', '\n']⟩ :: editorLines rest
  | c :: rest =>
    if isLineEnd c then ⟨[], [c]⟩ :: editorLines rest
    else
      match editorLines rest with
      | line :: more => ⟨c :: line.content, line.ending⟩ :: more
      | [] => [⟨[c], []⟩]

/-- The longest front of a text that takes no more than a number of UTF-16 units. -/
def fitting (units : Nat) (s : List Char) : List Char :=
  s.take (Nat.findGreatest (fun n => unitLength (s.take n) ≤ units) s.length)

end Text

open Text

namespace Position

/-- The offset of a position in the lines of an editor: all lines before its own, and of that one as much as fits
the column. Where there is no such line it is the end of the text. -/
def editorOffsetIn (lines : List EditorLine) (p : Position) : Nat :=
  byteLength ((lines.take p.line).flatMap fun line => line.content ++ line.ending) +
    (lines[p.line]?).elim 0 fun line => byteLength (fitting p.column line.content)

/-- The byte offset of a position as an editor counts it. -/
def editorOffset (text : String) (p : Position) : Nat := editorOffsetIn (editorLines text.toList) p

end Position

namespace Text

section Lines

variable {content mark rest s : List Char} {line : EditorLine} {more : List EditorLine}

theorem byteLength_fitting (units : Nat) (s : List Char) : byteLength (fitting units s) = bytesWithin units s := by
  obtain ⟨before, after, rfl, bytes, within, next⟩ := exists_split_bytesWithin units s
  have greatest : Nat.findGreatest (fun n => unitLength ((before ++ after).take n) ≤ units) (before ++ after).length =
      before.length := by
    refine Nat.findGreatest_eq_iff.mpr ⟨by simp, fun _ => by rwa [List.take_left], fun n beyond bound more => ?_⟩
    cases after with
    | nil =>
      rw [List.append_nil] at bound
      omega
    | cons c rest =>
      have front : before ++ [c] <+: (before ++ c :: rest).take n := by
        refine List.prefix_take_iff.mpr ⟨⟨rest, by simp⟩, ?_⟩
        rw [List.length_append, List.length_singleton]
        omega
      have := unitLength_le_of_isPrefix front
      have := next c rest rfl
      simp only [unitLength_append, unitLength_cons, unitLength_nil] at *
      omega
  rw [fitting, greatest, List.take_left, bytes]

theorem editorLines_cons {c : Char} (plain : ¬isLineEnd c) (behind : editorLines s = line :: more) :
    editorLines (c :: s) = ⟨c :: line.content, line.ending⟩ :: more := by
  have other (rest : List Char) : c = '\r' → s = '\n' :: rest → False := by
    rintro rfl
    exact absurd rfl plain
  rw [editorLines.eq_3 c s other, if_neg plain, behind]

/-- What ends no line joins the line behind it. -/
theorem editorLines_append (plain : ∀ c ∈ content, ¬isLineEnd c) (behind : editorLines s = line :: more) :
    editorLines (content ++ s) = ⟨content ++ line.content, line.ending⟩ :: more := by
  induction content with
  | nil => exact behind
  | cons c content ih =>
    obtain ⟨own, others⟩ := List.forall_mem_cons.mp plain
    exact editorLines_cons own (ih others)

theorem editorLines_of_plain (plain : ∀ c ∈ s, ¬isLineEnd c) : editorLines s = [⟨s, []⟩] := by
  have empty : editorLines [] = [⟨[], []⟩] := rfl
  have joined := editorLines_append plain empty
  simpa only [List.append_nil] using joined

theorem editorLines_of_break (cut : Break mark rest) (ends : ∀ c ∈ mark, isLineEnd c) :
    editorLines (mark ++ rest) = ⟨[], mark⟩ :: editorLines rest := by
  cases cut with
  | pair rest => rfl
  | @single c rest breaks alone =>
    have other (rest' : List Char) : c = '\r' → rest = '\n' :: rest' → False := by
      rintro rfl rfl
      exact alone ⟨rfl, rfl⟩
    rw [List.singleton_append, editorLines.eq_3 c rest other, if_pos (ends c List.mem_cons_self)]

theorem Plain.not_isLineEnd (plain : Plain content) : ∀ c ∈ content, ¬isLineEnd c :=
  fun c member ends => plain c member (isLineBreak_of_isLineEnd ends)

theorem Plain.not_isLineEnd_concat {c : Char} (plain : Plain content) (other : ¬isLineEnd c) :
    ∀ d ∈ content ++ [c], ¬isLineEnd d :=
  List.forall_mem_append.mpr ⟨plain.not_isLineEnd, List.forall_mem_singleton.mpr other⟩

theorem editorLines_cut (plain : Plain content) (cut : Break mark rest) (ends : ∀ c ∈ mark, isLineEnd c) :
    editorLines (content ++ (mark ++ rest)) = ⟨content, mark⟩ :: editorLines rest := by
  have joined := editorLines_append plain.not_isLineEnd (editorLines_of_break cut ends)
  simpa only [List.append_nil] using joined

/-- There is a first line, and it takes up a part of the text if there is any. -/
theorem exists_editorLines (s : List Char) :
    ∃ line more, editorLines s = line :: more ∧ (s ≠ [] → 0 < byteLength (line.content ++ line.ending)) := by
  induction s with
  | nil => exact ⟨⟨[], []⟩, [], rfl, fun nonempty => absurd rfl nonempty⟩
  | cons c s ih =>
    by_cases ends : isLineEnd c
    · by_cases pair : c = '\r' ∧ s.head? = some '\n'
      · obtain ⟨rfl, next⟩ := pair
        obtain ⟨rest, rfl⟩ := List.head?_eq_some_iff.mp next
        exact ⟨⟨[], ['\r', '\n']⟩, editorLines rest, rfl, fun _ => byteLength_pos (List.cons_ne_nil _ _)⟩
      · have cut : Break [c] s := .single (isLineBreak_of_isLineEnd ends) pair
        exact ⟨⟨[], [c]⟩, editorLines s, editorLines_of_break cut (List.forall_mem_singleton.mpr ends),
          fun _ => byteLength_pos (List.cons_ne_nil _ _)⟩
    · obtain ⟨line, more, behind, _⟩ := ih
      exact ⟨_, more, editorLines_cons ends behind, fun _ => byteLength_pos (List.cons_ne_nil _ _)⟩

end Lines

end Text

namespace Position

section Agreement

variable {content mark rest s : List Char}

theorem editorOffsetIn_first (line : EditorLine) (more : List EditorLine) (column : Nat) :
    editorOffsetIn (line :: more) ⟨0, column⟩ = bytesWithin column line.content := by
  simp [editorOffsetIn, byteLength_fitting]

theorem editorOffsetIn_next (line : EditorLine) (more : List EditorLine) (n column : Nat) :
    editorOffsetIn (line :: more) ⟨n + 1, column⟩ =
      byteLength (line.content ++ line.ending) + editorOffsetIn more ⟨n, column⟩ := by
  simp [editorOffsetIn, Nat.add_assoc]

theorem editorOffsetIn_nil (p : Position) : editorOffsetIn [] p = 0 := by
  simp [editorOffsetIn]

theorem offsetIn_empty (p : Position) : offsetIn [[]] p = 0 := by
  obtain ⟨n, column⟩ := p
  cases n <;> rfl

theorem mem_dropLast_append {front : List Char} {c : Char} (member : c ∈ front ++ rest.dropLast)
    (more : rest ≠ []) : c ∈ (front ++ rest).dropLast := by
  rwa [List.dropLast_append_of_ne_nil more]

theorem mem_dropLast_of_append {front : List Char} {c : Char} (member : c ∈ (front ++ rest).dropLast)
    (later : c ∉ front) : c ∈ rest.dropLast := by
  by_cases more : rest = []
  · rw [more, List.append_nil] at member
    exact absurd (List.dropLast_subset front member) later
  · rw [List.dropLast_append_of_ne_nil more] at member
    exact (List.mem_append.mp member).resolve_left later

/-- A line that ends with a line feed or a carriage return is the same to an editor. -/
theorem offset_agrees_cut (plain : Plain content) (cut : Break mark rest) (ends : ∀ c ∈ mark, isLineEnd c)
    (n column : Nat) :
    offsetIn (Text.lines (content ++ (mark ++ rest))) ⟨0, column⟩ =
        editorOffsetIn (editorLines (content ++ (mark ++ rest))) ⟨0, column⟩ ∧
      (offsetIn (Text.lines (content ++ (mark ++ rest))) ⟨n + 1, column⟩ =
          editorOffsetIn (editorLines (content ++ (mark ++ rest))) ⟨n + 1, column⟩ ↔
        offsetIn (Text.lines rest) ⟨n, column⟩ = editorOffsetIn (editorLines rest) ⟨n, column⟩) := by
  rw [lines_cut plain cut, editorLines_cut plain cut ends, offsetIn_first, editorOffsetIn_first,
    stripLine_append_of_ends ends, stripLine_of_plain plain, offsetIn_next, editorOffsetIn_next]
  exact ⟨rfl, Nat.add_left_cancel_iff⟩

/-- Without breaks of other kinds but at the end, positions are those of an editor. -/
theorem offset_agrees (s : List Char) (known : ∀ c ∈ s.dropLast, isLineBreak c → isLineEnd c) (p : Position) :
    offsetIn (Text.lines s) p = editorOffsetIn (editorLines s) p := by
  obtain ⟨n, column⟩ := p
  induction s using induction_on_lines generalizing n with
  | last s plain =>
    rw [lines_of_plain plain, editorLines_of_plain plain.not_isLineEnd]
    cases n with
    | zero => rw [offsetIn_first, editorOffsetIn_first, stripLine_of_plain plain]
    | succ n => rw [offsetIn_next, editorOffsetIn_next, List.append_nil, editorOffsetIn_nil, offsetIn]
  | line content mark rest plain cut ih =>
    rw [← List.append_assoc] at known
    rcases cut.cases with ends | ⟨c, rfl, breaks, other⟩
    · have later : ∀ c ∈ rest.dropLast, isLineBreak c → isLineEnd c := fun c member =>
        known c (mem_dropLast_append (List.mem_append_right _ member) fun empty => by simp [empty] at member)
      cases n with
      | zero => exact (offset_agrees_cut plain cut ends 0 column).1
      | succ n => exact (offset_agrees_cut plain cut ends n column).2.mpr (ih later n)
    · -- such a break can only be the end of the text
      have last : rest = [] := by
        by_contra more
        have inside : c ∈ content ++ [c] ++ rest.dropLast := by simp
        exact other (known c (mem_dropLast_append inside more) breaks)
      subst last
      rw [lines_cut plain cut, List.append_nil, editorLines_of_plain (plain.not_isLineEnd_concat other)]
      cases n with
      | zero => rw [offsetIn_first, editorOffsetIn_first, stripLine_concat other]
      | succ n =>
        rw [offsetIn_next, editorOffsetIn_next, editorOffsetIn_nil, List.append_nil]
        exact congrArg _ (offsetIn_empty ⟨n, column⟩)

/-- Behind a break of another kind, the start of the next line is no longer where an editor has it, which counts
on to its own next line. -/
theorem offset_disagrees_behind (plain : Plain content) {c : Char} (cut : Break [c] rest) (other : ¬isLineEnd c)
    (more : rest ≠ []) :
    offsetIn (Text.lines (content ++ ([c] ++ rest))) ⟨1, 0⟩ ≠
      editorOffsetIn (editorLines (content ++ ([c] ++ rest))) ⟨1, 0⟩ := by
  obtain ⟨next, following, first⟩ := exists_lines rest
  obtain ⟨line, others, behind, positive⟩ := exists_editorLines rest
  rw [lines_cut plain cut, first, offsetIn_next, offsetIn_first, bytesWithin_zero, ← List.append_assoc,
    editorLines_append (plain.not_isLineEnd_concat other) behind, editorOffsetIn_next, List.append_assoc,
    byteLength_append _ (line.content ++ line.ending)]
  have := positive more
  omega

theorem exists_disagreement (s : List Char) {c : Char} (member : c ∈ s.dropLast) (breaks : isLineBreak c)
    (other : ¬isLineEnd c) : ∃ p, offsetIn (Text.lines s) p ≠ editorOffsetIn (editorLines s) p := by
  induction s using induction_on_lines with
  | last s plain => exact absurd breaks (plain c (List.dropLast_subset s member))
  | line content mark rest plain cut ih =>
    rcases cut.cases with ends | ⟨d, rfl, _, notEnd⟩
    · have notBefore : c ∉ content ++ mark := fun before =>
        (List.mem_append.mp before).elim (fun inContent => plain c inContent breaks) fun inMark => other (ends c inMark)
      rw [← List.append_assoc] at member
      obtain ⟨⟨n, column⟩, differ⟩ := ih (mem_dropLast_of_append member notBefore)
      exact ⟨⟨n + 1, column⟩, fun agree => differ ((offset_agrees_cut plain cut ends n column).2.mp agree)⟩
    · refine ⟨⟨1, 0⟩, offset_disagrees_behind plain cut notEnd ?_⟩
      rintro rfl
      rw [List.append_nil, List.dropLast_concat] at member
      exact plain c member breaks

/-- Positions are those of an editor just in the texts in which nothing but line feeds and carriage returns breaks
a line, the last character apart. -/
theorem offset_eq_editorOffset_iff (text : String) :
    (∀ p : Position, p.offset text = p.editorOffset text) ↔
      ∀ c ∈ text.toList.dropLast, isLineBreak c → c = '\n' ∨ c = '\r' := by
  have ends (c : Char) : isLineEnd c ↔ c = '\n' ∨ c = '\r' := by simp [isLineEnd]
  simp only [← ends]
  refine ⟨fun agree c member breaks => ?_, fun known p => offset_agrees text.toList known p⟩
  by_contra other
  obtain ⟨p, differ⟩ := exists_disagreement text.toList member breaks other
  exact differ (agree p)

/-- A line separator inside a string of a document moves the next line away from where an editor has it. -/
theorem not_offset_eq_editorOffset : ¬∀ (text : String) (p : Position), p.offset text = p.editorOffset text :=
  fun always => by
    have agree := always "\x7b\"a\":\"x\u2028y\",\n\"b\":1\x7d" ⟨1, 0⟩
    have here : offset "\x7b\"a\":\"x\u2028y\",\n\"b\":1\x7d" ⟨1, 0⟩ = 10 := by decide +kernel
    have there : editorOffset "\x7b\"a\":\"x\u2028y\",\n\"b\":1\x7d" ⟨1, 0⟩ = 14 := by decide +kernel
    omega

end Agreement

end Position

end JsonAssist
