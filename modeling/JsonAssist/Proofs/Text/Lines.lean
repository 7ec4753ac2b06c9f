import Mathlib.Data.List.DropRight
import JsonAssist.Proofs.Text.Columns

namespace JsonAssist

namespace Text

/-- No character is a line break. -/
def Plain (s : List Char) : Prop := ∀ c ∈ s, ¬isLineBreak c

/-- The characters `mark` are one line break where the text goes on with `rest`. -/
inductive Break : (mark rest : List Char) → Prop
  | pair (rest : List Char) : Break ['\r', '\n'] rest
  | single {c : Char} {rest : List Char} (breaks : isLineBreak c) (alone : ¬(c = '\r' ∧ rest.head? = some '\n')) :
      Break [c] rest

section Cut

variable {content mark rest s : List Char}

theorem Break.ne_nil (breaks : Break mark rest) : mark ≠ [] := by
  cases breaks <;> exact List.cons_ne_nil _ _

/-- Only between a carriage return and a line feed can one stand inside a break. -/
theorem Break.parts {part missing : List Char} (cut : Break mark rest) (split : mark = part ++ missing)
    (unfinished : missing ≠ []) : part = [] ∨ part = ['\r'] ∧ missing = ['\n'] := by
  cases part with
  | nil => exact Or.inl rfl
  | cons c part =>
    obtain ⟨d, missing, rfl⟩ := List.exists_cons_of_ne_nil unfinished
    cases cut with
    | pair => cases part <;> simp_all [eq_comm]
    | single => simp at split

/-- A text is one line, or it begins with one and its break. -/
theorem plain_or_cut (s : List Char) :
    Plain s ∨ ∃ content mark rest, s = content ++ (mark ++ rest) ∧ Plain content ∧ Break mark rest := by
  induction s with
  | nil => exact Or.inl nofun
  | cons c s ih =>
    by_cases breaks : isLineBreak c
    · right
      by_cases pair : c = '\r' ∧ s.head? = some '\n'
      · obtain ⟨rfl, next⟩ := pair
        obtain ⟨rest, rfl⟩ := List.head?_eq_some_iff.mp next
        exact ⟨[], ['\r', '\n'], rest, rfl, nofun, .pair rest⟩
      · exact ⟨[], [c], s, rfl, nofun, .single breaks pair⟩
    · rcases ih with plain | ⟨content, mark, rest, rfl, plain, cut⟩
      · exact Or.inl (List.forall_mem_cons.mpr ⟨breaks, plain⟩)
      · exact Or.inr ⟨c :: content, mark, rest, rfl, List.forall_mem_cons.mpr ⟨breaks, plain⟩, cut⟩

/-- Every text holds if its last line does, and each line in front of a text that does. -/
theorem induction_on_lines {P : List Char → Prop} (last : ∀ s, Plain s → P s)
    (line : ∀ content mark rest, Plain content → Break mark rest → P rest → P (content ++ (mark ++ rest)))
    (s : List Char) : P s := by
  induction size : s.length using Nat.strong_induction_on generalizing s with
  | _ n ih =>
    rcases plain_or_cut s with plain | ⟨content, mark, rest, rfl, plain, cut⟩
    · exact last s plain
    · have := List.length_pos_iff.mpr cut.ne_nil
      refine line content mark rest plain cut (ih rest.length ?_ rest rfl)
      rw [← size, List.length_append, List.length_append]
      omega

theorem lines_ne_nil (s : List Char) : lines s ≠ [] := by
  cases s with
  | nil => exact List.cons_ne_nil _ _
  | cons c rest =>
    simp only [lines]
    split
    · exact List.cons_ne_nil _ _
    · split <;> exact List.cons_ne_nil _ _

theorem exists_lines (s : List Char) : ∃ line more, lines s = line :: more :=
  List.exists_cons_of_ne_nil (lines_ne_nil s)

/-- What is no break joins the line behind it. -/
theorem lines_append {line : List Char} {more : List (List Char)} (plain : Plain content)
    (behind : lines s = line :: more) : lines (content ++ s) = (content ++ line) :: more := by
  induction content with
  | nil => exact behind
  | cons c content ih =>
    obtain ⟨own, others⟩ := List.forall_mem_cons.mp plain
    simp only [List.cons_append, lines, ih others, own, Bool.false_and, Bool.false_eq_true, if_false]

theorem lines_of_plain (plain : Plain s) : lines s = [s] := by
  have empty : lines [] = [[]] := rfl
  have joined := lines_append plain empty
  simpa only [List.append_nil] using joined

theorem lines_of_break (cut : Break mark rest) : lines (mark ++ rest) = mark :: lines rest := by
  cases cut with
  | pair rest => simp [lines, isLineBreak]
  | @single c rest breaks alone =>
    have ends : (isLineBreak c && !(c == '\r' && rest.head? == some '\n')) = true := by
      simpa [breaks, ← not_and_or] using alone
    simp only [List.singleton_append, lines, ends, if_true]

theorem lines_cut (plain : Plain content) (cut : Break mark rest) :
    lines (content ++ (mark ++ rest)) = (content ++ mark) :: lines rest :=
  lines_append plain (lines_of_break cut)

theorem lines_flatten (s : List Char) : (lines s).flatten = s := by
  induction s using induction_on_lines with
  | last s plain => rw [lines_of_plain plain, List.flatten_singleton]
  | line content mark rest plain cut ih =>
    rw [lines_cut plain cut, List.flatten_cons, ih, List.append_assoc]

end Cut

section Strip

variable {content mark rest : List Char}

/-- Line feed and carriage return. -/
def isLineEnd (c : Char) : Bool := c == '\n' || c == '\r'

theorem isLineBreak_of_isLineEnd {c : Char} (ends : isLineEnd c) : isLineBreak c := by
  have either : c = '\n' ∨ c = '\r' := by simpa [isLineEnd] using ends
  rcases either with rfl | rfl <;> decide

/-- A break consists of line feeds and carriage returns, or of one character that is neither. -/
theorem Break.cases (cut : Break mark rest) :
    (∀ c ∈ mark, isLineEnd c) ∨ ∃ c, mark = [c] ∧ isLineBreak c ∧ ¬isLineEnd c := by
  cases cut with
  | pair => exact Or.inl (List.forall_mem_cons.mpr ⟨rfl, List.forall_mem_singleton.mpr rfl⟩)
  | @single c rest breaks alone =>
    by_cases ends : isLineEnd c
    · exact Or.inl (List.forall_mem_singleton.mpr ends)
    · exact Or.inr ⟨c, rfl, breaks, ends⟩

theorem stripLine_eq_rdropWhile (line : List Char) : stripLine line = line.rdropWhile isLineEnd := rfl

theorem stripLine_of_plain (plain : Plain content) : stripLine content = content := by
  rw [stripLine_eq_rdropWhile, List.rdropWhile_eq_self_iff]
  intro nonempty ends
  exact plain _ (List.getLast_mem nonempty) (isLineBreak_of_isLineEnd ends)

theorem stripLine_append_of_ends (ends : ∀ c ∈ mark, isLineEnd c) :
    stripLine (content ++ mark) = stripLine content := by
  induction mark using List.reverseRecOn with
  | nil => rw [List.append_nil]
  | append_singleton mark c ih =>
    obtain ⟨before, last⟩ := List.forall_mem_append.mp ends
    rw [← List.append_assoc, stripLine_eq_rdropWhile, List.rdropWhile_concat_pos _ _ _ (last c List.mem_cons_self)]
    exact ih before

theorem stripLine_concat {c : Char} (other : ¬isLineEnd c) : stripLine (content ++ [c]) = content ++ [c] := by
  rw [stripLine_eq_rdropWhile, List.rdropWhile_concat_neg _ _ _ other]

theorem stripLine_isPrefix (line : List Char) : stripLine line <+: line := List.rdropWhile_prefix _ _

/-- What stands in a line stays when its break is stripped. -/
theorem isPrefix_stripLine (plain : Plain content) (cut : Break mark rest) :
    content <+: stripLine (content ++ mark) := by
  rcases cut.cases with ends | ⟨c, rfl, _, other⟩
  · exact ⟨[], by rw [List.append_nil, stripLine_append_of_ends ends, stripLine_of_plain plain]⟩
  · rw [stripLine_concat other]
    exact List.prefix_append content [c]

end Strip

end Text

end JsonAssist
