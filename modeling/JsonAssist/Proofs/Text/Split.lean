import Mathlib.Data.List.Basic
import JsonAssist.Text.Split

namespace JsonAssist

section Split

variable {mark c : Char} {s part : List Char} {parts : List (List Char)}

theorem exists_splitOn (mark : Char) (s : List Char) : ∃ part parts, splitOn mark s = part :: parts := by
  cases s with
  | nil => exact ⟨[], [], rfl⟩
  | cons c s =>
    rw [splitOn]
    split
    · exact ⟨[], _, rfl⟩
    · split <;> exact ⟨_, _, rfl⟩

theorem splitOn_cons (split : splitOn mark s = part :: parts) (other : c ≠ mark) :
    splitOn mark (c :: s) = (c :: part) :: parts := by
  rw [splitOn, if_neg other, split]

theorem splitOn_of_notMem (without : mark ∉ s) : splitOn mark s = [s] := by
  induction s with
  | nil => rfl
  | cons c s ih =>
    rw [List.mem_cons, not_or] at without
    obtain ⟨other, without⟩ := without
    exact splitOn_cons (ih without) (Ne.symm other)

theorem splitOn_append_mark (s t : List Char) : splitOn mark (s ++ mark :: t) = splitOn mark s ++ splitOn mark t := by
  induction s with
  | nil => simp [splitOn]
  | cons c s ih =>
    by_cases here : c = mark
    · simp [splitOn, here, ih]
    · obtain ⟨part, parts, split⟩ := exists_splitOn mark s
      rw [split] at ih
      rw [splitOn_cons split here, List.cons_append, splitOn_cons ih here]
      rfl

/-- The parts of a text are made of its characters, without the one at which it is cut. -/
theorem mem_of_mem_splitOn (member : part ∈ splitOn mark s) : ∀ d ∈ part, d ∈ s ∧ d ≠ mark := by
  induction s generalizing part with
  | nil =>
    obtain rfl := List.mem_singleton.mp member
    exact nofun
  | cons c s ih =>
    have later {p : List Char} (inParts : p ∈ splitOn mark s) : ∀ d ∈ p, d ∈ c :: s ∧ d ≠ mark := fun d inPart =>
      ⟨List.mem_cons_of_mem c (ih inParts d inPart).1, (ih inParts d inPart).2⟩
    by_cases here : c = mark
    · rw [splitOn, if_pos here, List.mem_cons] at member
      rcases member with rfl | member
      · exact nofun
      · exact later member
    · obtain ⟨first, parts, split⟩ := exists_splitOn mark s
      rw [split] at later
      rw [splitOn_cons split here, List.mem_cons] at member
      rcases member with rfl | member
      · exact List.forall_mem_cons.mpr ⟨⟨List.mem_cons_self, here⟩, later List.mem_cons_self⟩
      · exact later (List.mem_cons_of_mem first member)

end Split

end JsonAssist
