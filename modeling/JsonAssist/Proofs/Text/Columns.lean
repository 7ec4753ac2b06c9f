import Mathlib.Data.List.Basic
import JsonAssist.Text.Position

namespace JsonAssist

section Bytes

variable {s t : List Char}

@[simp] theorem byteLength_nil : byteLength [] = 0 := rfl

@[simp] theorem byteLength_cons (c : Char) (s : List Char) : byteLength (c :: s) = c.utf8Size + byteLength s := rfl

@[simp] theorem byteLength_append (s t : List Char) : byteLength (s ++ t) = byteLength s + byteLength t := by
  induction s with
  | nil => simp
  | cons c s ih => simp [ih, Nat.add_assoc]

theorem length_le_byteLength (s : List Char) : s.length ≤ byteLength s := by
  induction s with
  | nil => exact Nat.le_refl 0
  | cons c s ih =>
    have := c.utf8Size_pos
    rw [byteLength_cons, List.length_cons]
    omega

theorem byteLength_pos (nonempty : s ≠ []) : 0 < byteLength s :=
  Nat.lt_of_lt_of_le (List.length_pos_iff.mpr nonempty) (length_le_byteLength s)

theorem byteLength_le_of_isPrefix (front : s <+: t) : byteLength s ≤ byteLength t := by
  obtain ⟨rest, rfl⟩ := front
  rw [byteLength_append]
  omega

theorem splitAtByte?_go (front back acc : List Char) :
    splitAtByte?.go (byteLength front) acc (front ++ back) = some (front.reverse ++ acc, back) := by
  induction front generalizing acc with
  | nil => cases back <;> rfl
  | cons c front ih =>
    obtain ⟨n, width⟩ : ∃ n, c.utf8Size + byteLength front = n + 1 :=
      Nat.exists_eq_add_one.mpr (Nat.add_pos_left c.utf8Size_pos _)
    have left : n + 1 - c.utf8Size = byteLength front := by omega
    rw [byteLength_cons, width, List.cons_append, splitAtByte?.go, if_pos (by omega), left, ih, List.reverse_cons,
      List.append_assoc, List.singleton_append]

/-- A text is split where the bytes of its front end. -/
theorem splitAtByte?_append (front back : List Char) :
    splitAtByte? (byteLength front) (front ++ back) = some (front.reverse, back) := by
  rw [splitAtByte?, splitAtByte?_go, List.append_nil]

end Bytes

namespace Text

/-- The number of UTF-16 units of a text. -/
def unitLength : List Char → Nat
  | [] => 0
  | c :: s => units16 c + unitLength s

@[simp] theorem unitLength_nil : unitLength [] = 0 := rfl

@[simp] theorem unitLength_cons (c : Char) (s : List Char) : unitLength (c :: s) = units16 c + unitLength s := rfl

@[simp] theorem unitLength_append (s t : List Char) : unitLength (s ++ t) = unitLength s + unitLength t := by
  induction s with
  | nil => simp
  | cons c s ih => simp [ih, Nat.add_assoc]

theorem units16_pos (c : Char) : 0 < units16 c := by
  unfold units16
  split <;> omega

theorem units16_le_utf8Size (c : Char) : units16 c ≤ c.utf8Size := by
  have positive := c.utf8Size_pos
  unfold units16
  split
  next => omega
  next astral =>
    have large : ¬c.val.toNat < 0x10000 := astral
    simp only [Char.utf8Size, UInt32.le_iff_toNat_le, UInt32.toNat_ofNatLT]
    rw [if_neg (by omega), if_neg (by omega), if_neg (by omega)]
    omega

theorem unitLength_le_byteLength (s : List Char) : unitLength s ≤ byteLength s := by
  induction s with
  | nil => exact Nat.le_refl 0
  | cons c s ih =>
    have := units16_le_utf8Size c
    rw [unitLength_cons, byteLength_cons]
    omega

/-- The column behind some characters is the one whose bytes they are. -/
theorem bytesWithin_unitLength (before after : List Char) :
    bytesWithin (unitLength before) (before ++ after) = byteLength before := by
  induction before with
  | nil =>
    cases after with
    | nil => rfl
    | cons c rest =>
      have := units16_pos c
      simp only [unitLength_nil, List.nil_append, bytesWithin]
      rw [if_neg (by omega), byteLength_nil]
  | cons c before ih =>
    rw [unitLength_cons, List.cons_append, bytesWithin, if_pos (Nat.le_add_right ..), Nat.add_sub_cancel_left, ih,
      byteLength_cons]

theorem bytesWithin_zero (s : List Char) : bytesWithin 0 s = 0 := bytesWithin_unitLength [] s

theorem unitsWithin_byteLength (before after : List Char) :
    unitsWithin (byteLength before) (before ++ after) = unitLength before := by
  induction before with
  | nil =>
    cases after with
    | nil => rfl
    | cons c rest =>
      have := c.utf8Size_pos
      simp only [byteLength_nil, List.nil_append, unitsWithin]
      rw [if_neg (by omega), unitLength_nil]
  | cons c before ih =>
    rw [byteLength_cons, List.cons_append, unitsWithin, if_pos (Nat.le_add_right ..), Nat.add_sub_cancel_left, ih,
      unitLength_cons]

theorem unitsWithin_le (bytes : Nat) (s : List Char) : unitsWithin bytes s ≤ unitLength s := by
  induction s generalizing bytes with
  | nil => exact Nat.le_refl 0
  | cons c s ih =>
    have := ih (bytes - c.utf8Size)
    rw [unitsWithin, unitLength_cons]
    split <;> omega

theorem unitLength_le_of_isPrefix {s t : List Char} (front : s <+: t) : unitLength s ≤ unitLength t := by
  obtain ⟨rest, rfl⟩ := front
  rw [unitLength_append]
  omega

/-- A column lies between two characters, behind as many as fit it. -/
theorem exists_split_bytesWithin (units : Nat) (s : List Char) :
    ∃ before after, s = before ++ after ∧ bytesWithin units s = byteLength before ∧ unitLength before ≤ units ∧
      ∀ c rest, after = c :: rest → units < unitLength before + units16 c := by
  induction s generalizing units with
  | nil => exact ⟨[], [], rfl, rfl, Nat.zero_le _, nofun⟩
  | cons c s ih =>
    by_cases fits : units16 c ≤ units
    · obtain ⟨before, after, rfl, bytes, within, next⟩ := ih (units - units16 c)
      refine ⟨c :: before, after, rfl, ?_, ?_, fun d rest behind => ?_⟩
      · rw [bytesWithin, if_pos fits, bytes, byteLength_cons]
      · rw [unitLength_cons]
        omega
      · have := next d rest behind
        rw [unitLength_cons]
        omega
    · refine ⟨[], c :: s, rfl, ?_, Nat.zero_le _, ?_⟩
      · rw [bytesWithin, if_neg fits, byteLength_nil]
      · rintro _ _ ⟨⟩
        rw [unitLength_nil]
        omega

theorem bytesWithin_le (units : Nat) (s : List Char) : bytesWithin units s ≤ byteLength s := by
  obtain ⟨before, after, same, bytes, _⟩ := exists_split_bytesWithin units s
  exact bytes ▸ byteLength_le_of_isPrefix ⟨after, same.symm⟩

theorem bytesWithin_mono {units more : Nat} (le : units ≤ more) (s : List Char) :
    bytesWithin units s ≤ bytesWithin more s := by
  induction s generalizing units more with
  | nil => exact Nat.le_refl 0
  | cons c s ih =>
    rw [bytesWithin, bytesWithin]
    by_cases fits : units16 c ≤ units
    · have := ih (show units - units16 c ≤ more - units16 c by omega)
      rw [if_pos fits, if_pos (by omega)]
      omega
    · rw [if_neg fits]
      exact Nat.zero_le _

end Text

end JsonAssist
