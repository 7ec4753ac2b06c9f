import Mathlib.Data.List.Lex
import Mathlib.Data.String.Basic

namespace JsonAssist.Text

/-- The bytes of a text in UTF-8. -/
def utf8 (s : String) : List UInt8 := s.toUTF8.data.toList

theorem utf8_eq_flatMap (s : String) : utf8 s = s.toList.flatMap String.utf8EncodeChar := by
  rw [utf8, String.toUTF8, ← String.utf8Encode_toList, List.utf8Encode, List.toList_data_toByteArray]

theorem ofNat_lt_ofNat {m n : Nat} (inByte : m < 256) (inByte' : n < 256) :
    UInt8.ofNat m < UInt8.ofNat n ↔ m < n := by
  rw [UInt8.lt_iff_toNat_lt, UInt8.toNat_ofNat', UInt8.toNat_ofNat', Nat.mod_eq_of_lt inByte, Nat.mod_eq_of_lt inByte']

theorem ofNat_eq_ofNat {m n : Nat} (inByte : m < 256) (inByte' : n < 256) :
    UInt8.ofNat m = UInt8.ofNat n ↔ m = n := by
  rw [← UInt8.toNat_inj, UInt8.toNat_ofNat', UInt8.toNat_ofNat', Nat.mod_eq_of_lt inByte, Nat.mod_eq_of_lt inByte']

/-- A lesser character has lesser bytes, whatever follows: its bytes are fewer and begin with a lesser one, or
they are as many, and the first ones that differ hold the leading digits that do. -/
theorem utf8EncodeChar_lt {c d : Char} (less : c < d) (s t : List UInt8) :
    String.utf8EncodeChar c ++ s < String.utf8EncodeChar d ++ t := by
  have codes : c.val.toNat < d.val.toNat := less
  have last : d.val.toNat < 1114112 := by
    have valid : d.val.toNat < 55296 ∨ 57343 < d.val.toNat ∧ d.val.toNat < 1114112 := d.valid
    omega
  -- Each byte holds one digit to the base 64, so quotients are taken one at a time.
  have twice (n : Nat) : n / 4096 = n / 64 / 64 := by omega
  have thrice (n : Nat) : n / 262144 = n / 64 / 64 / 64 := by omega
  simp only [String.utf8EncodeChar, twice, thrice]
  generalize c.val.toNat = m at *
  generalize d.val.toNat = n at *
  split_ifs <;> first
    | omega
    | simp (disch := omega) only [List.cons_append, List.nil_append, List.cons_lt_cons_iff, ofNat_lt_ofNat,
        ofNat_eq_ofNat]
      omega

theorem flatMap_utf8EncodeChar_lt {s t : List Char} (less : s < t) :
    s.flatMap String.utf8EncodeChar < t.flatMap String.utf8EncodeChar := by
  induction less with
  | @nil d t =>
    obtain ⟨byte, bytes, written⟩ := List.exists_cons_of_ne_nil (String.utf8EncodeChar_ne_nil (c := d))
    rw [List.flatMap_cons, written]
    exact List.nil_lt_cons _ _
  | cons _ ih =>
    rw [List.flatMap_cons, List.flatMap_cons]
    exact List.append_left_lt ih
  | rel less =>
    rw [List.flatMap_cons, List.flatMap_cons]
    exact utf8EncodeChar_lt less _ _

theorem utf8_lt {s t : String} (less : s < t) : utf8 s < utf8 t := by
  rw [utf8_eq_flatMap, utf8_eq_flatMap]
  exact flatMap_utf8EncodeChar_lt (String.lt_iff_toList_lt.mp less)

theorem not_utf8_lt {s t : String} (ordered : s ≤ t) : ¬utf8 t < utf8 s := by
  rcases ordered.lt_or_eq with less | rfl
  · exact List.lt_asymm (utf8_lt less)
  · exact List.lt_irrefl _

theorem map_utf8_lt {names names' : List String} (less : names < names') : names.map utf8 < names'.map utf8 := by
  induction less with
  | nil => exact List.nil_lt_cons _ _
  | cons _ ih => exact List.cons_lt_cons_iff.mpr (Or.inr ⟨rfl, ih⟩)
  | rel less => exact List.cons_lt_cons_iff.mpr (Or.inl (utf8_lt less))

/-- Sorting puts things in the order of the keys that they are sorted by. -/
theorem pairwise_mergeSort_of_iff {α κ : Type} [LinearOrder κ] (key : α → κ) {le : α → α → Bool}
    (tells : ∀ a b, le a b ↔ key a ≤ key b) (xs : List α) : (xs.mergeSort le).Pairwise fun a b => key a ≤ key b := by
  refine (List.pairwise_mergeSort (fun a b c left right => ?_) (fun a b => ?_) xs).imp (tells _ _).mp
  · exact (tells a c).mpr (((tells a b).mp left).trans ((tells b c).mp right))
  · exact Bool.or_eq_true_iff.mpr ((le_total (key a) (key b)).imp (tells a b).mpr (tells b a).mpr)

theorem pairwise_mergeSort {α : Type} (key : α → String) (xs : List α) :
    (xs.mergeSort fun a b => !(key b < key a)).Pairwise fun a b => key a ≤ key b :=
  pairwise_mergeSort_of_iff key (fun a b => by rw [Bool.not_eq_true', decide_eq_false_iff_not, String.not_lt]) xs

end JsonAssist.Text
