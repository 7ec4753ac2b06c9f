import JsonAssist.Json.Printer
import JsonAssist.Proofs.Json.String

namespace JsonAssist

namespace Reader

section Strings

variable {xs after rest : List Char} {c : Char}

theorem hexValue_hexDigit : ∀ n < 16, hexValue (hexDigit n) = some n := by decide

theorem fourHex_small {n : Nat} (small : n < 32) (after : List Char) :
    fourHex ('0' :: '0' :: hexDigit (n / 16) :: hexDigit (n % 16) :: after) = .ok n := by
  have zero : hexValue '0' = some 0 := by decide
  have read := fourHex_append
    (.mk zero zero (hexValue_hexDigit (n / 16) (by omega)) (hexValue_hexDigit (n % 16) (by omega))) after
  exact read.trans (congrArg Except.ok (by omega))

theorem unicodeEscape_small (small : c.toNat < 32) (after : List Char) :
    unicodeEscape ('0' :: '0' :: hexDigit (c.toNat / 16) :: hexDigit (c.toNat % 16) :: after) = .ok (c, 4) := by
  simp only [unicodeEscape, fourHex_small small after, bind, Except.bind]
  rw [if_neg (by omega), if_pos (by omega), Char.ofNat_toNat]

/-- A character reads back from the text that writes it. -/
theorem stringBody_escapeChar (read : stringBody 0 after = .ok (xs, rest)) (c : Char) :
    stringBody 0 (escapeChar c ++ after) = .ok (c :: xs, rest) := by
  have letter {x mark : Char} (means : escape ([mark] ++ after) = .ok (x, 1)) :
      stringBody 0 ('\\' :: mark :: after) = .ok (x :: xs, rest) := stringBody_escape means read
  unfold escapeChar
  split
  next same =>
    subst same
    exact letter rfl
  split
  next same =>
    subst same
    exact letter rfl
  split
  next same =>
    subst same
    exact letter rfl
  split
  next same =>
    subst same
    exact letter rfl
  split
  next same =>
    subst same
    exact letter rfl
  split
  next code =>
    obtain rfl : c = Char.ofNat _ := (Char.ofNat_toNat c).symm.trans (congrArg Char.ofNat code)
    exact letter rfl
  split
  next code =>
    obtain rfl : c = Char.ofNat _ := (Char.ofNat_toNat c).symm.trans (congrArg Char.ofNat code)
    exact letter rfl
  split
  next small =>
    have means : escape (['u', '0', '0', hexDigit (c.toNat / 16), hexDigit (c.toNat % 16)] ++ after) = .ok (c, 5) := by
      simp [escape, unicodeEscape_small small, bind, Except.bind]
    exact stringBody_escape means read
  next notQuote notBackslash _ _ _ _ _ notSmall =>
    simp [stringBody, notQuote, notBackslash, notSmall, read]

/-- A string reads back from the text between its quotes. -/
theorem stringBody_flatMap (s rest : List Char) :
    stringBody 0 (s.flatMap escapeChar ++ '"' :: rest) = .ok (s, rest) := by
  induction s with
  | nil => simp [stringBody]
  | cons c s ih =>
    rw [List.flatMap_cons, List.append_assoc]
    exact stringBody_escapeChar ih c

theorem string_quoteChars (s : String) (rest : List Char) :
    string (quoteChars s.toList ++ rest) = .ok (s, rest) := by
  have body := stringBody_flatMap s.toList rest
  simp only [quoteChars, List.cons_append, List.append_assoc, List.nil_append, string_quote, body,
    String.ofList_toList]

end Strings

end Reader

end JsonAssist
