import JsonAssist.Proofs.Json.Grammar
import JsonAssist.Proofs.Text.Columns

namespace JsonAssist

namespace Reader

open Grammar

variable {hex s p xs after rest : List Char} {c x : Char} {n : Nat}

theorem isHex_of_fourHex (read : fourHex s = .ok n) : IsHex (s.take 4) n := by
  unfold fourHex at read
  split at read
  · exact nomatch read
  split at read
  next a b c d t =>
    split at read
    next p q r t first second third fourth =>
      obtain rfl := Except.ok.inj read
      exact .mk first second third fourth
    next => exact nomatch read
  next => exact nomatch read

theorem fourHex_append (isHex : IsHex hex n) (rest : List Char) : fourHex (hex ++ rest) = .ok n := by
  cases isHex with
  | @mk a b c d p q r t first second third fourth =>
    have long := length_le_byteLength (a :: b :: c :: d :: rest)
    simp only [List.length_cons] at long
    simp only [List.cons_append, List.nil_append]
    rw [fourHex, if_neg (by omega)]
    simp only [first, second, third, fourth]

theorem drop_hex (isHex : IsHex hex n) (rest : List Char) : (hex ++ rest).drop 4 = rest :=
  List.drop_left' isHex.length_eq

theorem exists_of_bind_eq_ok {ε α β : Type} {e : Except ε α} {f : α → Except ε β} {y : β}
    (done : (e >>= f) = .ok y) : ∃ x, e = .ok x ∧ f x = .ok y := by
  cases e with
  | error e => exact nomatch done
  | ok x => exact ⟨x, rfl, done⟩

theorem isPiece_of_unicodeEscape (read : unicodeEscape s = .ok (x, n)) : IsPiece ('\\' :: 'u' :: s.take n) := by
  obtain ⟨code, taken, read⟩ := exists_of_bind_eq_ok read
  have isHex := isHex_of_fourHex taken
  dsimp only at read
  split at read
  · exact nomatch read
  next notLow =>
    split at read
    next plain =>
      obtain rfl := (Prod.mk.inj (Except.ok.inj read)).2
      exact .code isHex (by omega)
    next high =>
      split at read
      iterate 2 exact nomatch read
      next low behind =>
        obtain ⟨code', takenLow, read⟩ := exists_of_bind_eq_ok read
        split at read
        · exact nomatch read
        next low' =>
          obtain rfl := (Prod.mk.inj (Except.ok.inj read)).2
          have both : s.take 10 = s.take 4 ++ '\\' :: 'u' :: low.take 4 := by
            rw [show 10 = 4 + 6 from rfl, List.take_add, behind]
            rfl
          rw [both]
          exact .surrogates isHex (by omega) (isHex_of_fourHex takenLow) (by omega)
      iterate 2 exact nomatch read

theorem isPiece_of_escape (read : escape s = .ok (x, n)) : IsPiece ('\\' :: s.take n) := by
  cases s with
  | nil => exact nomatch read
  | cons c s =>
    have short (known : c ∈ ['"', '\\', '/', 'b', 'f', 'n', 'r', 't']) {y : Char}
        (read : (.ok (y, 1) : Except Fault (Char × Nat)) = .ok (x, n)) : IsPiece ('\\' :: (c :: s).take n) := by
      obtain rfl := (Prod.mk.inj (Except.ok.inj read)).2
      exact .short known
    rw [escape] at read
    split at read
    next known => exact short (by rcases known with rfl | rfl | rfl <;> decide) read
    iterate 5
      split at read
      next known => exact short (by rw [known]; decide) read
    split at read
    next known =>
      obtain ⟨⟨y, m⟩, taken, read⟩ := exists_of_bind_eq_ok read
      obtain rfl := (Prod.mk.inj (Except.ok.inj read)).2
      rw [known, List.take_succ_cons]
      exact isPiece_of_unicodeEscape taken
    next => exact nomatch read

/-- The text of a string is pieces and a quote. -/
theorem exists_of_stringBody {skip : Nat} (read : stringBody skip s = .ok (xs, rest)) :
    ∃ pieces : List (List Char), (∀ p ∈ pieces, IsPiece p) ∧ s.drop skip = pieces.flatten ++ '"' :: rest := by
  -- Behind a backslash the characters of the escape are still in the text, so this is about what is left without them.
  induction s generalizing skip xs with
  | nil => cases skip <;> exact nomatch read
  | cons c s ih =>
    cases skip with
    | succ skip => exact ih read
    | zero =>
      rw [stringBody] at read
      split at read
      next quote =>
        cases read
        exact ⟨[], nofun, by rw [quote]; rfl⟩
      next notQuote =>
        split at read
        next backslash =>
          split at read
          · exact nomatch read
          next x n means =>
            split at read
            · exact nomatch read
            next ys left readOn =>
              cases read
              obtain ⟨pieces, each, split⟩ := ih readOn
              refine ⟨('\\' :: s.take n) :: pieces,
                List.forall_mem_cons.mpr ⟨isPiece_of_escape means, each⟩, ?_⟩
              rw [List.flatten_cons, List.append_assoc, ← split, List.cons_append, List.take_append_drop, backslash]
              rfl
        next notBackslash =>
          split at read
          · exact nomatch read
          next printable =>
            split at read
            · exact nomatch read
            next ys left readOn =>
              cases read
              obtain ⟨pieces, each, split⟩ := ih readOn
              refine ⟨[c] :: pieces,
                List.forall_mem_cons.mpr ⟨.plain notQuote notBackslash (Nat.not_lt.mp printable), each⟩, ?_⟩
              exact congrArg (c :: ·) split

theorem string_quote (s : List Char) : string ('"' :: s) =
    match stringBody 0 s with
    | .ok (xs, rest) => .ok (String.ofList xs, rest)
    | .error e => .error e := rfl

/-- What is read as a string is one of the grammar. -/
theorem exists_of_string {name : String} (read : string ('"' :: s) = .ok (name, rest)) :
    ∃ used, IsString used ∧ '"' :: s = used ++ rest := by
  rw [string_quote] at read
  split at read
  next xs left readOn =>
    cases read
    obtain ⟨pieces, each, split⟩ := exists_of_stringBody readOn
    exact ⟨_, .mk each, by rw [List.cons_append, List.append_assoc]; exact congrArg ('"' :: ·) split⟩
  next => exact nomatch read

theorem stringBody_skip (used rest : List Char) : stringBody used.length (used ++ rest) = stringBody 0 rest := by
  induction used with
  | nil => rfl
  | cons c used ih => exact ih

theorem stringBody_escape {used : List Char} (means : escape (used ++ rest) = .ok (c, used.length))
    (read : stringBody 0 rest = .ok (xs, after)) : stringBody 0 ('\\' :: (used ++ rest)) = .ok (c :: xs, after) := by
  simp [stringBody, means, stringBody_skip, read]

theorem exists_stringBody_piece (piece : IsPiece p) : ∃ x, ∀ rest xs after,
    stringBody 0 rest = .ok (xs, after) → stringBody 0 (p ++ rest) = .ok (x :: xs, after) := by
  cases piece with
  | @plain c notQuote notBackslash printable =>
    exact ⟨c, fun _ _ _ read => by simp [stringBody, notQuote, notBackslash, Nat.not_lt.mpr printable, read]⟩
  | @short c known =>
    have letter {x : Char} (means : ∀ rest, escape (c :: rest) = .ok (x, 1)) : ∃ x, ∀ rest xs after,
        stringBody 0 rest = .ok (xs, after) → stringBody 0 (['\\', c] ++ rest) = .ok (x :: xs, after) :=
      ⟨x, fun rest _ _ read => stringBody_escape (means rest : escape ([c] ++ rest) = _) read⟩
    simp only [List.mem_cons, List.not_mem_nil, or_false] at known
    rcases known with rfl | rfl | rfl | rfl | rfl | rfl | rfl | rfl <;> exact letter fun _ => rfl
  | @code hex n isHex whole =>
    have means (rest : List Char) : escape ('u' :: hex ++ rest) = .ok (Char.ofNat n, hex.length + 1) := by
      have own : unicodeEscape (hex ++ rest) = .ok (Char.ofNat n, 4) := by
        simp only [unicodeEscape, fourHex_append isHex, bind, Except.bind]
        rw [if_neg (by omega), if_pos (by omega)]
      simp [escape, own, isHex.length_eq, bind, Except.bind]
    exact ⟨_, fun rest _ _ read => stringBody_escape (means rest) read⟩
  | @surrogates high low n m isHigh first isLow second =>
    have means (rest : List Char) : escape ('u' :: (high ++ '\\' :: 'u' :: low) ++ rest) =
        .ok (Char.ofNat ((n - 0xD800) * 0x400 + (m - 0xDC00) + 0x10000), (high ++ '\\' :: 'u' :: low).length + 1) := by
      have own : unicodeEscape (high ++ '\\' :: 'u' :: (low ++ rest)) =
          .ok (Char.ofNat ((n - 0xD800) * 0x400 + (m - 0xDC00) + 0x10000), 10) := by
        simp only [unicodeEscape, fourHex_append isHigh, bind, Except.bind]
        rw [if_neg (by omega), if_neg (by omega), drop_hex isHigh]
        simp only [fourHex_append isLow]
        rw [if_neg (by omega)]
      simp [escape, own, isHigh.length_eq, isLow.length_eq, bind, Except.bind]
    exact ⟨_, fun rest _ _ read => stringBody_escape (means rest) read⟩

theorem exists_string (form : IsString s) : ∃ name, ∀ rest, string (s ++ rest) = .ok (name, rest) := by
  cases form with
  | @mk pieces each =>
    have body : ∃ xs, ∀ rest, stringBody 0 (pieces.flatten ++ '"' :: rest) = .ok (xs, rest) := by
      induction pieces with
      | nil => exact ⟨[], fun rest => rfl⟩
      | cons p pieces ih =>
        obtain ⟨piece, others⟩ := List.forall_mem_cons.mp each
        obtain ⟨xs, read⟩ := ih others
        obtain ⟨x, first⟩ := exists_stringBody_piece piece
        exact ⟨x :: xs, fun rest => by rw [List.flatten_cons, List.append_assoc]; exact first _ _ _ (read rest)⟩
    obtain ⟨xs, read⟩ := body
    refine ⟨String.ofList xs, fun rest => ?_⟩
    rw [List.cons_append, List.append_assoc, string_quote, List.singleton_append, read]

end Reader

end JsonAssist
