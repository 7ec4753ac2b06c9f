namespace JsonAssist

/-- The number of bytes that the characters take in UTF-8. -/
def byteLength (s : List Char) : Nat := (s.map Char.utf8Size).foldr (· + ·) 0

/-- The characters before a byte offset, the nearest first, and those behind it; none if the offset
is past the end or inside a character. -/
def splitAtByte? : (offset : Nat) → List Char → Option (List Char × List Char)
  | offset, s => go offset [] s
where
  go : Nat → List Char → List Char → Option (List Char × List Char)
    | 0, before, after => some (before, after)
    | _ + 1, _, [] => none
    | offset + 1, before, c :: after =>
      if c.utf8Size ≤ offset + 1 then go (offset + 1 - c.utf8Size) (c :: before) after else none

/-- The part of a text between two byte offsets; empty unless both lie between characters. -/
def sliceText (text : String) (start stop : Nat) : String :=
  let a : String.Pos.Raw := ⟨start⟩
  let b : String.Pos.Raw := ⟨stop⟩
  if start ≤ stop && a.isValid text && b.isValid text then a.extract text b else ""

end JsonAssist
