import JsonAssist.Text.Bytes

namespace JsonAssist

namespace Text

/-- Line feed, vertical tab, form feed, carriage return, next line, and the line and paragraph
separators. -/
def isLineBreak (c : Char) : Bool :=
  0x0A ≤ c.toNat && c.toNat ≤ 0x0D || c.toNat = 0x85 || c.toNat = 0x2028 || c.toNat = 0x2029

/-- The lines of a text, each with the break at its end. A carriage return and a line feed behind
it are one break. The last line has none and may be empty. -/
def lines : List Char → List (List Char)
  | [] => [[]]
  | c :: rest =>
    let more := lines rest
    if isLineBreak c && !(c == '\r' && rest.head? == some '\n') then [c] :: more
    else
      match more with
      | line :: others => (c :: line) :: others
      | [] => [[c]]

/-- A line without the carriage return and the line feed at its end. -/
def stripLine (line : List Char) : List Char :=
  (line.reverse.dropWhile fun c => c == '\n' || c == '\r').reverse

/-- The number of UTF-16 units of a character. -/
def units16 (c : Char) : Nat := if c.toNat < 0x10000 then 1 else 2

/-- The bytes of as many whole characters as fit the given number of UTF-16 units. -/
def bytesWithin : (units : Nat) → List Char → Nat
  | _, [] => 0
  | units, c :: rest =>
    if units16 c ≤ units then c.utf8Size + bytesWithin (units - units16 c) rest else 0

/-- The UTF-16 units of as many whole characters as fit the given number of bytes. -/
def unitsWithin : (bytes : Nat) → List Char → Nat
  | _, [] => 0
  | bytes, c :: rest =>
    if c.utf8Size ≤ bytes then units16 c + unitsWithin (bytes - c.utf8Size) rest else 0

end Text

/-- A place in a text: both parts count from zero. -/
structure Position where
  line : Nat
  column : Nat
  deriving DecidableEq, Repr

namespace Position

/-- The byte offset of a position in the lines of a text. A column past the end of its line stands
for that end, a line past the last one for the end of the text. -/
def offsetIn : (lines : List (List Char)) → Position → Nat
  | [], _ => 0
  | line :: _, ⟨0, column⟩ => Text.bytesWithin column (Text.stripLine line)
  | line :: rest, ⟨n + 1, column⟩ => byteLength line + offsetIn rest ⟨n, column⟩

/-- The byte offset of a position. -/
def offset (text : String) (p : Position) : Nat := offsetIn (Text.lines text.toList) p

/-- The position of a byte offset in the lines of a text. -/
def ofOffsetIn : (lines : List (List Char)) → (offset : Nat) → Position
  | [], _ => ⟨0, 0⟩
  | [line], offset => ⟨0, Text.unitsWithin offset line⟩
  | line :: next :: rest, offset =>
    if offset < byteLength line then ⟨0, Text.unitsWithin offset line⟩
    else
      let p := ofOffsetIn (next :: rest) (offset - byteLength line)
      ⟨p.line + 1, p.column⟩

/-- The position of a byte offset. An offset inside a character stands for its start, one past the
end for the end. -/
def ofOffset (text : String) (offset : Nat) : Position :=
  ofOffsetIn (Text.lines text.toList) offset

end Position

end JsonAssist
