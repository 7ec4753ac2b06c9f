import JsonAssist.Text.Alphanumeric
import JsonAssist.Text.Bytes

namespace JsonAssist

namespace Text

def isWordChar (c : Char) : Bool := isAlphanumeric c || c == '_'

/-- The byte range of the word that touches a byte offset. -/
def wordAt (text : String) (offset : Nat) : Option (Nat × Nat) :=
  (splitAtByte? offset text.toList).bind fun (before, after) =>
    let start := offset - byteLength (before.takeWhile isWordChar)
    let stop := offset + byteLength (after.takeWhile isWordChar)
    if start < stop then some (start, stop) else none

end Text

end JsonAssist
