import JsonAssist.Text.Unprintable

namespace JsonAssist

namespace Quoted

/-- A character by its code point. -/
def codePoint (c : Char) : List Char :=
  ['\\', 'u', '\x7b'] ++ Nat.toDigits 16 c.toNat ++ ['\x7d']

def character (c : Char) : List Char :=
  if c.toNat = 0 then ['\\', '0']
  else if c = '\t' then ['\\', 't']
  else if c = '\r' then ['\\', 'r']
  else if c = '\n' then ['\\', 'n']
  else if c = '"' then ['\\', '"']
  else if c = '\\' then ['\\', '\\']
  else if Text.isUnprintable c then codePoint c
  else [c]

def text (s : String) : String := String.ofList ('"' :: s.toList.flatMap character ++ ['"'])

end Quoted

end JsonAssist
