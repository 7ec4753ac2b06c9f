import JsonAssist.Text.Split

namespace JsonAssist

namespace Punycode

def digit (d : Nat) : Char := Char.ofNat (if d < 26 then 97 + d else 22 + d)

/-- A digit below this one ends a number at the given place. -/
def threshold (bias place : Nat) : Nat := min 26 (max 1 (place - bias))

theorem threshold_pos (bias place : Nat) : 0 < threshold bias place := by
  rw [threshold]
  omega

/-- A number in digits, the lowest one first. -/
def number (bias place n : Nat) : List Char :=
  let t := threshold bias place
  if n < t then [digit n]
  else digit (t + (n - t) % (36 - t)) :: number bias (place + 36) ((n - t) / (36 - t))
termination_by n
decreasing_by
  have := threshold_pos bias place
  have := Nat.div_le_self (n - threshold bias place) (36 - threshold bias place)
  omega

/-- The bias behind a number that has been made smaller already. -/
def biasOf (place n : Nat) : Nat :=
  if 455 < n then biasOf (place + 36) (n / 35) else place + 36 * n / (n + 38)
termination_by n
decreasing_by exact Nat.div_lt_self (by omega) (by omega)

/-- The state of writing a text. All characters below the code point `next` are written, `count` of them; `skipped` is
the number that is to be written before the next one. -/
structure Writing where
  next : Nat
  count : Nat
  skipped : Nat
  bias : Nat
  output : List Char

namespace Writing

/-- Writes a character if it is the next one. Before the first number only plain characters are written. -/
def step (plain : Nat) (w : Writing) (c : Char) : Writing :=
  if c.toNat < w.next then { w with skipped := w.skipped + 1 }
  else if c.toNat = w.next then
    let count := w.count + 1
    let n := w.skipped / if w.count = plain then 700 else 2
    { w with
      count
      skipped := 0
      bias := biasOf 0 (n + n / count)
      output := w.output ++ number w.bias 36 w.skipped }
  else w

/-- Writes all characters with a code point. -/
def point (s : List Char) (plain : Nat) (w : Writing) (code : Nat) : Writing :=
  let skipped := w.skipped + (code - w.next) * (w.count + 1)
  let w := s.foldl (step plain) { w with next := code, skipped }
  { w with next := code + 1, skipped := w.skipped + 1 }

end Writing

def isPlain (c : Char) : Bool := c.toNat < 128

/-- The plain characters of a text, and behind them numbers that say where which other one stands. -/
def encode (s : List Char) : List Char :=
  let plain := s.filter isPlain
  let codes := ((s.filter fun c => !isPlain c).map Char.toNat).mergeSort.eraseDups
  let start := if plain.isEmpty then [] else plain ++ ['-']
  (codes.foldl (Writing.point s plain.length) ⟨128, plain.length, 0, 72, start⟩).output

/-- A name with its labels in plain characters. -/
def name (s : List Char) : List Char :=
  let label (part : List Char) := if part.all isPlain then part else "xn--".toList ++ encode part
  ['.'].intercalate ((splitOn '.' s).map label)

example : name "www.bücher.de".toList = "www.xn--bcher-kva.de".toList := by decide +kernel

end Punycode

end JsonAssist
