namespace JsonAssist

namespace Text

/-- Whether `n` lies in one of the ranges, their ends included. -/
def inRanges (ranges : List (Nat × Nat)) (n : Nat) : Bool :=
  ranges.any fun range => range.1 ≤ n && n ≤ range.2

end Text

end JsonAssist
