namespace JsonAssist

/-- The parts of a text between the places where a character stands. There is always one. -/
def splitOn (mark : Char) : List Char → List (List Char)
  | [] => [[]]
  | c :: rest =>
    if c = mark then [] :: splitOn mark rest
    else match splitOn mark rest with
      | [] => [[c]]
      | part :: parts => (c :: part) :: parts

/-- The text before the first place where a character stands, and the one behind it. -/
def cutAt (mark : Char) (s : List Char) : List Char × Option (List Char) :=
  (s.takeWhile (· != mark),
    match s.dropWhile (· != mark) with
    | [] => none
    | _ :: rest => some rest)

end JsonAssist
