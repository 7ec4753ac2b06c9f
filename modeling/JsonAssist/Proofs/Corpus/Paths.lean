import JsonAssist.Corpus
import JsonAssist.Proofs.Files.Walk
import JsonAssist.Proofs.Text.Split

namespace JsonAssist

namespace PathText

variable {path name : String}

/-- The parts of a path come from what is behind the slash that makes it absolute. -/
def behind (path : String) : List Char := if isAbsolute path then path.toList.tail else path.toList

theorem parts_eq (path : String) : parts path = (splitOn '/' (behind path)).map String.ofList := rfl

theorem exists_toList (nonempty : path ≠ "") : ∃ c s, path.toList = c :: s :=
  List.exists_cons_of_ne_nil (mt String.toList_eq_nil_iff.mp nonempty)

theorem isAbsolute_append (nonempty : path ≠ "") (name : String) : isAbsolute (path ++ name) = isAbsolute path := by
  obtain ⟨c, s, first⟩ := exists_toList nonempty
  simp [isAbsolute, first]

theorem isAbsolute_of_single (single : '/' ∉ name.toList) : ¬isAbsolute name := by
  simp only [isAbsolute, beq_iff_eq]
  exact fun first => single (List.mem_of_mem_head? (Option.mem_def.mpr first))

theorem behind_append (nonempty : path ≠ "") (name : String) : behind (path ++ name) = behind path ++ name.toList := by
  obtain ⟨c, s, first⟩ := exists_toList nonempty
  rw [behind, behind, isAbsolute_append nonempty]
  split <;> simp [first]

theorem parts_of_single (single : '/' ∉ name.toList) : parts name = [name] := by
  rw [parts_eq, behind, if_neg (isAbsolute_of_single single), splitOn_of_notMem single, List.map_singleton,
    String.ofList_toList]

theorem parts_slash_append (nonempty : path ≠ "") (single : '/' ∉ name.toList) :
    parts (path ++ "/" ++ name) = parts path ++ [name] := by
  have slash : ("/" : String).toList = ['/'] := rfl
  rw [parts_eq, parts_eq, String.append_assoc, behind_append nonempty, String.toList_append, slash,
    List.singleton_append, splitOn_append_mark, splitOn_of_notMem single, List.map_append, List.map_singleton,
    String.ofList_toList]

theorem getLast?_behind (more : behind path ≠ []) : (behind path).getLast? = path.toList.getLast? := by
  rw [behind] at more ⊢
  split
  next absolute =>
    rw [if_pos absolute] at more
    cases whole : path.toList with
    | nil => rw [whole] at more; exact absurd rfl more
    | cons c s =>
      rw [whole] at more
      obtain ⟨d, s', rfl⟩ := List.exists_cons_of_ne_nil more
      rw [List.tail_cons, List.getLast?_cons_cons]
  next => rfl

/-- A name behind a path that ends with a slash comes in the place of an empty one. -/
theorem parts_append (nonempty : path ≠ "") (ends : path.toList.getLast? = some '/') (single : '/' ∉ name.toList) :
    ∃ front, parts path = front ++ [""] ∧ parts (path ++ name) = front ++ [name] := by
  by_cases bare : behind path = []
  · refine ⟨[], ?_, ?_⟩
    · rw [parts_eq, bare]
      rfl
    · rw [parts_eq, behind_append nonempty, bare, List.nil_append, splitOn_of_notMem single, List.map_singleton,
        String.ofList_toList, List.nil_append]
  · obtain ⟨front, whole⟩ := List.getLast?_eq_some_iff.mp ((getLast?_behind bare).trans ends)
    have cut (t : List Char) (without : '/' ∉ t) : splitOn '/' (front ++ '/' :: t) = splitOn '/' front ++ [t] := by
      rw [splitOn_append_mark, splitOn_of_notMem without]
    refine ⟨(splitOn '/' front).map String.ofList, ?_, ?_⟩
    · rw [parts_eq, whole, cut [] List.not_mem_nil]
      simp
    · rw [parts_eq, behind_append nonempty, whole, List.append_assoc, List.singleton_append, cut name.toList single]
      simp

end PathText

namespace Corpus

section Paths

variable {files : Files} {parts parts' parts'' : List String} {path folder name : String} {absolute : Bool}
  {names : List String}

/-- Whether two lists of parts lead the same way if a further part is behind them. -/
def SameWay (files : Files) (parts parts' : List String) : Prop :=
  ∀ links name rest place,
    files.walk links (parts ++ name :: rest) place = files.walk links (parts' ++ name :: rest) place

theorem SameWay.trans (first : SameWay files parts parts') (second : SameWay files parts' parts'') :
    SameWay files parts parts'' :=
  fun links name rest place => (first links name rest place).trans (second links name rest place)

theorem SameWay.symm (same : SameWay files parts parts') : SameWay files parts' parts :=
  fun links name rest place => (same links name rest place).symm

theorem SameWay.concat (same : SameWay files parts parts') (name : String) :
    SameWay files (parts ++ [name]) (parts' ++ [name]) := by
  intro links next rest place
  simpa using same links name (next :: rest) place

/-- An empty part or a dot leads nowhere. -/
theorem sameWay_void (front : List String) {part : String} (void : part = "" ∨ part = ".") :
    SameWay files (front ++ [part]) front := by
  have skip (links : Nat) (name : String) (rest place : List String) :
      files.walk links (part :: name :: rest) place = files.walk links (name :: rest) place := by
    rw [Files.walk]
    split
    next => simp only [Bool.or_eq_true, decide_eq_true_eq, void, if_true]
    next other => rw [Files.walk]; split <;> simp_all
  intro links name rest place
  simp only [List.append_assoc, List.singleton_append, Files.walk_append, skip]

theorem named_dot (name : String) : named "." name = name := if_pos rfl

/-- Behind any other path than a dot comes a name with a slash in front of it, which may be there before. -/
theorem named_eq (nonempty : folder ≠ "") (other : folder ≠ ".") (single : '/' ∉ name.toList) :
    folder.toList.getLast? = some '/' ∧ named folder name = folder ++ name ∨
      named folder name = folder ++ "/" ++ name := by
  rw [named, if_neg other, PathText.join, if_neg (by simp [PathText.isAbsolute_of_single single, nonempty])]
  split
  next ends => exact Or.inl ⟨ends, rfl⟩
  next => exact Or.inr rfl

theorem slash_mem_named (nonempty : folder ≠ "") (other : folder ≠ ".") (single : '/' ∉ name.toList) :
    '/' ∈ (named folder name).toList := by
  rcases named_eq nonempty other single with ⟨ends, whole⟩ | whole
  · simp [whole, List.mem_of_getLast? ends]
  · simp [whole]

/-- A path with a name behind it has that name as its last part, and leads the way of the path there. -/
theorem exists_parts_named (files : Files) (nonempty : folder ≠ "") (single : '/' ∉ name.toList) :
    ∃ front, PathText.parts (named folder name) = front ++ [name] ∧ SameWay files (PathText.parts folder) front := by
  by_cases dot : folder = "."
  · have own : PathText.parts "." = [] ++ ["."] := by decide
    rw [dot, named_dot, own]
    exact ⟨[], PathText.parts_of_single single, sameWay_void [] (Or.inr rfl)⟩
  · rcases named_eq nonempty dot single with ⟨ends, whole⟩ | whole
    · obtain ⟨front, own, next⟩ := PathText.parts_append nonempty ends single
      rw [whole, own]
      exact ⟨front, next, sameWay_void front (Or.inl rfl)⟩
    · rw [whole]
      exact ⟨_, PathText.parts_slash_append nonempty single, fun _ _ _ _ => rfl⟩

/-- Whether a path leads where some parts lead, from the root or from the folder where relative paths begin. -/
structure Leads (files : Files) (path : String) (absolute : Bool) (parts : List String) : Prop where
  nonempty : path ≠ ""
  start : PathText.isAbsolute path = absolute
  clean : '\x00' ∉ path.toList
  way : SameWay files (PathText.parts path) parts

theorem leads_root : Leads files "/" true [] := by
  refine ⟨by decide, by decide, by decide, ?_⟩
  have own : PathText.parts "/" = [] ++ [""] := by decide
  exact own ▸ sameWay_void [] (Or.inl rfl)

theorem leads_dot : Leads files "." false [] := by
  refine ⟨by decide, by decide, by decide, ?_⟩
  have own : PathText.parts "." = [] ++ ["."] := by decide
  exact own ▸ sameWay_void [] (Or.inr rfl)

namespace Leads

theorem walk_named (leads : Leads files path absolute parts) (single : '/' ∉ name.toList) (links : Nat)
    (place : List String) :
    files.walk links (PathText.parts (named path name)) place = files.walk links (parts ++ [name]) place := by
  obtain ⟨front, whole, same⟩ := exists_parts_named files leads.nonempty single
  rw [whole, ← same links name [] place, leads.way links name [] place]

/-- A name leads on, unless it is empty and behind a dot. -/
theorem named (leads : Leads files path absolute parts) (single : '/' ∉ name.toList) (clean : '\x00' ∉ name.toList)
    (given : path = "." → name ≠ "") : Leads files (named path name) absolute (parts ++ [name]) := by
  obtain ⟨front, whole, same⟩ := exists_parts_named files leads.nonempty single
  have way : SameWay files (PathText.parts (Corpus.named path name)) (parts ++ [name]) :=
    whole ▸ (same.symm.trans leads.way).concat name
  by_cases dot : path = "."
  · have relative : PathText.isAbsolute name = PathText.isAbsolute "." := by
      simp [PathText.isAbsolute_of_single single]
      decide
    subst dot
    rw [named_dot] at way ⊢
    exact ⟨given rfl, relative.trans leads.start, clean, way⟩
  · have nonempty : Corpus.named path name ≠ "" := fun empty => by
      simpa [empty] using slash_mem_named leads.nonempty dot single
    rcases named_eq leads.nonempty dot single with ⟨_, join⟩ | join
    · refine ⟨nonempty, ?_, ?_, way⟩
      · rw [join, PathText.isAbsolute_append leads.nonempty, leads.start]
      · simp [join, leads.clean, clean]
    · refine ⟨nonempty, ?_, ?_, way⟩
      · rw [join, String.append_assoc, PathText.isAbsolute_append leads.nonempty, leads.start]
      · simp [join, leads.clean, clean]

theorem foldl_named (leads : Leads files path absolute parts) (isName : ∀ name ∈ names, IsName name) :
    Leads files (names.foldl Corpus.named path) absolute (parts ++ names) := by
  induction names generalizing path parts with
  | nil => simpa using leads
  | cons name names ih =>
    obtain ⟨own, others⟩ := List.forall_mem_cons.mp isName
    simpa using ih (leads.named own.single own.clean fun _ => own.leads.1) others

end Leads

/-- What a part of the path of a folder adds to it; there is nothing that leads on from a dot by an empty name. -/
def baseOn (folder part : String) : Option String :=
  if folder = "." && part = "" then none else some (named folder part)

theorem base?_eq (root : String) :
    base? root = (PathText.parts root).foldlM baseOn (if PathText.isAbsolute root then "/" else ".") := rfl

theorem Leads.foldlM_baseOn {rest : List String} {base : String} (leads : Leads files path absolute parts)
    (clean : ∀ part ∈ rest, '/' ∉ part.toList ∧ '\x00' ∉ part.toList) (based : rest.foldlM baseOn path = some base) :
    Leads files base absolute (parts ++ rest) := by
  induction rest generalizing path parts with
  | nil =>
    obtain rfl : path = base := by simpa using based
    simpa using leads
  | cons part rest ih =>
    obtain ⟨own, others⟩ := List.forall_mem_cons.mp clean
    rw [List.foldlM_cons, baseOn] at based
    split at based
    next => cases based
    next given =>
      have given : path = "." → part ≠ "" := by simpa using given
      simpa using ih (leads.named own.1 own.2 given) others based

theorem single_of_mem_parts (member : name ∈ PathText.parts path) :
    '/' ∉ name.toList ∧ ('\x00' ∉ path.toList → '\x00' ∉ name.toList) := by
  rw [PathText.parts_eq, List.mem_map] at member
  obtain ⟨part, inParts, rfl⟩ := member
  have chars := mem_of_mem_splitOn inParts
  rw [String.toList_ofList]
  refine ⟨fun slash => (chars _ slash).2 rfl, fun clean inPart => clean ?_⟩
  have inBehind := (chars _ inPart).1
  rw [PathText.behind] at inBehind
  split at inBehind
  · exact List.mem_of_mem_tail inBehind
  · exact inBehind

theorem leads_base (files : Files) {root base : String} (clean : '\x00' ∉ root.toList)
    (based : base? root = some base) :
    Leads files base (PathText.isAbsolute root) (PathText.parts root) := by
  have parts : ∀ part ∈ PathText.parts root, '/' ∉ part.toList ∧ '\x00' ∉ part.toList := fun part member =>
    ⟨(single_of_mem_parts member).1, (single_of_mem_parts member).2 clean⟩
  rw [base?_eq] at based
  cases absolute : PathText.isAbsolute root with
  | true =>
    rw [absolute] at based
    exact leads_root.foldlM_baseOn parts based
  | false =>
    rw [absolute] at based
    exact leads_dot.foldlM_baseOn parts based

/-- A path from which no file is found: a relative one that begins with dots and an empty name behind them. -/
def LeadsNowhere (root : String) : Prop :=
  ¬PathText.isAbsolute root ∧ ∃ dots rest, PathText.parts root = List.replicate dots "." ++ "" :: rest

theorem isSome_foldlM_baseOn {rest : List String} (nonempty : path ≠ "") (other : path ≠ ".")
    (single : ∀ part ∈ rest, '/' ∉ part.toList) : (rest.foldlM baseOn path).isSome := by
  induction rest generalizing path with
  | nil => rfl
  | cons part rest ih =>
    obtain ⟨own, others⟩ := List.forall_mem_cons.mp single
    have slash := slash_mem_named nonempty other own
    have given : ¬(path = "." && part = "") := by simp [other]
    rw [List.foldlM_cons, baseOn, if_neg given]
    exact ih (fun empty => by simp [empty] at slash) (fun dot => by simp [dot] at slash) others

theorem foldlM_baseOn_dot {rest : List String} (single : ∀ part ∈ rest, '/' ∉ part.toList) :
    rest.foldlM baseOn "." = none ↔ ∃ dots others, rest = List.replicate dots "." ++ "" :: others := by
  induction rest with
  | nil => simp
  | cons part rest ih =>
    obtain ⟨own, others⟩ := List.forall_mem_cons.mp single
    by_cases empty : part = ""
    · exact iff_of_true (by simp [baseOn, empty]) ⟨0, rest, by simp [empty]⟩
    · have next : (part :: rest).foldlM baseOn "." = rest.foldlM baseOn part := by
        simp [List.foldlM_cons, baseOn, empty, named_dot]
      by_cases dot : part = "."
      · rw [next, dot, ih others]
        constructor
        · rintro ⟨dots, behind, rfl⟩
          exact ⟨dots + 1, behind, rfl⟩
        · rintro ⟨dots, behind, same⟩
          cases dots with
          | zero => simp at same
          | succ dots => exact ⟨dots, behind, by simpa [List.replicate_succ] using same⟩
      · have some := isSome_foldlM_baseOn empty dot others
        rw [next]
        refine iff_of_false (Option.isSome_iff_ne_none.mp some) ?_
        rintro ⟨dots, behind, same⟩
        cases dots with
        | zero => exact empty (List.cons.inj same).1
        | succ dots => exact dot (List.cons.inj same).1

theorem base?_eq_none_iff {root : String} : base? root = none ↔ LeadsNowhere root := by
  have single : ∀ part ∈ PathText.parts root, '/' ∉ part.toList := fun part member => (single_of_mem_parts member).1
  rw [base?_eq, LeadsNowhere]
  cases PathText.isAbsolute root with
  | true =>
    have some := isSome_foldlM_baseOn (by decide : ("/" : String) ≠ "") (by decide) single
    simpa using Option.isSome_iff_ne_none.mp some
  | false => simpa using foldlM_baseOn_dot single

/-- The path of a folder with the names of a file below it behind it leads to that file. -/
theorem find_below {root base : String} {entries : List (String × Entry)} {entry : Entry}
    (found : files.find root = .ok (.folder entries)) (based : base? root = some base) (plain : Plain entries)
    (stands : StandsAt entries names entry) : files.find (names.foldl named base) = .ok entry := by
  obtain ⟨place, left, located, folder⟩ := Files.exists_locate_of_find found
  obtain ⟨clean, walked⟩ := Files.walk_of_locate located
  have isName := plain.isName_of_standsAt stands
  have leads := leads_base files clean based
  have whole := leads.foldl_named isName
  obtain ⟨down, there⟩ := Files.walk_of_standsAt stands plain folder left
  have origin : files.origin (names.foldl named base) = files.origin root := by
    rw [Files.origin, Files.origin, whole.start]
  have onward : files.walk Files.linkLimit (PathText.parts (names.foldl named base)) (files.origin root) =
      .ok (place ++ names, left) := by
    -- The last name is the last part of the path, so that nothing has to follow it.
    obtain ⟨front, last, rfl⟩ := (List.eq_nil_or_concat' names).resolve_left stands.ne_nil
    have before := leads.foldl_named fun name member => isName name (List.mem_append_left _ member)
    rw [List.foldl_append, List.foldl_cons, List.foldl_nil, before.walk_named (isName last (by simp)).single,
      List.append_assoc, Files.walk_append, walked]
    exact down
  exact Files.find_of_walk whole.clean whole.nonempty (origin ▸ onward) there

end Paths

end Corpus

end JsonAssist
