import JsonAssist.Files.Entry
import JsonAssist.Proofs.Json.Fields

namespace JsonAssist

/-- A name that a file can have: one part of a path, which stands for itself and is not too long. -/
structure IsName (name : String) : Prop where
  leads : name ≠ "" ∧ name ≠ "." ∧ name ≠ ".."
  fits : name.utf8ByteSize ≤ Files.nameLimit
  single : '/' ∉ name.toList
  clean : '\x00' ∉ name.toList

instance (name : String) : Decidable (IsName name) :=
  decidable_of_iff
    ((name ≠ "" ∧ name ≠ "." ∧ name ≠ "..") ∧ name.utf8ByteSize ≤ Files.nameLimit ∧ '/' ∉ name.toList ∧
      '\x00' ∉ name.toList)
    ⟨fun ⟨leads, fits, single, clean⟩ => ⟨leads, fits, single, clean⟩,
      fun isName => ⟨isName.leads, isName.fits, isName.single, isName.clean⟩⟩

/-- A folder without links, also below it, in which every entry has a name of its own. -/
inductive Plain : List (String × Entry) → Prop
  | nil : Plain []
  | file {name : String} {rest : List (String × Entry)} (content : ByteArray) (isName : IsName name)
      (new : name ∉ Fields.names rest) (more : Plain rest) : Plain ((name, .file content) :: rest)
  | folder {name : String} {inner rest : List (String × Entry)} (isName : IsName name)
      (new : name ∉ Fields.names rest) (below : Plain inner) (more : Plain rest) :
      Plain ((name, .folder inner) :: rest)

/-- Whether an entry stands below a folder where some names lead, one behind the other. -/
inductive StandsAt : List (String × Entry) → List String → Entry → Prop
  | here {entries : List (String × Entry)} {name : String} {entry : Entry} (member : (name, entry) ∈ entries) :
      StandsAt entries [name] entry
  | inside {entries inner : List (String × Entry)} {folder : String} {names : List String} {entry : Entry}
      (member : (folder, .folder inner) ∈ entries) (below : StandsAt inner names entry) :
      StandsAt entries (folder :: names) entry

/-- What may stand under a name of such a folder. -/
def Entry.IsPlain : Entry → Prop
  | .file _ => True
  | .link _ => False
  | .folder inner => Plain inner

namespace StandsAt

variable {entries rest : List (String × Entry)} {name : String} {names : List String} {entry own : Entry}

theorem exists_cons (stands : StandsAt entries names entry) :
    ∃ name below, names = name :: below ∧ name ∈ Fields.names entries := by
  cases stands with
  | here member | inside member _ => exact ⟨_, _, rfl, Fields.mem_names_of_mem member⟩

theorem ne_nil (stands : StandsAt entries names entry) : names ≠ [] := by
  obtain ⟨name, below, rfl, _⟩ := stands.exists_cons
  exact List.cons_ne_nil name below

/-- What stands below a folder is its first entry, stands below it, or stands below the rest. -/
theorem cons_iff : StandsAt ((name, own) :: rest) names entry ↔ (names = [name] ∧ own = entry) ∨
    (∃ inner below, own = .folder inner ∧ names = name :: below ∧ StandsAt inner below entry) ∨
      StandsAt rest names entry := by
  constructor
  · rintro (member | ⟨member, below⟩)
    · rcases List.mem_cons.mp member with same | member
      · cases same
        exact Or.inl ⟨rfl, rfl⟩
      · exact Or.inr (Or.inr (.here member))
    · rcases List.mem_cons.mp member with same | member
      · cases same
        exact Or.inr (Or.inl ⟨_, _, rfl, rfl, below⟩)
      · exact Or.inr (Or.inr (.inside member below))
  · rintro (⟨rfl, rfl⟩ | ⟨inner, below, rfl, rfl, stands⟩ | member | ⟨member, below⟩)
    · exact .here List.mem_cons_self
    · exact .inside List.mem_cons_self stands
    · exact .here (List.mem_cons_of_mem _ member)
    · exact .inside (List.mem_cons_of_mem _ member) below

end StandsAt

namespace Plain

attribute [simp] Plain.nil

variable {entries inner rest : List (String × Entry)} {name : String} {names : List String} {entry : Entry}

@[simp] theorem cons_file_iff {content : ByteArray} :
    Plain ((name, .file content) :: rest) ↔ IsName name ∧ name ∉ Fields.names rest ∧ Plain rest :=
  ⟨fun | .file _ isName new more => ⟨isName, new, more⟩, fun ⟨isName, new, more⟩ => .file content isName new more⟩

@[simp] theorem cons_folder_iff :
    Plain ((name, .folder inner) :: rest) ↔ IsName name ∧ name ∉ Fields.names rest ∧ Plain inner ∧ Plain rest :=
  ⟨fun | .folder isName new below more => ⟨isName, new, below, more⟩,
    fun ⟨isName, new, below, more⟩ => .folder isName new below more⟩

theorem of_mem (plain : Plain entries) (member : (name, entry) ∈ entries) : IsName name ∧ entry.IsPlain := by
  induction plain with
  | nil => cases member
  | file content isName _ _ ih =>
    rcases List.mem_cons.mp member with same | later
    · cases same
      exact ⟨isName, trivial⟩
    · exact ih later
  | folder isName _ below _ _ ih =>
    rcases List.mem_cons.mp member with same | later
    · cases same
      exact ⟨isName, below⟩
    · exact ih later

theorem distinct (plain : Plain entries) : (Fields.names entries).Nodup := by
  induction plain with
  | nil => exact List.nodup_nil
  | file _ _ new _ ih | folder _ new _ _ _ ih => exact Fields.nodup_names_cons.mpr ⟨new, ih⟩

theorem isName_of_standsAt (plain : Plain entries) (stands : StandsAt entries names entry) :
    ∀ name ∈ names, IsName name := by
  induction stands with
  | here member => exact List.forall_mem_singleton.mpr (plain.of_mem member).1
  | inside member _ ih => exact List.forall_mem_cons.mpr ⟨(plain.of_mem member).1, ih (plain.of_mem member).2⟩

end Plain

theorem Entry.at?_append (e : Entry) (names names' : List String) :
    e.at? (names ++ names') = (e.at? names).bind fun e' => e'.at? names' := by
  induction names generalizing e with
  | nil => rfl
  | cons name names ih =>
    cases e with
    | folder entries =>
      simp only [List.cons_append, at?, Option.bind_assoc]
      exact congrArg _ (funext fun e' => ih e')
    | file => rfl
    | link => rfl

namespace Files

variable {files : Files} {entries : List (String × Entry)} {names parts place : List String} {name path : String}
  {entry : Entry}

theorem entry?_append (files : Files) (place names : List String) :
    files.entry? (place ++ names) = (files.entry? place).bind fun e => e.at? names :=
  Entry.at?_append _ place names

/-- A path goes on from the place to which its front has led. -/
theorem walk_append (links : Nat) (parts rest place : List String) : files.walk links (parts ++ rest) place =
    (files.walk links parts place).bind fun (place', left) => files.walk left rest place' := by
  fun_induction walk files links parts place <;> simp_all [walk, Except.bind, -Nat.not_lt]

/-- One name leads from a folder to the entry of that name. -/
theorem walk_name (folder : files.entry? place = some (.folder entries)) (isName : IsName name)
    (under : Fields.get? entries name = some entry) (plain : entry.IsPlain) (links : Nat) (rest : List String) :
    files.walk links (name :: rest) place = files.walk links rest (place ++ [name]) := by
  rw [walk, folder]
  simp only [isName.leads, Nat.not_lt.mpr isName.fits, decide_false, Bool.or_false, Bool.false_eq_true, if_false, under]
  cases entry with
  | file | folder => rfl
  | link => exact plain.elim

/-- The names of an entry lead to it from the folder below which it stands. -/
theorem walk_of_standsAt (stands : StandsAt entries names entry) (plain : Plain entries)
    (folder : files.entry? place = some (.folder entries)) (links : Nat) :
    files.walk links names place = .ok (place ++ names, links) ∧ files.entry? (place ++ names) = some entry := by
  induction stands generalizing place with
  | @here entries name entry member =>
    obtain ⟨isName, own⟩ := plain.of_mem member
    have under := Fields.get?_of_mem plain.distinct member
    constructor
    · rw [walk_name folder isName under own, walk]
    · rw [entry?_append, folder]
      simp [Entry.at?, under]
  | @inside entries inner name names entry member _ ih =>
    obtain ⟨isName, own⟩ := plain.of_mem member
    have under := Fields.get?_of_mem plain.distinct member
    have there : files.entry? (place ++ [name]) = some (.folder inner) := by
      rw [entry?_append, folder]
      simp [Entry.at?, under]
    have next := ih own there
    rw [List.append_assoc, List.singleton_append] at next
    exact ⟨(walk_name folder isName under own links names).trans (next.1), next.2⟩

theorem find_of_walk (clean : '\x00' ∉ path.toList) (nonempty : path ≠ "") {left : Nat}
    (walked : files.walk linkLimit (PathText.parts path) (files.origin path) = .ok (place, left))
    (there : files.entry? place = some entry) : files.find path = .ok entry := by
  have located : files.locate path = .ok (place, left) := by
    rw [locate, if_neg (by simpa using clean), if_neg nonempty, walked]
  simp [find, located, there, bind, Except.bind]

theorem exists_locate_of_find (found : files.find path = .ok entry) :
    ∃ place left, files.locate path = .ok (place, left) ∧ files.entry? place = some entry := by
  rw [find] at found
  cases located : files.locate path with
  | error => simp [located, bind, Except.bind] at found
  | ok reached =>
    simp only [located, bind, Except.bind] at found
    cases there : files.entry? reached.1 with
    | none => simp [there] at found
    | some e =>
      obtain rfl : e = entry := by simpa [there] using found
      exact ⟨reached.1, reached.2, rfl, there⟩

theorem walk_of_locate {left : Nat} (located : files.locate path = .ok (place, left)) :
    '\x00' ∉ path.toList ∧
      files.walk linkLimit (PathText.parts path) (files.origin path) = .ok (place, left) := by
  rw [locate] at located
  split at located
  next => cases located
  next clean =>
    split at located
    next => cases located
    next => exact ⟨by simpa using clean, located⟩

/-- A path made of the names of an entry leads to it from the folder where the path begins. -/
theorem find_of_standsAt (stands : StandsAt entries (PathText.parts path) entry) (plain : Plain entries)
    (folder : files.entry? (files.origin path) = some (.folder entries)) (clean : '\x00' ∉ path.toList) :
    files.find path = .ok entry := by
  obtain ⟨walked, there⟩ := walk_of_standsAt stands plain folder linkLimit
  refine find_of_walk clean ?_ walked there
  rintro rfl
  exact (plain.isName_of_standsAt stands "" List.mem_cons_self).leads.1 rfl

/-- The name of the only folder at the top of a tree leads to it. -/
theorem find_top (name : String) {entries : List (String × Entry)} {path : String} (plain : Plain entries)
    (isName : IsName name) (parts : PathText.parts path = [name]) (clean : '\x00' ∉ path.toList) :
    (⟨[(name, .folder entries)], []⟩ : Files).find path = .ok (.folder entries) := by
  have top : Plain [(name, .folder entries)] := .folder isName List.not_mem_nil plain .nil
  refine find_of_standsAt (parts ▸ .here List.mem_cons_self) top ?_ clean
  rw [origin, ite_self]
  rfl

theorem fromUTF8?_toUTF8 (text : String) : String.fromUTF8? text.toUTF8 = some text := dif_pos text.isValidUTF8

theorem readText_of_find {text : String} (found : files.find path = .ok (.file text.toUTF8)) :
    files.readText path = .ok text := by
  simp only [readText, found, bind, Except.bind, fromUTF8?_toUTF8]

end Files

end JsonAssist
