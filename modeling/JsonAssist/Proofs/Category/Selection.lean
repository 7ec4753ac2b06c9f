import Mathlib.Data.List.Forall2
import JsonAssist.Category.Stored
import JsonAssist.Proofs.Files.Walk

namespace JsonAssist

theorem occursIn_iff {part s : List Char} : occursIn part s ↔ part <:+: s := by
  induction s with
  | nil => simp [occursIn]
  | cons c rest ih => rw [occursIn, Bool.or_eq_true, List.isPrefixOf_iff_prefix, ih, List.infix_cons_iff]

/-- Whether a pattern stands in a path with slashes for separators. -/
def Occurs (pattern path : String) : Prop := pattern.toList <:+: withSlashes path

def IsSeparator (c : Char) : Prop := c = '/' ∨ c = '\\'

/-- Whether two paths differ only in which separators they have. -/
def SameNames (path path' : String) : Prop :=
  List.Forall₂ (fun a b => a = b ∨ IsSeparator a ∧ IsSeparator b) path.toList path'.toList

theorem withSlashes_of_sameNames {path path' : String} (same : SameNames path path') :
    withSlashes path = withSlashes path' := by
  have slash {c : Char} (separates : IsSeparator c) : (if c = '\\' then '/' else c) = '/' := by
    rcases separates with rfl | rfl <;> rfl
  rw [withSlashes, withSlashes, ← List.forall₂_eq_eq_eq, List.forall₂_map_left_iff, List.forall₂_map_right_iff]
  refine same.imp fun a b alike => ?_
  rcases alike with rfl | ⟨left, right⟩
  · rfl
  · rw [slash left, slash right]

namespace Registry

variable {registry : Registry} {path : String}

/-- A category whose pattern stands in a path, behind others whose patterns do not. -/
def FirstFit (registry : Registry) (path : String) (c : Category) : Prop :=
  ∃ before after, registry = before ++ c :: after ∧ Occurs c.pattern path ∧ ∀ b ∈ before, ¬Occurs b.pattern path

theorem select_eq_some_iff {c : Category} : registry.select path = some c ↔ registry.FirstFit path c := by
  simp only [select, List.find?_eq_some_iff_append, Bool.not_eq_true', ← Bool.not_eq_true, occursIn_iff]
  constructor
  · rintro ⟨fits, before, after, split, others⟩
    exact ⟨before, after, split, fits, others⟩
  · rintro ⟨before, after, split, fits, others⟩
    exact ⟨fits, before, after, split, others⟩

theorem select_eq_none_iff : registry.select path = none ↔ ∀ c ∈ registry, ¬Occurs c.pattern path := by
  simp only [select, List.find?_eq_none, occursIn_iff, Occurs]

theorem select_of_sameNames {path' : String} (same : SameNames path path') :
    registry.select path = registry.select path' := by
  rw [select, select, withSlashes_of_sameNames same]

end Registry

/-- The rows of the table that holds for a folder, and what there is to say about its file: those of the file if it
is there and can be loaded, else the built-in ones. -/
inductive TableOf (files : Files) (folder : String) : List CategoryRow → List Notice → Prop
  | stored {rows : List CategoryRow} (there : files.isFile (PathText.join folder tableName))
      (loads : files.load loadTable (PathText.join folder tableName) = .ok rows) : TableOf files folder rows []
  | broken {e : SourceError} (there : files.isFile (PathText.join folder tableName))
      (fails : files.load loadTable (PathText.join folder tableName) = .error e) :
      TableOf files folder builtInTable [.builtInTable e]
  | absent (missing : ¬files.isFile (PathText.join folder tableName)) : TableOf files folder builtInTable []

theorem tableOf_storedTable (files : Files) (folder : String) :
    TableOf files folder (storedTable files folder).1 (storedTable files folder).2 := by
  rw [storedTable]
  split
  next there =>
    cases loaded : files.load loadTable (PathText.join folder tableName) with
    | ok rows => exact .stored there loaded
    | error e => exact .broken there loaded
  next missing => exact .absent missing

namespace CategoryRow

/-- Whether the schema of a row can be loaded. -/
def loads (files : Files) (folder : String) (row : CategoryRow) : Bool := (row.load files folder).toOption.isSome

/-- The category of a row: its pattern, the name of its file, and the forest in that file. -/
structure Gives (files : Files) (folder : String) (row : CategoryRow) (c : Category) : Prop where
  pattern : c.pattern = row.pattern
  name : c.name = row.name
  forest : files.load Forest.load (PathText.join folder row.schema) = .ok c.forest

/-- The warning about a row whose schema cannot be loaded. -/
def WarnsOf (files : Files) (folder : String) (row : CategoryRow) (notice : Notice) : Prop :=
  ∃ e, files.load Forest.load (PathText.join folder row.schema) = .error e ∧ notice = .skippedCategory row.pattern e

variable {files : Files} {folder : String} {row : CategoryRow} {c : Category}

theorem toOption_load_eq_some_iff : (row.load files folder).toOption = some c ↔ row.Gives files folder c := by
  unfold load
  cases loaded : files.load Forest.load (PathText.join folder row.schema) with
  | ok forest =>
    constructor
    · rintro ⟨⟩
      exact ⟨rfl, rfl, loaded⟩
    · rintro ⟨pattern, name, own⟩
      obtain rfl : forest = c.forest := Except.ok.inj (loaded.symm.trans own)
      rw [← pattern, ← name]
      rfl
  | error e =>
    constructor
    · rintro ⟨⟩
    · rintro ⟨_, _, own⟩
      cases loaded.symm.trans own

theorem Gives.unique {c' : Category} (gives : row.Gives files folder c) (gives' : row.Gives files folder c') : c = c' :=
  Option.some.inj ((toOption_load_eq_some_iff.mpr gives).symm.trans (toOption_load_eq_some_iff.mpr gives'))

theorem loads_eq (row : CategoryRow) : row.loads files folder = (row.load files folder).toOption.isSome := rfl

theorem exists_of_loads (loaded : row.loads files folder) : ∃ c, row.Gives files folder c := by
  obtain ⟨c, gives⟩ := Option.isSome_iff_exists.mp loaded
  exact ⟨c, toOption_load_eq_some_iff.mp gives⟩

theorem Gives.loads (gives : row.Gives files folder c) : row.loads files folder := by
  unfold CategoryRow.loads
  rw [toOption_load_eq_some_iff.mpr gives]
  rfl

/-- What there is to say about a row. -/
def warning? (files : Files) (folder : String) (row : CategoryRow) : Option Notice :=
  match row.load files folder with
  | .ok _ => none
  | .error e => some (.skippedCategory row.pattern e)

theorem not_loads (row : CategoryRow) : (!row.loads files folder) = (row.warning? files folder).isSome := by
  unfold loads warning?
  cases row.load files folder <;> rfl

theorem warning?_eq_some_iff {notice : Notice} :
    row.warning? files folder = some notice ↔ row.WarnsOf files folder notice := by
  unfold warning? load WarnsOf
  cases files.load Forest.load (PathText.join folder row.schema) with
  | ok forest => simp
  | error e => simp [eq_comm]

end CategoryRow

/-- What is made of the elements of a list, in the order of those of which something is made. -/
theorem forall₂_filterMap {α β : Type} {f : α → Option β} {p : α → Bool} (made : ∀ x, p x = (f x).isSome)
    (xs : List α) : List.Forall₂ (fun x y => f x = some y) (xs.filter p) (xs.filterMap f) := by
  induction xs with
  | nil => exact .nil
  | cons x xs ih =>
    cases value : f x with
    | none => simpa [made, value] using ih
    | some y => simpa [made, value] using ih

namespace Registry

variable {files : Files} {folder : String}

theorem categories_load : (Registry.load files folder).1 =
    (storedTable files folder).1.filterMap fun row => (row.load files folder).toOption := by
  unfold Registry.load
  cases storedTable files folder
  rfl

theorem notices_load : (Registry.load files folder).2 = (storedTable files folder).2 ++
    (storedTable files folder).1.filterMap (CategoryRow.warning? files folder) := by
  unfold Registry.load
  cases storedTable files folder
  rfl

theorem forall₂_gives (files : Files) (folder : String) :
    List.Forall₂ (CategoryRow.Gives files folder)
      ((storedTable files folder).1.filter (CategoryRow.loads files folder)) (Registry.load files folder).1 := by
  rw [categories_load]
  exact (forall₂_filterMap (fun row => CategoryRow.loads_eq row) _).imp fun _ _ =>
    CategoryRow.toOption_load_eq_some_iff.mp

theorem forall₂_warnsOf (rows : List CategoryRow) : List.Forall₂ (CategoryRow.WarnsOf files folder)
    (rows.filter fun row => !row.loads files folder) (rows.filterMap (CategoryRow.warning? files folder)) := by
  exact (forall₂_filterMap CategoryRow.not_loads rows).imp fun _ _ => CategoryRow.warning?_eq_some_iff.mp

/-- The row counts whose category is the first one to fit, also among rows whose schemas cannot be loaded. -/
theorem select_of_row {path : String} {before after : List CategoryRow} {row : CategoryRow} {c : Category}
    (split : (storedTable files folder).1 = before ++ row :: after) (gives : row.Gives files folder c)
    (occurs : Occurs row.pattern path)
    (others : ∀ r ∈ before, r.loads files folder → ¬Occurs r.pattern path) :
    (Registry.load files folder).1.select path = some c := by
  rw [select_eq_some_iff]
  refine ⟨before.filterMap fun r => (r.load files folder).toOption,
    after.filterMap fun r => (r.load files folder).toOption, ?_, gives.pattern ▸ occurs, fun b member => ?_⟩
  · rw [categories_load, split, List.filterMap_append, List.filterMap_cons_some]
    exact CategoryRow.toOption_load_eq_some_iff.mpr gives
  · obtain ⟨r, inBefore, made⟩ := List.mem_filterMap.mp member
    have given := CategoryRow.toOption_load_eq_some_iff.mp made
    exact given.pattern ▸ others r inBefore given.loads

end Registry

/-- A folder with the table of another one, in which schemas may be missing or broken that the other one has. -/
structure Lost (files damaged : Files) (folder : String) : Prop where
  table : (storedTable damaged folder).1 = (storedTable files folder).1
  kept : ∀ row ∈ (storedTable files folder).1, ∀ c, row.Gives damaged folder c → row.Gives files folder c

theorem filterMap_sublist_filterMap {α β : Type} {f g : α → Option β} {xs : List α}
    (kept : ∀ x ∈ xs, ∀ y, f x = some y → g x = some y) : (xs.filterMap f).Sublist (xs.filterMap g) := by
  induction xs with
  | nil => exact .slnil
  | cons x xs ih =>
    obtain ⟨first, others⟩ := List.forall_mem_cons.mp kept
    cases value : f x with
    | none =>
      rw [List.filterMap_cons_none value]
      exact (ih others).trans ((List.sublist_cons_self x xs).filterMap g)
    | some y =>
      rw [List.filterMap_cons_some value, List.filterMap_cons_some (first y value)]
      exact (ih others).cons_cons y

namespace Lost

variable {files damaged : Files} {folder : String}

theorem sublist (lost : Lost files damaged folder) :
    (Registry.load damaged folder).1.Sublist (Registry.load files folder).1 := by
  rw [Registry.categories_load, Registry.categories_load, lost.table]
  refine filterMap_sublist_filterMap fun row member c made => ?_
  exact CategoryRow.toOption_load_eq_some_iff.mpr
    (lost.kept row member c (CategoryRow.toOption_load_eq_some_iff.mp made))

/-- The row that counted before still counts if its schema is not among those lost. -/
theorem select_eq (lost : Lost files damaged folder) {path : String} {before after : List CategoryRow}
    {row : CategoryRow} {c : Category} (split : (storedTable files folder).1 = before ++ row :: after)
    (gives : row.Gives damaged folder c) (occurs : Occurs row.pattern path)
    (others : ∀ r ∈ before, r.loads files folder → ¬Occurs r.pattern path) :
    (Registry.load files folder).1.select path = some c ∧
      (Registry.load damaged folder).1.select path = some c := by
  have inTable {r : CategoryRow} (member : r ∈ before ++ [row]) : r ∈ (storedTable files folder).1 := by
    rw [split, List.append_cons]
    exact List.mem_append_left after member
  refine ⟨Registry.select_of_row split (lost.kept row (inTable (by simp)) c gives) occurs others,
    Registry.select_of_row (lost.table.trans split) gives occurs fun r inBefore loaded => ?_⟩
  obtain ⟨c', gives'⟩ := CategoryRow.exists_of_loads loaded
  exact others r inBefore (lost.kept r (inTable (List.mem_append_left _ inBefore)) c' gives').loads

end Lost

theorem severity_of_warnsOf {files : Files} {folder : String} {rows : List CategoryRow} {warnings : List Notice}
    (warns : List.Forall₂ (CategoryRow.WarnsOf files folder) rows warnings) :
    ∀ notice ∈ warnings, notice.severity = .warning := by
  induction warns with
  | nil => exact nofun
  | cons first _ ih =>
    obtain ⟨_, _, rfl⟩ := first
    exact List.forall_mem_cons.mpr ⟨rfl, ih⟩

theorem TableOf.severity {files : Files} {folder : String} {rows : List CategoryRow} {notices : List Notice}
    (table : TableOf files folder rows notices) : ∀ notice ∈ notices, notice.severity = .warning := by
  cases table with
  | stored => exact nofun
  | broken => exact List.forall_mem_singleton.mpr rfl
  | absent => exact nofun

/-- A folder of schemas holds one category for each row of its table whose schema can be loaded, in the order of the
rows, and there is one warning for each of the others, behind the one about a broken table. Of these categories
the first one is selected whose pattern stands in the path of a document, whatever separators the path has, and
none is if there is no such pattern. When schemas are lost, the others are left in their order, and the category of
a row that is left is selected where it was before. -/
theorem load_selects (files : Files) (folder : String) :
    let rows := (storedTable files folder).1
    let registry := (Registry.load files folder).1
    TableOf files folder rows (storedTable files folder).2 ∧
      List.Forall₂ (CategoryRow.Gives files folder) (rows.filter (CategoryRow.loads files folder)) registry ∧
      (∃ warnings, (Registry.load files folder).2 = (storedTable files folder).2 ++ warnings ∧
        List.Forall₂ (CategoryRow.WarnsOf files folder) (rows.filter fun row => !row.loads files folder) warnings) ∧
      (∀ notice ∈ (Registry.load files folder).2, notice.severity = .warning) ∧
      (∀ path c, registry.select path = some c ↔ registry.FirstFit path c) ∧
      (∀ path, registry.select path = none ↔ ∀ c ∈ registry, ¬Occurs c.pattern path) ∧
      (∀ path path', SameNames path path' → registry.select path = registry.select path') ∧
      ∀ damaged, Lost files damaged folder →
        (Registry.load damaged folder).1.Sublist registry ∧
          ∀ path before row after, rows = before ++ row :: after → Occurs row.pattern path →
            (∀ r ∈ before, r.loads files folder → ¬Occurs r.pattern path) → row.loads damaged folder →
            ∃ c, row.Gives files folder c ∧ registry.select path = some c ∧
              (Registry.load damaged folder).1.select path = some c := by
  intro rows registry
  have table := tableOf_storedTable files folder
  have warns : List.Forall₂ (CategoryRow.WarnsOf files folder) _ _ := Registry.forall₂_warnsOf rows
  refine ⟨table, Registry.forall₂_gives files folder, ⟨_, Registry.notices_load, warns⟩, ?_,
    fun path c => Registry.select_eq_some_iff, fun path => Registry.select_eq_none_iff,
    fun path path' same => Registry.select_of_sameNames same, fun damaged lost => ⟨lost.sublist, ?_⟩⟩
  · rw [Registry.notices_load]
    exact List.forall_mem_append.mpr ⟨table.severity, severity_of_warnsOf warns⟩
  · intro path before row after split occurs others loaded
    obtain ⟨c, gives⟩ := CategoryRow.exists_of_loads loaded
    have inTable : row ∈ rows := split ▸ List.mem_append_right before List.mem_cons_self
    obtain ⟨first, second⟩ := lost.select_eq split gives occurs others
    exact ⟨c, lost.kept row inTable c gives, first, second⟩

/-- A table of two categories. -/
def twoRows : String :=
  "[\x7b\"pattern\": \"C\", \"schema\": \"c\"\x7d, \x7b\"pattern\": \"A/B\", \"schema\": \"b\"\x7d]"

/-- A folder with that table and two schemas, the second of which is empty. -/
def twoSchemas (first : String) : Files :=
  ⟨[("s", .folder [(tableName, .file twoRows.toUTF8), ("c", .file first.toUTF8), ("b", .file "\x7b\x7d".toUTF8)])], []⟩

/-- What the paths of the files in that folder lead to. -/
theorem find_twoSchemas (first name : String) {path : String} {content : ByteArray}
    (parts : PathText.parts path = ["s", name]) (clean : '\x00' ∉ path.toList)
    (member : (name, Entry.file content) ∈
      [(tableName, Entry.file twoRows.toUTF8), ("c", .file first.toUTF8), ("b", .file "\x7b\x7d".toUTF8)]) :
    (twoSchemas first).find path = .ok (.file content) := by
  have isName : IsName "s" ∧ IsName tableName ∧ IsName "c" ∧ IsName "b" := by decide
  have other : tableName ≠ "c" ∧ tableName ≠ "b" := by decide
  have plain : Plain (twoSchemas first).entries := by simp [twoSchemas, isName, other]
  have stands : StandsAt (twoSchemas first).entries (PathText.parts path) (.file content) :=
    parts ▸ .inside List.mem_cons_self (.here member)
  exact Files.find_of_standsAt stands plain (by rw [Files.origin]; split <;> rfl) clean

theorem storedTable_twoSchemas (first : String) :
    storedTable (twoSchemas first) "s" = ([⟨"C", "c"⟩, ⟨"A/B", "b"⟩], []) := by
  have found : (twoSchemas first).find "s/categories.json" = .ok (.file twoRows.toUTF8) :=
    find_twoSchemas first tableName (by decide +kernel) (by decide) List.mem_cons_self
  have path : PathText.join "s" tableName = "s/categories.json" := by decide +kernel
  have rows : loadTable twoRows = .ok [⟨"C", "c"⟩, ⟨"A/B", "b"⟩] := by decide +kernel
  simp [storedTable, path, Files.isFile, found, Files.load, Files.readText_of_find found, rows]

theorem load_twoSchemas (first : String) :
    (twoSchemas first).load Forest.load "s/b" = .ok [] ∧
      ∀ e, Forest.load first = .error e → (twoSchemas first).load Forest.load "s/c" = .error (.malformed "s/c" e) := by
  have second : (twoSchemas first).find "s/b" = .ok (.file "\x7b\x7d".toUTF8) :=
    find_twoSchemas first "b" (by decide +kernel) (by decide) (by simp)
  have other : (twoSchemas first).find "s/c" = .ok (.file first.toUTF8) :=
    find_twoSchemas first "c" (by decide +kernel) (by decide) (by simp)
  have forest : Forest.load "\x7b\x7d" = .ok [] := by rfl
  refine ⟨?_, fun e fails => ?_⟩
  · simp only [Files.load, Files.readText_of_find second, forest]
  · simp only [Files.load, Files.readText_of_find other, fails]

/-- The schema of the first of two categories is broken; the document belongs to the second one. -/
theorem load_selects_of_lost :
    let files := twoSchemas "\x7b\x7d"
    let damaged := twoSchemas "\x7b"
    let c : Category := ⟨"A/B", "b", []⟩
    Lost files damaged "s" ∧ SameNames "x\\A/B" "x/A\\B" ∧ Occurs "A/B" "x\\A/B" ∧
      (Registry.load files "s").1.select "x\\A/B" = some c ∧
      (Registry.load damaged "s").1.select "x\\A/B" = some c ∧
      (Registry.load damaged "s").1.select "x/A\\B" = some c := by
  intro files damaged c
  have table (first : String) : (storedTable (twoSchemas first) "s").1 = [⟨"C", "c"⟩] ++ ⟨"A/B", "b"⟩ :: [] := by
    rw [storedTable_twoSchemas]
    rfl
  have gives (first : String) : (⟨"A/B", "b"⟩ : CategoryRow).Gives (twoSchemas first) "s" c :=
    ⟨rfl, by decide +kernel, (load_twoSchemas first).1⟩
  have lost : Lost files damaged "s" := by
    refine ⟨(table "\x7b").trans (table "\x7b\x7d").symm, fun row member c' given => ?_⟩
    rw [table] at member
    rcases List.mem_cons.mp member with rfl | second
    · cases given.forest.symm.trans ((load_twoSchemas "\x7b").2 _ rfl)
    · obtain rfl := List.mem_singleton.mp second
      obtain ⟨pattern, name, forest⟩ := given
      exact ⟨pattern, name, (load_twoSchemas "\x7b\x7d").1.trans ((load_twoSchemas "\x7b").1.symm.trans forest)⟩
  have same : SameNames "x\\A/B" "x/A\\B" := by simp [SameNames, IsSeparator]
  have occurs : Occurs "A/B" "x\\A/B" := occursIn_iff.mp (by decide)
  have other : ∀ r ∈ [(⟨"C", "c"⟩ : CategoryRow)], r.loads files "s" → ¬Occurs r.pattern "x\\A/B" :=
    List.forall_mem_singleton.mpr fun _ => mt occursIn_iff.mpr (by decide)
  obtain ⟨_, _, _, _, _, _, _, left⟩ := load_selects files "s"
  obtain ⟨_, _, _, _, _, _, separators, _⟩ := load_selects damaged "s"
  obtain ⟨c', given, before, after⟩ :=
    (left damaged lost).2 _ _ _ _ (table "\x7b\x7d") occurs other (gives "\x7b").loads
  obtain rfl := given.unique (gives "\x7b\x7d")
  exact ⟨lost, same, occurs, before, after, (separators _ _ same).symm.trans after⟩

end JsonAssist
