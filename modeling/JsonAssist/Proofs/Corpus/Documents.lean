import JsonAssist.Proofs.Corpus.Paths
import JsonAssist.Proofs.Text.ByteOrder

namespace JsonAssist

namespace Corpus

/-- A file below a folder, where some names lead, with `.json` at the end of the last one. -/
structure JsonFileAt (entries : List (String × Entry)) (names : List String) (content : ByteArray) : Prop where
  stands : StandsAt entries names (.file content)
  ending : ∃ name ∈ names.getLast?, ".json".toList <:+ name.toList

section FileNames

variable {entries inner rest : List (String × Entry)} {name : String} {names below found place : List String}
  {content own : ByteArray}

theorem jsonFileAt_iff : JsonFileAt entries names content ↔
    StandsAt entries names (.file content) ∧ ∃ name ∈ names.getLast?, ".json".toList <:+ name.toList :=
  ⟨fun ⟨stands, ending⟩ => ⟨stands, ending⟩, fun ⟨stands, ending⟩ => ⟨stands, ending⟩⟩

theorem isJsonName_iff : isJsonName name ↔ ".json".toList <:+ name.toList := List.isSuffixOf_iff_suffix

theorem jsonFileAt_cons_file : JsonFileAt ((name, .file own) :: rest) names content ↔
    (isJsonName name ∧ names = [name] ∧ own = content) ∨ JsonFileAt rest names content := by
  simp only [jsonFileAt_iff, StandsAt.cons_iff, Entry.file.injEq, reduceCtorEq, false_and, exists_false, false_or,
    or_and_right, isJsonName_iff]
  refine or_congr_left ⟨?_, ?_⟩
  · rintro ⟨⟨rfl, rfl⟩, ending⟩
    exact ⟨by simpa using ending, rfl, rfl⟩
  · rintro ⟨ending, rfl, rfl⟩
    exact ⟨⟨rfl, rfl⟩, by simpa using ending⟩

theorem jsonFileAt_cons_folder : JsonFileAt ((name, .folder inner) :: rest) names content ↔
    (∃ below, names = name :: below ∧ JsonFileAt inner below content) ∨ JsonFileAt rest names content := by
  simp only [jsonFileAt_iff, StandsAt.cons_iff, reduceCtorEq, and_false, false_or, or_and_right, Entry.folder.injEq]
  have getLast? {below : List String} {entry : Entry} (stands : StandsAt inner below entry) :
      (name :: below).getLast? = below.getLast? := by
    obtain ⟨_, _, rfl⟩ := List.exists_cons_of_ne_nil stands.ne_nil
    exact List.getLast?_cons_cons
  refine or_congr_left ⟨?_, ?_⟩
  · rintro ⟨⟨_, below, rfl, rfl, stands⟩, ending⟩
    exact ⟨below, rfl, stands, getLast? stands ▸ ending⟩
  · rintro ⟨below, rfl, stands, ending⟩
    exact ⟨⟨_, below, rfl, rfl, stands⟩, (getLast? stands).symm ▸ ending⟩

/-- The names of the JSON files are found, behind the ones that lead to the folder. -/
theorem mem_fileNames (plain : Plain entries) (files : Files) (links : Nat) (names place : List String) :
    found ∈ fileNames files links names place entries ↔
      ∃ below content, found = names ++ below ∧ JsonFileAt entries below content := by
  induction plain generalizing names place with
  | nil =>
    simp only [fileNames, List.not_mem_nil, false_iff]
    rintro ⟨below, content, rfl, file⟩
    obtain ⟨_, _, _, member⟩ := file.stands.exists_cons
    cases member
  | @file name rest own _ _ _ ih =>
    simp only [fileNames, List.mem_append, ih, jsonFileAt_cons_file, and_or_left, exists_or]
    refine or_congr_left ?_
    by_cases isJson : isJsonName name
    · simp [isJson]
    · simp [isJson]
  | @folder name inner rest _ _ _ _ ih ih' =>
    simp only [fileNames, List.mem_append, ih, ih', jsonFileAt_cons_folder, and_or_left, exists_or]
    refine or_congr_left ⟨?_, ?_⟩
    · rintro ⟨below, content, rfl, file⟩
      exact ⟨name :: below, content, by simp, below, rfl, file⟩
    · rintro ⟨_, content, rfl, below, rfl, file⟩
      exact ⟨below, content, by simp, file⟩

theorem nodup_fileNames (plain : Plain entries) (files : Files) (links : Nat) (names place : List String) :
    (fileNames files links names place entries).Nodup := by
  -- What is found in the rest of a folder has another name where the own files of an entry have that of the entry.
  have apart {name : String} {rest : List (String × Entry)} (new : name ∉ Fields.names rest) (more : Plain rest)
      (names place below : List String) : names ++ name :: below ∉ fileNames files links names place rest := by
    rw [mem_fileNames more]
    rintro ⟨below', content, same, file⟩
    obtain ⟨name', others, rfl, member⟩ := file.stands.exists_cons
    cases List.append_cancel_left same
    exact new member
  induction plain generalizing names place with
  | nil => simp [fileNames]
  | @file name rest own _ new more ih =>
    simp only [fileNames]
    refine List.nodup_append'.mpr ⟨?_, ih names place, fun found inOwn inRest => ?_⟩
    · split
      · exact List.nodup_singleton _
      · exact List.nodup_nil
    · split at inOwn
      · obtain rfl := List.mem_singleton.mp inOwn
        exact apart new more names place [] inRest
      · cases inOwn
  | @folder name inner rest _ new below more ih ih' =>
    simp only [fileNames]
    refine List.nodup_append'.mpr ⟨ih _ _, ih' names place, fun found inInner inRest => ?_⟩
    obtain ⟨below', content, rfl, _⟩ := (mem_fileNames below files links _ _).mp inInner
    exact apart new more names place below' (by simpa using inRest)

end FileNames

section Order

variable {α : Type} {told : List String → α → Prop} {xs ys : List α}

theorem inOrder_iff {a b : List String} : inOrder a b ↔ a ≤ b := by
  have less : b.lex a (fun x y => x < y) = true ↔ b < a := by
    simp only [List.lex_eq_true_iff_lex, decide_eq_true_eq]
    rfl
  rw [inOrder, Bool.not_eq_true', ← Bool.not_eq_true, less]
  exact not_lt

/-- Things with places of their own are sorted by the bytes of the names that lead there. -/
theorem pairwise_mergeSort {β : Type} (place : β → List String) {found : List β} (distinct : (found.map place).Nodup) :
    (found.mergeSort fun a b => inOrder (place a) (place b)).Pairwise fun a b =>
      (place a).map Text.utf8 < (place b).map Text.utf8 := by
  have sorted : (found.mergeSort fun a b => inOrder (place a) (place b)).Pairwise fun a b => place a ≤ place b :=
    Text.pairwise_mergeSort_of_iff place (fun a b => inOrder_iff) found
  have apart : (found.mergeSort fun a b => inOrder (place a) (place b)).Pairwise fun a b => place a ≠ place b :=
    List.pairwise_map.mp (((List.mergeSort_perm found _).map place).nodup_iff.mpr distinct)
  exact sorted.imp₂ (fun a b le other => Text.map_utf8_lt (lt_of_le_of_ne le other)) apart

/-- Whether a list has all that is told of the places below a folder, in the order of the bytes of the names that lead
to these places. -/
def InPathOrder (told : List String → α → Prop) (xs : List α) : Prop :=
  ∃ found : List (List String × α), found.Pairwise (fun a b => a.1.map Text.utf8 < b.1.map Text.utf8) ∧
    (∀ names x, (names, x) ∈ found ↔ told names x) ∧ found.map Prod.snd = xs

theorem InPathOrder.unique (first : InPathOrder told xs) (second : InPathOrder told ys) : xs = ys := by
  obtain ⟨found, sorted, members, rfl⟩ := first
  obtain ⟨found', sorted', members', rfl⟩ := second
  have distinct {found : List (List String × α)}
      (sorted : found.Pairwise fun a b => a.1.map Text.utf8 < b.1.map Text.utf8) : found.Nodup := by
    refine sorted.imp fun less same => ?_
    rw [same] at less
    exact List.lt_irrefl _ less
  have same : found.Perm found' :=
    (List.perm_ext_iff_of_nodup (distinct sorted) (distinct sorted')).mpr fun (names, x) =>
      (members names x).trans (members' names x).symm
  rw [same.eq_of_pairwise (fun a b _ _ less more => (List.lt_asymm less more).elim) sorted sorted']

theorem inPathOrder_filterMap {places : List (List String)} {f : List String → Option α}
    (sorted : places.Pairwise fun a b => a.map Text.utf8 < b.map Text.utf8)
    (tells : ∀ names x, told names x ↔ names ∈ places ∧ f names = some x) :
    InPathOrder told (places.filterMap f) := by
  refine ⟨places.filterMap fun names => (f names).map (names, ·), ?_, fun names x => ?_, ?_⟩
  · refine List.pairwise_filterMap.mpr (sorted.imp fun less a made b made' => ?_)
    obtain ⟨_, _, rfl⟩ := Option.map_eq_some_iff.mp made
    obtain ⟨_, _, rfl⟩ := Option.map_eq_some_iff.mp made'
    exact less
  · simp [tells]
  · rw [List.map_filterMap]
    exact congrArg₂ _ (funext fun names => by simp) rfl

end Order

/-- Whether a JSON file below a folder holds a document. -/
def DocumentAt (entries : List (String × Entry)) (names : List String) (v : Value) : Prop :=
  ∃ content text, JsonFileAt entries names content ∧ String.fromUTF8? content = some text ∧ Value.load text = .ok v

section Documents

variable {inner rest : List (String × Entry)} {name : String} {names : List String} {own : ByteArray} {v : Value}

theorem not_documentAt_nil : ¬DocumentAt [] names v := by
  rintro ⟨_, _, file, _⟩
  obtain ⟨_, _, _, member⟩ := file.stands.exists_cons
  cases member

/-- A file adds a document only if its name ends in `.json` and it loads. -/
theorem documentAt_cons_file : DocumentAt ((name, .file own) :: rest) names v ↔
    (names = [name] ∧ isJsonName name ∧ ∃ text, String.fromUTF8? own = some text ∧ Value.load text = .ok v) ∨
      DocumentAt rest names v := by
  simp only [DocumentAt, jsonFileAt_cons_file, or_and_right, exists_or]
  refine or_congr_left ⟨?_, ?_⟩
  · rintro ⟨_, text, ⟨isJson, here, rfl⟩, loads⟩
    exact ⟨here, isJson, text, loads⟩
  · rintro ⟨here, isJson, text, loads⟩
    exact ⟨own, text, ⟨isJson, here, rfl⟩, loads⟩

/-- A folder adds the documents inside it, whatever its own name. -/
theorem documentAt_cons_folder : DocumentAt ((name, .folder inner) :: rest) names v ↔
    (∃ below, names = name :: below ∧ DocumentAt inner below v) ∨ DocumentAt rest names v := by
  simp only [DocumentAt, jsonFileAt_cons_folder, or_and_right, exists_or]
  refine or_congr_left ⟨?_, ?_⟩
  · rintro ⟨content, text, ⟨below, rfl, file⟩, loads⟩
    exact ⟨below, rfl, content, text, file, loads⟩
  · rintro ⟨below, rfl, content, text, file, loads⟩
    exact ⟨content, text, ⟨below, rfl, file⟩, loads⟩

end Documents

/-- Whether a warning is about a JSON file below a folder which holds none; it tells the path of the file. -/
inductive WarningAt (entries : List (String × Entry)) (path : List String → String) (names : List String) :
    Notice → Prop
  | notText {content : ByteArray} (file : JsonFileAt entries names content) (fails : String.fromUTF8? content = none) :
      WarningAt entries path names (.skippedDocument (.unreadable (path names) .notText))
  | malformed {content : ByteArray} {text : String} {e : LoadError} (file : JsonFileAt entries names content)
      (decoded : String.fromUTF8? content = some text) (fails : Value.load text = .error e) :
      WarningAt entries path names (.skippedDocument (.malformed (path names) e))

section Read

variable {files : Files} {root base path : String} {entries : List (String × Entry)} {content : ByteArray}

theorem load_eq_ok_iff (found : files.find path = .ok (.file content)) {v : Value} :
    files.load Value.load path = .ok v ↔ ∃ text, String.fromUTF8? content = some text ∧ Value.load text = .ok v := by
  simp only [Files.load, Files.readText, found, bind, Except.bind]
  cases String.fromUTF8? content with
  | none => simp
  | some text => cases loaded : Value.load text <;> simp [loaded]

theorem load_eq_error_iff (found : files.find path = .ok (.file content)) {e : SourceError} :
    files.load Value.load path = .error e ↔ (String.fromUTF8? content = none ∧ .unreadable path .notText = e) ∨
      ∃ text cause, String.fromUTF8? content = some text ∧ Value.load text = .error cause ∧
        .malformed path cause = e := by
  simp only [Files.load, Files.readText, found, bind, Except.bind]
  cases String.fromUTF8? content with
  | none => simp
  | some text => cases loaded : Value.load text <;> simp [loaded]

theorem paths_eq_nil (nowhere : LeadsNowhere root) : paths files root = [] := by
  rw [paths, base?_eq_none_iff.mpr nowhere]

theorem exists_paths (found : files.find root = .ok (.folder entries)) (based : base? root = some base)
    (plain : Plain entries) : ∃ places : List (List String),
      places.Pairwise (fun a b => a.map Text.utf8 < b.map Text.utf8) ∧
      (∀ names, names ∈ places ↔ ∃ content, JsonFileAt entries names content) ∧
      paths files root = places.map fun names => names.foldl named base := by
  obtain ⟨place, left, located, folder⟩ := Files.exists_locate_of_find found
  refine ⟨(fileNames files left [] place entries).mergeSort inOrder, ?_, fun names => ?_, ?_⟩
  · exact pairwise_mergeSort id (by simpa using nodup_fileNames plain files left [] place)
  · simp [mem_fileNames plain]
  · rw [paths, based, located]
    simp [folder]

/-- What is told of the JSON files below a folder, in the order of their paths, if that is what `f` makes of each. -/
theorem inPathOrder_paths {α : Type} {told : List String → α → Prop} {f : Except SourceError Value → Option α}
    (found : files.find root = .ok (.folder entries)) (based : base? root = some base) (plain : Plain entries)
    (made : ∀ names content, JsonFileAt entries names content →
      ∀ x, f (files.load Value.load (names.foldl named base)) = some x ↔ told names x)
    (only : ∀ names x, told names x → ∃ content, JsonFileAt entries names content) :
    InPathOrder told (((paths files root).map (files.load Value.load)).filterMap f) := by
  obtain ⟨places, sorted, members, all⟩ := exists_paths found based plain
  rw [all, List.map_map, List.filterMap_map]
  refine inPathOrder_filterMap sorted fun names x => ⟨fun tells => ?_, fun ⟨member, value⟩ => ?_⟩
  · obtain ⟨content, file⟩ := only names x tells
    exact ⟨(members names).mpr ⟨content, file⟩, (made names content file x).mpr tells⟩
  · obtain ⟨content, file⟩ := (members names).mp member
    exact (made names content file x).mp value

theorem inPathOrder_documents (found : files.find root = .ok (.folder entries)) (based : base? root = some base)
    (plain : Plain entries) :
    InPathOrder (DocumentAt entries) (((paths files root).map (files.load Value.load)).filterMap Except.toOption) := by
  have toOption {r : Except SourceError Value} {v : Value} : r.toOption = some v ↔ r = .ok v := by
    cases r <;> simp [Except.toOption]
  refine inPathOrder_paths found based plain (fun names content file v => ?_) fun names v document => ?_
  · rw [toOption]
    constructor
    · intro value
      obtain ⟨text, decoded, loaded⟩ := (load_eq_ok_iff (find_below found based plain file.stands)).mp value
      exact ⟨content, text, file, decoded, loaded⟩
    · rintro ⟨content', text, file', decoded, loaded⟩
      exact (load_eq_ok_iff (find_below found based plain file'.stands)).mpr ⟨text, decoded, loaded⟩
  · obtain ⟨content, _, file, _⟩ := document
    exact ⟨content, file⟩

/-- What there is to say about what was loaded of a file. -/
def warning? : Except SourceError Value → Option Notice
  | .ok _ => none
  | .error e => some (.skippedDocument e)

theorem inPathOrder_warnings (found : files.find root = .ok (.folder entries)) (based : base? root = some base)
    (plain : Plain entries) : InPathOrder (WarningAt entries fun names => names.foldl named base)
      (((paths files root).map (files.load Value.load)).filterMap warning?) := by
  have warned {r : Except SourceError Value} {notice : Notice} :
      warning? r = some notice ↔ ∃ e, r = .error e ∧ .skippedDocument e = notice := by
    cases r <;> simp [warning?]
  refine inPathOrder_paths found based plain (fun names content file notice => ?_) fun names notice warning => ?_
  · rw [warned]
    constructor
    · rintro ⟨e, fails, rfl⟩
      rcases (load_eq_error_iff (find_below found based plain file.stands)).mp fails with
        ⟨undecoded, rfl⟩ | ⟨text, cause, decoded, broken, rfl⟩
      · exact .notText file undecoded
      · exact .malformed file decoded broken
    · rintro (⟨file', undecoded⟩ | ⟨file', decoded, broken⟩)
      · exact ⟨_, (load_eq_error_iff (find_below found based plain file'.stands)).mpr (Or.inl ⟨undecoded, rfl⟩), rfl⟩
      · exact ⟨_, (load_eq_error_iff (find_below found based plain file'.stands)).mpr
          (Or.inr ⟨_, _, decoded, broken, rfl⟩), rfl⟩
  · obtain ⟨file, _⟩ | ⟨file, _, _⟩ := warning
    all_goals exact ⟨_, file⟩

theorem read_of_find (found : files.find root = .ok (.folder entries)) : ∃ corpus, read files root = .ok corpus ∧
    corpus.documents = ((paths files root).map (files.load Value.load)).filterMap Except.toOption ∧
    corpus.notices = ((paths files root).map (files.load Value.load)).filterMap warning? := by
  have isFolder : files.isFolder root := by rw [Files.isFolder, found]
  refine ⟨_, if_pos isFolder, rfl, ?_⟩
  exact congrArg₂ _ (funext fun r => by cases r <;> rfl) rfl

theorem InPathOrder.of_mergeSort {entries : List (String × Entry)} {parsed : List (List String × Value)}
    (distinct : (parsed.map Prod.fst).Nodup) (members : ∀ names v, (names, v) ∈ parsed ↔ DocumentAt entries names v) :
    InPathOrder (DocumentAt entries) ((parsed.mergeSort fun a b => inOrder a.1 b.1).map Prod.snd) :=
  ⟨_, pairwise_mergeSort Prod.fst distinct, fun names v => by rw [List.mem_mergeSort, members], rfl⟩

/-- Reading a folder without links gives the documents in the JSON files at any depth below it, in the order of their
paths, with a warning about each of these files that does not load, in the same order; the forest is the one of these
documents. The documents come out the same in whatever order they are parsed, and for any other folder with the same
documents at the same places, in whatever order its entries are listed and whatever else it holds. Only of a folder
whose relative path begins with dots and an empty name nothing is read. All this is about trees, in which every folder
can be listed and every file opened. -/
theorem read_in_path_order (found : files.find root = .ok (.folder entries)) (plain : Plain entries) :
    ∃ corpus, read files root = .ok corpus ∧ corpus.forest = Forest.build corpus.documents ∧
      (LeadsNowhere root → corpus.documents = [] ∧ corpus.notices = []) ∧
      (¬LeadsNowhere root →
        InPathOrder (DocumentAt entries) corpus.documents ∧
        (∃ path : List String → String,
          (∀ names content, JsonFileAt entries names content → files.find (path names) = .ok (.file content)) ∧
          InPathOrder (WarningAt entries path) corpus.notices) ∧
        (∀ parsed : List (List String × Value), (parsed.map Prod.fst).Nodup →
          (∀ names v, (names, v) ∈ parsed ↔ DocumentAt entries names v) →
          (parsed.mergeSort fun a b => inOrder a.1 b.1).map Prod.snd = corpus.documents) ∧
        ∀ (files' : Files) (root' : String) (entries' : List (String × Entry)),
          files'.find root' = .ok (.folder entries') → Plain entries' → ¬LeadsNowhere root' →
          (∀ names v, DocumentAt entries' names v ↔ DocumentAt entries names v) →
          ∃ corpus', read files' root' = .ok corpus' ∧ corpus'.documents = corpus.documents ∧
            corpus'.forest = corpus.forest) := by
  obtain ⟨corpus, reads, documents, notices⟩ := read_of_find found
  refine ⟨corpus, reads, rfl, fun nowhere => ?_, fun somewhere => ?_⟩
  · rw [documents, notices, paths_eq_nil nowhere]
    exact ⟨rfl, rfl⟩
  · obtain ⟨base, based⟩ := Option.ne_none_iff_exists'.mp (mt base?_eq_none_iff.mp somewhere)
    have inOrder : InPathOrder (DocumentAt entries) corpus.documents :=
      documents ▸ inPathOrder_documents found based plain
    refine ⟨inOrder, ⟨fun names => names.foldl named base, fun names content file => ?_, ?_⟩,
      fun parsed distinct members => (InPathOrder.of_mergeSort distinct members).unique inOrder, ?_⟩
    · exact find_below found based plain file.stands
    · exact notices ▸ inPathOrder_warnings found based plain
    · intro files' root' entries' found' plain' somewhere' same
      obtain ⟨base', based'⟩ := Option.ne_none_iff_exists'.mp (mt base?_eq_none_iff.mp somewhere')
      obtain ⟨corpus', reads', documents', _⟩ := read_of_find found'
      have told : DocumentAt entries' = DocumentAt entries := funext fun names => funext fun v => propext (same names v)
      have inOrder' : InPathOrder (DocumentAt entries) corpus'.documents :=
        documents' ▸ told ▸ inPathOrder_documents found' based' plain'
      have equal := inOrder'.unique inOrder
      exact ⟨corpus', reads', equal, congrArg Forest.build equal⟩

end Read

/-- A folder whose name would be a pattern for others, with two documents, a file that does not load, one of another
name and a folder named like a file; and a folder with only the documents, listed the other way. -/
theorem read_in_path_order_of_two :
    let first : String × Entry := ("a", .folder [("c.json", .file "null".toUTF8), ("c.JSON", .file "true".toUTF8)])
    let first' : String × Entry := ("a", .folder [("c.json", .file "null".toUTF8)])
    let second : String × Entry := ("b.json", .file "true".toUTF8)
    let entries := [second, ("d.json", .file "\x7b".toUTF8), first, ("e.json", .folder [])]
    ∃ corpus corpus', read ⟨[("[*]", .folder entries)], []⟩ "[*]" = .ok corpus ∧
      read ⟨[("w", .folder [first', second])], []⟩ "/w" = .ok corpus' ∧ corpus.documents = [.null, .boolean true] ∧
      corpus'.documents = corpus.documents ∧ corpus'.forest = corpus.forest := by
  intro first first' second entries
  have texts (text : String) (v : Value) :
      (∃ decoded, String.fromUTF8? text.toUTF8 = some decoded ∧ Value.load decoded = .ok v) ↔
        Value.load text = .ok v := by
    simp only [Files.fromUTF8?_toUTF8, Option.some.injEq, exists_eq_left']
  have isJson : isJsonName "b.json" ∧ isJsonName "c.json" ∧ ¬isJsonName "c.JSON" := by decide
  have loads : Value.load "null" = .ok .null ∧ Value.load "true" = .ok (.boolean true) := ⟨by rfl, by rfl⟩
  have fails (v : Value) : Value.load "\x7b" ≠ .ok v := by
    obtain ⟨e, broken⟩ : ∃ e, Value.load "\x7b" = .error e := ⟨_, by rfl⟩
    simp [broken]
  let expected (names : List String) (v : Value) : Prop :=
    names = ["a", "c.json"] ∧ .null = v ∨ names = ["b.json"] ∧ .boolean true = v
  have documents (names : List String) (v : Value) : DocumentAt entries names v ↔ expected names v := by
    simp only [entries, first, second, documentAt_cons_file, documentAt_cons_folder, not_documentAt_nil, texts, isJson,
      loads, fails]
    simp [expected, or_comm]
  have documents' (names : List String) (v : Value) : DocumentAt [first', second] names v ↔ expected names v := by
    simp only [first', second, documentAt_cons_file, documentAt_cons_folder, not_documentAt_nil, texts, isJson, loads]
    simp [expected]
  have isName : IsName "a" ∧ IsName "b.json" ∧ IsName "c.json" ∧ IsName "c.JSON" ∧ IsName "d.json" ∧
      IsName "e.json" := by decide +kernel
  have plain : Plain entries := by simp [entries, first, second, isName]
  have plain' : Plain [first', second] := by simp [first', second, isName]
  have found := Files.find_top "[*]" plain (by decide) (by decide +kernel : PathText.parts "[*]" = _) (by decide)
  have found' := Files.find_top "w" plain' (by decide) (by decide +kernel : PathText.parts "/w" = _) (by decide)
  have somewhere : base? "[*]" ≠ none ∧ base? "/w" ≠ none := by decide +kernel
  obtain ⟨corpus, reads, _, _, tells⟩ := read_in_path_order found plain
  obtain ⟨inOrder, _, _, others⟩ := tells (mt base?_eq_none_iff.mpr somewhere.1)
  obtain ⟨corpus', reads', equal, alike⟩ :=
    others _ _ _ found' plain' (mt base?_eq_none_iff.mpr somewhere.2) fun names v =>
      (documents' names v).trans (documents names v).symm
  have two : InPathOrder (DocumentAt entries) [.null, .boolean true] := by
    refine ⟨[(["a", "c.json"], .null), (["b.json"], .boolean true)], ?_, fun names v => ?_, rfl⟩
    · exact List.pairwise_pair.mpr (by decide +kernel)
    · simp [documents, expected, eq_comm]
  exact ⟨corpus, corpus', reads, reads', inOrder.unique two, equal, alike⟩

/-- Nothing is read below `./`, although there is a document. -/
theorem not_read_in_path_order :
    let files : Files := ⟨[("a.json", .file "null".toUTF8)], []⟩
    files.find "./" = .ok (.folder files.entries) ∧ Plain files.entries ∧ DocumentAt files.entries ["a.json"] .null ∧
      ∃ corpus, read files "./" = .ok corpus ∧ ¬InPathOrder (DocumentAt files.entries) corpus.documents := by
  intro files
  have isName : IsName "a.json" := by decide
  have plain : Plain files.entries := by simp [files, isName]
  have document : DocumentAt files.entries ["a.json"] .null := by
    refine documentAt_cons_file.mpr (Or.inl ⟨rfl, by decide, "null", Files.fromUTF8?_toUTF8 "null", by rfl⟩)
  have found : files.find "./" = .ok (.folder files.entries) := by
    have parts : PathText.parts "./" = [".", ""] := by decide
    have top : files.entry? [] = some (.folder files.entries) := rfl
    have walked : files.walk Files.linkLimit (PathText.parts "./") (files.origin "./") = .ok ([], Files.linkLimit) := by
      rw [parts, Files.origin, ite_self]
      simp [Files.walk, top]
    exact Files.find_of_walk (by decide) (by decide) walked top
  have nowhere : LeadsNowhere "./" := base?_eq_none_iff.mp (by decide)
  obtain ⟨corpus, reads, documents, _⟩ := read_of_find found
  refine ⟨found, plain, document, corpus, reads, ?_⟩
  rintro ⟨all, _, members, values⟩
  rw [documents, paths_eq_nil nowhere, List.map_nil, List.filterMap_nil, List.map_eq_nil_iff] at values
  have listed := (members ["a.json"] .null).mpr document
  rw [values] at listed
  cases listed

end Corpus

end JsonAssist
