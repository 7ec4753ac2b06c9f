import JsonAssist.Project
import JsonAssist.Proofs.Files.Walk

namespace JsonAssist

namespace Project

/-- What is to be seen below a folder: all entries but excluded folders and what is inside them. -/
inductive Seen : List (String × Entry) → String → Entry → Prop
  | here {entries : List (String × Entry)} {name : String} {entry : Entry} (member : (name, entry) ∈ entries)
      (kept : ¬isExcluded name entry) : Seen entries name entry
  | inside {entries inner : List (String × Entry)} {folder name : String} {entry : Entry}
      (member : (folder, .folder inner) ∈ entries) (kept : ¬isExcluded folder (.folder inner))
      (seen : Seen inner name entry) : Seen entries name entry

/-- Whether an entry of some kind is to be seen. -/
def Shows (kind : String → Entry → Prop) (entries : List (String × Entry)) : Prop :=
  ∃ name entry, Seen entries name entry ∧ kind name entry

/-- Whatever is named `.hytale`. -/
def IsMarker (name : String) (_ : Entry) : Prop := name = ".hytale"

/-- A file named `manifest.json`. -/
def IsManifest (name : String) (entry : Entry) : Prop := name = "manifest.json" ∧ ∃ content, entry = .file content

/-- A folder named `Common` or `Server`. -/
def IsContents (name : String) (entry : Entry) : Prop :=
  (name = "Common" ∨ name = "Server") ∧ ∃ entries, entry = .folder entries

/-- Whether the entries of a folder make it a project. -/
def Marked (entries : List (String × Entry)) : Prop :=
  Shows IsMarker entries ∨ Shows IsManifest entries ∧ Shows IsContents entries

/-- Whether an entry of some kind is to be seen at an entry: it is one itself, or a folder that shows one. -/
def ShownAt (kind : String → Entry → Prop) (name : String) (entry : Entry) : Prop :=
  ¬isExcluded name entry ∧ (kind name entry ∨ ∃ inner, entry = .folder inner ∧ Shows kind inner)

section Shows

variable {kind : String → Entry → Prop} {name : String} {inner rest entries : List (String × Entry)}

theorem shows_iff : Shows kind entries ↔ ∃ entry ∈ entries, ShownAt kind entry.1 entry.2 := by
  constructor
  · rintro ⟨name, entry, ⟨member, kept⟩ | ⟨member, kept, seen⟩, own⟩
    · exact ⟨(name, entry), member, kept, Or.inl own⟩
    · exact ⟨_, member, kept, Or.inr ⟨_, rfl, name, entry, seen, own⟩⟩
  · rintro ⟨⟨name, entry⟩, member, kept, own | ⟨inner, rfl, name', entry', seen, own⟩⟩
    · exact ⟨name, entry, .here member kept, own⟩
    · exact ⟨name', entry', .inside member kept seen, own⟩

theorem not_shows_nil : ¬Shows kind [] := by
  rw [shows_iff]
  exact nofun

theorem shows_cons (name : String) (entry : Entry) :
    Shows kind ((name, entry) :: rest) ↔ ShownAt kind name entry ∨ Shows kind rest := by
  rw [shows_iff, shows_iff]
  simp only [List.mem_cons, or_and_right, exists_or, exists_eq_left]

theorem shownAt_file (content : ByteArray) : ShownAt kind name (.file content) ↔ kind name (.file content) := by
  simp [ShownAt, isExcluded]

theorem shownAt_link (target : String) : ShownAt kind name (.link target) ↔ kind name (.link target) := by
  simp [ShownAt, isExcluded]

theorem shownAt_folder (kept : ¬isExcluded name (.folder inner)) :
    ShownAt kind name (.folder inner) ↔ kind name (.folder inner) ∨ Shows kind inner := by
  simp [ShownAt, kept]

theorem not_shownAt (excluded : isExcluded name (.folder inner)) : ¬ShownAt kind name (.folder inner) :=
  fun shown => shown.1 excluded

end Shows

/-- What a search may come to from some signs on where the marker, a manifest and contents are there or not: it
is decided, or it knows of the signs that are there and that they do not suffice. -/
def Follows (seen : Signs) (marker manifest contents : Prop) : Search → Prop
  | .found => marker ∨ (seen.manifest ∨ manifest) ∧ (seen.contents ∨ contents)
  | .seeking seen' => ¬marker ∧ (seen'.manifest ↔ seen.manifest ∨ manifest) ∧
      (seen'.contents ↔ seen.contents ∨ contents) ∧ ¬(seen'.manifest ∧ seen'.contents)

section Search

variable {seen seen' : Signs} {marker marker' manifest manifest' contents contents' : Prop} {outcome : Search}

theorem Follows.found_or (first : Follows seen marker manifest contents .found) :
    Follows seen (marker ∨ marker') (manifest ∨ manifest') (contents ∨ contents') .found := by
  rcases first with own | ⟨own, own'⟩
  · exact Or.inl (Or.inl own)
  · exact Or.inr ⟨own.imp_right Or.inl, own'.imp_right Or.inl⟩

/-- A search goes on from the signs that it has come to. -/
theorem Follows.trans (first : Follows seen marker manifest contents (.seeking seen'))
    (second : Follows seen' marker' manifest' contents' outcome) :
    Follows seen (marker ∨ marker') (manifest ∨ manifest') (contents ∨ contents') outcome := by
  obtain ⟨none, known, known', _⟩ := first
  cases outcome with
  | found =>
    simp only [Follows, known, known', or_assoc] at second
    exact second.imp_left Or.inr
  | seeking seen'' =>
    simp only [Follows, known, known', or_assoc] at second
    obtain ⟨none', rest⟩ := second
    exact ⟨not_or.mpr ⟨none, none'⟩, rest⟩

theorem follows_none (undecided : ¬(seen.manifest ∧ seen.contents)) :
    Follows seen False False False (.seeking seen) := by
  simpa [Follows] using undecided

theorem see_manifest (seen : Signs) (name : String) (entry : Entry) :
    (seen.see name entry).manifest ↔ seen.manifest ∨ IsManifest name entry := by
  cases entry <;> simp [Signs.see, IsManifest]

theorem see_contents (seen : Signs) (name : String) (entry : Entry) :
    (seen.see name entry).contents ↔ seen.contents ∨ IsContents name entry := by
  cases entry <;> simp [Signs.see, IsContents, or_assoc]

/-- Looking at an entry adds what the entry itself is. -/
theorem follows_look (seen : Signs) (name : String) (entry : Entry) :
    Follows seen (IsMarker name entry) (IsManifest name entry) (IsContents name entry) (seen.look name entry) := by
  unfold Signs.look
  split
  next marker => exact Or.inl marker
  next other =>
    dsimp only
    split
    next both =>
      obtain ⟨manifest, contents⟩ := Bool.and_eq_true_iff.mp both
      exact Or.inr ⟨(see_manifest seen name entry).mp manifest, (see_contents seen name entry).mp contents⟩
    next few =>
      exact ⟨other, see_manifest seen name entry, see_contents seen name entry, mt Bool.and_eq_true_iff.mpr few⟩

end Search

mutual

theorem follows_searchEntry {seen : Signs} (undecided : ¬(seen.manifest ∧ seen.contents)) (name : String) :
    ∀ entry, Follows seen (ShownAt IsMarker name entry) (ShownAt IsManifest name entry) (ShownAt IsContents name entry)
      (searchEntry seen name entry)
  | .folder entries => by
    rw [searchEntry]
    by_cases excluded : isExcluded name (.folder entries)
    · simpa only [excluded, if_true, not_shownAt excluded] using follows_none undecided
    · simp only [excluded, if_false, Bool.false_eq_true, shownAt_folder excluded]
      have own := follows_look seen name (.folder entries)
      cases outcome : seen.look name (.folder entries) with
      | found => exact (outcome ▸ own).found_or
      | seeking seen' =>
        have first : Follows seen _ _ _ (.seeking seen') := outcome ▸ own
        exact first.trans (follows_search first.2.2.2 entries)
  | .file content => by
    simpa only [searchEntry, shownAt_file] using follows_look seen name (.file content)
  | .link target => by
    simpa only [searchEntry, shownAt_link] using follows_look seen name (.link target)

theorem follows_search {seen : Signs} (undecided : ¬(seen.manifest ∧ seen.contents)) :
    ∀ entries, Follows seen (Shows IsMarker entries) (Shows IsManifest entries) (Shows IsContents entries)
      (search seen entries)
  | [] => by
    simpa only [search, not_shows_nil] using follows_none undecided
  | (name, entry) :: rest => by
    have own := follows_searchEntry undecided name entry
    simp only [search, shows_cons]
    cases outcome : searchEntry seen name entry with
    | found => exact (outcome ▸ own).found_or
    | seeking seen' =>
      have first : Follows seen _ _ _ (.seeking seen') := outcome ▸ own
      exact first.trans (follows_search first.2.2.2 rest)

end

/-- A search from the start is decided just for the folder of a project. -/
theorem search_eq_found_iff (entries : List (String × Entry)) :
    search ⟨false, false⟩ entries = .found ↔ Marked entries := by
  have undecided : ¬((⟨false, false⟩ : Signs).manifest ∧ (⟨false, false⟩ : Signs).contents) := by simp
  have follows := follows_search undecided entries
  cases outcome : search ⟨false, false⟩ entries with
  | found =>
    rw [outcome] at follows
    simpa [Follows, Marked] using follows
  | seeking seen =>
    rw [outcome] at follows
    obtain ⟨none, manifest, contents, few⟩ := follows
    simp only [Bool.false_eq_true, false_or] at manifest contents
    simp only [Marked, none, ← manifest, ← contents, few, or_self, reduceCtorEq]

/-- The entries of a folder in another order, also inside the folders among them. -/
inductive Rearranged : List (String × Entry) → List (String × Entry) → Prop
  | nil : Rearranged [] []
  | cons (entry : String × Entry) {rest rest' : List (String × Entry)} (more : Rearranged rest rest') :
      Rearranged (entry :: rest) (entry :: rest')
  | swap (first second : String × Entry) (rest : List (String × Entry)) :
      Rearranged (first :: second :: rest) (second :: first :: rest)
  | inside (name : String) {inner inner' : List (String × Entry)} (rest : List (String × Entry))
      (within : Rearranged inner inner') : Rearranged ((name, .folder inner) :: rest) ((name, .folder inner') :: rest)
  | trans {entries entries' entries'' : List (String × Entry)} (first : Rearranged entries entries')
      (second : Rearranged entries' entries'') : Rearranged entries entries''

namespace Rearranged

variable {entries entries' : List (String × Entry)} {kind : String → Entry → Prop}

theorem symm (same : Rearranged entries entries') : Rearranged entries' entries := by
  induction same with
  | nil => exact .nil
  | cons entry _ ih => exact .cons entry ih
  | swap first second rest => exact .swap second first rest
  | inside name rest _ ih => exact .inside name rest ih
  | trans _ _ ih ih' => exact .trans ih' ih

/-- What is to be seen does not depend on the order, unless it is a folder that is told by the order inside it. -/
theorem shows (same : Rearranged entries entries')
    (shallow : ∀ name inner inner', kind name (.folder inner) → kind name (.folder inner'))
    (shown : Shows kind entries) : Shows kind entries' := by
  induction same with
  | nil => exact shown
  | cons entry _ ih =>
    rw [shows_cons] at *
    exact shown.imp_right ih
  | swap first second rest =>
    rw [shows_cons, shows_cons] at *
    exact or_left_comm.mp shown
  | inside name rest _ ih =>
    rw [shows_cons] at *
    refine shown.imp_left fun ⟨kept, own⟩ => ⟨kept, own.imp (shallow _ _ _) ?_⟩
    rintro ⟨_, ⟨⟩, within⟩
    exact ⟨_, rfl, ih within⟩
  | trans _ _ ih ih' => exact ih' (ih shown)

theorem marked (same : Rearranged entries entries') : Marked entries → Marked entries' := by
  refine Or.imp ?_ (And.imp ?_ ?_)
  · exact same.shows fun _ _ _ => id
  · exact same.shows fun _ _ _ manifest => by simp [IsManifest] at manifest
  · exact same.shows fun _ _ inner' contents => ⟨contents.1, inner', rfl⟩

theorem marked_iff (same : Rearranged entries entries') : Marked entries ↔ Marked entries' :=
  ⟨same.marked, same.symm.marked⟩

end Rearranged

end Project

open Project

/-- A workspace is a project just if it is a folder below which something is named `.hytale`, or a file
`manifest.json` and a folder `Common` or `Server` are, wherever they stand, but for the folders `node_modules` and
`.git` and all that is inside them. Where the workspace itself stands does not matter, nor the order in which any
folder lists its entries. -/
theorem isProject_iff (files : Files) (workspace : String) :
    (isProject files workspace ↔ ∃ entries, files.find workspace = .ok (.folder entries) ∧ Marked entries) ∧
      ∀ entries, files.find workspace = .ok (.folder entries) → ∀ (files' : Files) (workspace' : String) entries',
        files'.find workspace' = .ok (.folder entries') → Rearranged entries entries' →
          isProject files' workspace' = isProject files workspace := by
  have answer {files : Files} {workspace : String} {entries : List (String × Entry)}
      (found : files.find workspace = .ok (.folder entries)) : isProject files workspace ↔ Marked entries := by
    rw [isProject, found, ← search_eq_found_iff]
    exact beq_iff_eq
  refine ⟨⟨fun project => ?_, fun ⟨entries, found, marked⟩ => (answer found).mpr marked⟩, ?_⟩
  · cases found : files.find workspace with
    | ok entry =>
      cases entry with
      | folder entries => exact ⟨entries, rfl, (answer found).mp project⟩
      | file => simp [isProject, found] at project
      | link => simp [isProject, found] at project
    | error => simp [isProject, found] at project
  · intro entries found files' workspace' entries' found' same
    rw [Bool.eq_iff_iff, answer found, answer found', same.marked_iff]

/-- A manifest and contents in different folders, behind an excluded folder, and as they may be listed otherwise in
a folder that would be excluded itself. Only the excluded folder has the marker. -/
theorem isProject_iff_of_apart :
    let excluded : String × Entry := ("node_modules", .folder [(".hytale", .folder [])])
    let first : String × Entry := ("a", .folder [("manifest.json", .file "".toUTF8)])
    let inner : List (String × Entry) := [("Server", .folder []), (".git", .file "".toUTF8)]
    let entries := [excluded, first, ("b", .folder inner)]
    let entries' := [excluded, ("b", .folder inner.reverse), first]
    Rearranged entries entries' ∧ isProject ⟨[("w", .folder entries)], []⟩ "w" ∧
      isProject ⟨[("node_modules", .folder entries')], []⟩ "/node_modules" ∧
      ¬isProject ⟨[("w", .folder [excluded])], []⟩ "w" := by
  intro excluded first inner entries entries'
  have same : Rearranged entries entries' :=
    .trans (.cons excluded (.swap first _ [])) (.cons excluded (.inside "b" [first] (.swap _ _ [])))
  have names : IsName "node_modules" ∧ IsName ".hytale" ∧ IsName "a" ∧ IsName "manifest.json" ∧ IsName "b" ∧
      IsName "Server" ∧ IsName ".git" := by decide +kernel
  have alone : Plain [excluded] := by simp [excluded, names]
  have plain : Plain entries := by simp [entries, excluded, first, inner, names]
  have plain' : Plain entries' := by simp [entries', excluded, first, inner, names]
  have parts : PathText.parts "w" = ["w"] ∧ PathText.parts "/node_modules" = ["node_modules"] := by decide +kernel
  have found := Files.find_top "w" plain (by decide) parts.1 (by decide)
  have found' := Files.find_top "node_modules" plain' (by decide) parts.2 (by decide)
  have marked : Marked entries := (search_eq_found_iff entries).mp (by decide +kernel)
  obtain ⟨tells, anywhere⟩ := isProject_iff ⟨[("w", .folder entries)], []⟩ "w"
  have project := tells.mpr ⟨entries, found, marked⟩
  refine ⟨same, project, (anywhere entries found _ _ entries' found' same).trans project, fun other => ?_⟩
  obtain ⟨entries'', found'', marked''⟩ := (isProject_iff _ "w").1.mp other
  cases found''.symm.trans (Files.find_top "w" alone (by decide) parts.1 (by decide))
  exact absurd ((search_eq_found_iff _).mpr marked'') (by decide +kernel)

end JsonAssist
