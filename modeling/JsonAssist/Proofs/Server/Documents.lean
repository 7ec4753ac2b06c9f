import Mathlib.Data.List.Basic
import Mathlib.Data.List.Induction
import JsonAssist.Server.Session

namespace JsonAssist.Server

/-- Something in a list has `P`, and all behind it has `Q`. -/
def Since {α : Type} (P Q : α → Prop) (xs : List α) : Prop :=
  ∃ before x after, xs = before ++ x :: after ∧ P x ∧ ∀ y ∈ after, Q y

theorem not_since_nil {α : Type} {P Q : α → Prop} : ¬Since P Q [] := by
  rintro ⟨before, x, after, split, _⟩
  simp at split

theorem since_concat {α : Type} {P Q : α → Prop} {xs : List α} {y : α} :
    Since P Q (xs ++ [y]) ↔ P y ∨ Since P Q xs ∧ Q y := by
  constructor
  · rintro ⟨before, x, after, split, own, since⟩
    rcases List.eq_nil_or_concat after with rfl | ⟨after, last, rfl⟩
    · obtain ⟨_, same⟩ := List.append_inj' split rfl
      exact Or.inl (List.singleton_inj.mp same ▸ own)
    · have whole : xs ++ [y] = (before ++ x :: after) ++ [last] := by simp [split]
      obtain ⟨rfl, same⟩ := List.append_inj' whole rfl
      obtain rfl := List.singleton_inj.mp same
      exact Or.inr ⟨⟨before, x, after, rfl, own, fun z inAfter => since z (by simp [inAfter])⟩,
        since y (by simp)⟩
  · rintro (own | ⟨⟨before, x, after, rfl, own, since⟩, last⟩)
    · exact ⟨xs, y, [], rfl, own, by simp⟩
    · refine ⟨before, x, after ++ [y], by simp, own, fun z member => ?_⟩
      rcases List.mem_append.mp member with inAfter | isLast
      · exact since z inAfter
      · exact List.mem_singleton.mp isLast ▸ last

/-- What has `Q` in any case, and never `P`, can be left out. -/
theorem since_filter {α : Type} {P Q : α → Prop} {keep : α → Bool} (kept : ∀ x, P x → keep x)
    (left : ∀ x, ¬keep x → Q x) (xs : List α) : Since P Q (xs.filter keep) ↔ Since P Q xs := by
  induction xs using List.reverseRecOn with
  | nil => rfl
  | append_singleton xs y ih =>
    by_cases keeps : keep y
    · rw [List.filter_append, List.filter_singleton, keeps, Bool.cond_true, since_concat, since_concat, ih]
    · have never : ¬P y := fun own => keeps (kept y own)
      rw [List.filter_append, List.filter_singleton, since_concat]
      simp [keeps, never, left y keeps, ih]

namespace Edit

/-- The document that an edit is about. -/
def uri : Edit → Uri
  | .opened uri _ | .changed uri _ | .closed uri => uri

/-- The text that an edit has for a document. Of several new texts the last one counts. -/
def text? (uri : Uri) : Edit → Option String
  | .opened own text => if own = uri then some text else none
  | .changed own texts => if own = uri then texts.getLast? else none
  | .closed _ => none

theorem text?_of_ne {edit : Edit} {uri : Uri} (other : edit.uri ≠ uri) : edit.text? uri = none := by
  cases edit with
  | opened | changed => exact if_neg other
  | closed => rfl

end Edit

/-- A document was opened and not closed since. -/
def IsOpen (edits : List Edit) (uri : Uri) : Prop :=
  Since (fun edit => ∃ text, edit = .opened uri text) (· ≠ .closed uri) edits

/-- A document is open, and the last edit that had a text for it had this one. -/
structure OpenWith (edits : List Edit) (uri : Uri) (text : String) : Prop where
  isOpen : IsOpen edits uri
  latest : Since (fun edit => edit.text? uri = some text) (fun edit => edit.text? uri = none) edits

/-- The latest text of a document depends on the edits of that document alone. -/
theorem openWith_filter (edits : List Edit) (uri : Uri) (text : String) :
    OpenWith (edits.filter fun edit => edit.uri = uri) uri text ↔ OpenWith edits uri text := by
  have isOpen : IsOpen (edits.filter fun edit => edit.uri = uri) uri ↔ IsOpen edits uri := by
    refine since_filter ?_ ?_ edits
    · rintro _ ⟨text, rfl⟩
      simp [Edit.uri]
    · rintro edit other rfl
      simp [Edit.uri] at other
  have latest : Since (fun edit => edit.text? uri = some text) (fun edit => edit.text? uri = none)
      (edits.filter fun edit => edit.uri = uri) ↔
        Since (fun edit => edit.text? uri = some text) (fun edit => edit.text? uri = none) edits := by
    refine since_filter (fun edit own => ?_) (fun edit other => Edit.text?_of_ne (by simpa using other)) edits
    by_contra other
    rw [Edit.text?_of_ne (by simpa using other)] at own
    exact nomatch own
  exact ⟨fun ⟨first, second⟩ => ⟨isOpen.mp first, latest.mp second⟩,
    fun ⟨first, second⟩ => ⟨isOpen.mpr first, latest.mpr second⟩⟩

namespace Documents

variable {documents : Documents} {uri own : Uri} {text : String}

theorem get?_erase : (documents.erase own).get? uri = if own = uri then none else documents.get? uri := by
  simp only [get?, erase, List.find?_filter]
  by_cases same : own = uri
  · simp [same]
  · rw [if_neg same]
    refine congrArg _ (congrFun (congrArg _ (funext fun d => ?_)) documents)
    by_cases here : d.1 = uri
    · simp [here, Ne.symm same]
    · simp [here]

theorem get?_put : (documents.put own text).get? uri = if own = uri then some text else documents.get? uri := by
  by_cases same : own = uri
  · simp [put, get?, same]
  · have erased : (documents.erase own).get? uri = documents.get? uri := by rw [get?_erase, if_neg same]
    rw [if_neg same, ← erased, get?, put, List.find?_cons_of_neg (by simp [same]), get?]

/-- An edit leaves a document open if it opens it, or if it was open and the edit does not close it. -/
theorem isSome_get?_edit (edit : Edit) : ((documents.edit edit).get? uri).isSome ↔
    (∃ text, edit = .opened uri text) ∨ (documents.get? uri).isSome ∧ edit ≠ .closed uri := by
  cases edit with
  | opened own text => by_cases same : own = uri <;> simp [Documents.edit, get?_put, same]
  | closed own => by_cases same : own = uri <;> simp [Documents.edit, get?_erase, same]
  | changed own texts =>
    have kept : ((documents.edit (.changed own texts)).get? uri).isSome = (documents.get? uri).isSome := by
      rw [Documents.edit]
      split
      next known =>
        by_cases same : own = uri
        · simp [get?_put, same, same ▸ known]
        · simp [get?_put, same]
      next => rfl
    simp [kept]

/-- A document that an edit leaves open has the text of the edit, or the text it had. -/
theorem get?_edit_of_isSome {edit : Edit} (isOpen : ((documents.edit edit).get? uri).isSome) :
    (documents.edit edit).get? uri = (edit.text? uri).or (documents.get? uri) := by
  cases edit with
  | opened own text => by_cases same : own = uri <;> simp [Documents.edit, get?_put, Edit.text?, same]
  | closed own =>
    by_cases same : own = uri
    · simp [Documents.edit, get?_erase, same] at isOpen
    · simp [Documents.edit, get?_erase, Edit.text?, same]
  | changed own texts =>
    have wasOpen : (documents.get? uri).isSome := by
      simpa using (isSome_get?_edit (.changed own texts)).mp isOpen
    obtain ⟨old, known⟩ := Option.isSome_iff_exists.mp wasOpen
    by_cases same : own = uri
    · cases new : texts.getLast? <;> simp [Documents.edit, get?_put, Edit.text?, same, known, new]
    · rw [Documents.edit]
      split <;> simp [get?_put, Edit.text?, same]

theorem isSome_get?_foldl_edit (edits : List Edit) (uri : Uri) :
    ((edits.foldl edit []).get? uri).isSome ↔ IsOpen edits uri := by
  induction edits using List.reverseRecOn with
  | nil => simpa [get?, IsOpen] using not_since_nil
  | append_singleton edits last ih =>
    rw [List.foldl_concat, isSome_get?_edit, ih]
    simp only [IsOpen, since_concat]

/-- The documents after some edits are those that are open, with their latest texts. -/
theorem get?_foldl_edit (edits : List Edit) (uri : Uri) (text : String) :
    (edits.foldl edit []).get? uri = some text ↔ OpenWith edits uri text := by
  have latest (isOpen : ((edits.foldl edit []).get? uri).isSome) :
      (edits.foldl edit []).get? uri = some text ↔
        Since (fun edit => edit.text? uri = some text) (fun edit => edit.text? uri = none) edits := by
    induction edits using List.reverseRecOn with
    | nil => simp [get?] at isOpen
    | append_singleton edits last ih =>
      rw [List.foldl_concat] at isOpen ⊢
      rw [get?_edit_of_isSome isOpen, since_concat]
      cases own : last.text? uri with
      | some new => simp
      | none =>
        -- Without a text of its own the edit opens nothing, so the document was open before it.
        have notOpened : ¬∃ text, last = .opened uri text := by
          rintro ⟨text, rfl⟩
          simp [Edit.text?] at own
        have wasOpen := (((isSome_get?_edit last).mp isOpen).resolve_left notOpened).1
        simp [ih wasOpen]
  constructor
  · intro known
    have isOpen : ((edits.foldl edit []).get? uri).isSome := by simp [known]
    exact ⟨(isSome_get?_foldl_edit edits uri).mp isOpen, (latest isOpen).mp known⟩
  · rintro ⟨isOpen, last⟩
    exact (latest ((isSome_get?_foldl_edit edits uri).mpr isOpen)).mpr last

end Documents

end JsonAssist.Server
