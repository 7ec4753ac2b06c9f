import JsonAssist.Proofs.Syntax.WellFormed

namespace JsonAssist.Syntax.Tree

def isListed (item : Kind → Bool) (inner : List Tree) : Bool :=
  let kinds := (inner.map kind).filter (· ≠ .comment)
  let items := kinds.filter (· ≠ .comma)
  items.all item && kinds == items.intersperse .comma

/-- Whether a list ends in a node of a kind, and what stands before that passes a test. -/
def endsIn (last : Kind → Bool) (before : List Tree → Bool) (cs : List Tree) : Bool :=
  cs.getLast?.any (fun c => last c.kind) && before cs.dropLast

/-- Whether comments lead to a node, and it and what follows it pass a test. -/
def afterComments (next : Tree → List Tree → Bool) : List Tree → Bool
  | [] => false
  | c :: rest => if c.kind = .comment then afterComments next rest else next c rest

def isForm : Kind → List Tree → Bool
  | .document, cs => cs.all fun c => c.kind.isValue || c.kind == .comment
  | .object, opener :: rest =>
    opener.kind == .openBrace && endsIn (· == .closeBrace) (isListed (· == .pair)) rest
  | .array, opener :: rest =>
    opener.kind == .openBracket && endsIn (· == .closeBracket) (isListed Kind.isValue) rest
  | .pair, key :: rest =>
    key.kind == .string && afterComments (fun colon rest =>
      colon.kind == .colon && endsIn Kind.isValue (List.all · fun c => c.kind == .comment) rest) rest
  | .string, opener :: rest =>
    opener.kind == .quote &&
      endsIn (· == .quote) (List.all · fun c => c.kind == .content || c.kind == .escape || c.kind == .comment) rest
  | k, cs => k.isToken && cs.isEmpty

mutual

def isWellFormed : Tree → Bool
  | .node k s e m cs =>
    !m && isForm k cs && decide (cs.Pairwise fun a b => a.stop ≤ b.start) &&
      cs.all (fun c => s ≤ c.start && c.stop ≤ e) && (k == .document || s < e) && areWellFormed cs

def areWellFormed : List Tree → Bool
  | [] => true
  | c :: rest => isWellFormed c && areWellFormed rest

end

theorem listed_of_isListed {item : Kind → Bool} {inner : List Tree} (checked : isListed item inner) :
    Listed (fun k => item k) inner := by
  simp only [isListed, Bool.and_eq_true, beq_iff_eq, List.all_eq_true] at checked
  exact ⟨_, checked.1, checked.2⟩

theorem exists_of_endsIn {last : Kind → Bool} {before : List Tree → Bool} {cs : List Tree}
    (checked : endsIn last before cs) :
    ∃ inner closer, cs = inner ++ [closer] ∧ last closer.kind ∧ before inner := by
  simp only [endsIn, Bool.and_eq_true, Option.any_eq_true] at checked
  obtain ⟨⟨closer, atEnd, kind⟩, inner⟩ := checked
  exact ⟨cs.dropLast, closer, (List.dropLast_append_getLast? closer atEnd).symm, kind, inner⟩

theorem exists_of_afterComments {next : Tree → List Tree → Bool} {cs : List Tree}
    (checked : afterComments next cs) :
    ∃ front c rest, cs = front ++ c :: rest ∧ (∀ t ∈ front, t.kind = .comment) ∧ next c rest := by
  induction cs with
  | nil => simp [afterComments] at checked
  | cons c cs ih =>
    rw [afterComments] at checked
    split at checked
    next comment =>
      obtain ⟨front, c', rest, rfl, comments, kept⟩ := ih checked
      exact ⟨c :: front, c', rest, rfl, List.forall_mem_cons.mpr ⟨comment, comments⟩, kept⟩
    next => exact ⟨[], c, cs, rfl, by simp, checked⟩

theorem form_of_isForm {k : Kind} {cs : List Tree} (checked : isForm k cs) : Form k cs := by
  unfold isForm at checked
  split at checked
  next => exact .document (by simpa using checked)
  next opener rest =>
    simp only [Bool.and_eq_true, beq_iff_eq] at checked
    obtain ⟨inner, closer, rfl, closes, members⟩ := exists_of_endsIn checked.2
    exact .object checked.1 (by simpa using listed_of_isListed members) (by simpa using closes)
  next opener rest =>
    simp only [Bool.and_eq_true, beq_iff_eq] at checked
    obtain ⟨inner, closer, rfl, closes, elements⟩ := exists_of_endsIn checked.2
    exact .array checked.1 (listed_of_isListed elements) (by simpa using closes)
  next key rest =>
    simp only [Bool.and_eq_true, beq_iff_eq] at checked
    obtain ⟨front, colon, rest, rfl, comments, kept⟩ := exists_of_afterComments checked.2
    simp only [Bool.and_eq_true, beq_iff_eq] at kept
    obtain ⟨back, value, rfl, isValue, comments'⟩ := exists_of_endsIn kept.2
    exact .pair checked.1 kept.1 isValue (List.forall_mem_append.mpr ⟨comments, by simpa using comments'⟩)
  next opener rest =>
    simp only [Bool.and_eq_true, beq_iff_eq] at checked
    obtain ⟨inner, closer, rfl, closes, contents⟩ := exists_of_endsIn checked.2
    exact .string checked.1 (by simpa [or_assoc] using contents) (by simpa using closes)
  next =>
    simp only [Bool.and_eq_true, List.isEmpty_iff] at checked
    exact checked.2 ▸ .token checked.1

mutual

theorem wellFormed_of_isWellFormed : ∀ {t : Tree}, t.isWellFormed → t.WellFormed
  | .node k s e m cs, checked => by
    simp only [isWellFormed, Bool.and_eq_true, Bool.or_eq_true, Bool.not_eq_true', decide_eq_true_eq,
      List.all_eq_true, beq_iff_eq] at checked
    obtain ⟨⟨⟨⟨⟨real, form⟩, order⟩, inside⟩, wide⟩, below⟩ := checked
    exact real ▸ .node (form_of_isForm form) order inside wide (wellFormed_of_areWellFormed below)

theorem wellFormed_of_areWellFormed : ∀ {cs : List Tree}, areWellFormed cs → ∀ c ∈ cs, c.WellFormed
  | [], _ => by simp
  | c :: rest, checked => by
    simp only [areWellFormed, Bool.and_eq_true] at checked
    exact List.forall_mem_cons.mpr
      ⟨wellFormed_of_isWellFormed checked.1, wellFormed_of_areWellFormed checked.2⟩

end

end JsonAssist.Syntax.Tree
