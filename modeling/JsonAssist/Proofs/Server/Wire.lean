import JsonAssist.Proofs.Schema.Forest
import JsonAssist.Server.Wire

namespace JsonAssist.Server

theorem kindNumber_injective : Function.Injective kindNumber := by
  intro k l same
  cases k <;> cases l <;> first | rfl | exact absurd same (by decide)

theorem number_injective : Function.Injective number := fun _ _ same =>
  Int.ofNat.inj (Number.integer.inj (Value.number.inj same))

theorem positionValue_injective : Function.Injective positionValue := by
  rintro ⟨line, column⟩ ⟨line', column'⟩ same
  simpa [positionValue, number_injective.eq_iff] using same

theorem spanValue_injective : Function.Injective spanValue := by
  rintro ⟨start, stop⟩ ⟨start', stop'⟩ same
  simpa [spanValue, positionValue_injective.eq_iff] using same

theorem markdown_injective : Function.Injective markdown := by
  intro text text' same
  simpa [markdown] using same

namespace Proposal

/-- What is sent of a proposal: all but the range in bytes. -/
def sent (p : Proposal) : Proposal := { p with candidate := { p.candidate with replace := none } }

/-- What an editor finds in a proposal. The edit puts the text to insert in the place of the range. -/
structure Shows (p : Proposal) (v : Value) : Prop where
  label : v.field? "label" = some (.string p.candidate.label)
  kind : v.field? "kind" = some (number (kindNumber p.candidate.kind))
  detail : v.field? "detail" = p.candidate.detail.map .string
  documentation : v.field? "documentation" = p.candidate.documentation.map markdown
  sortText : v.field? "sortText" = some (.string p.candidate.sortText)
  filterText : v.field? "filterText" = p.candidate.filterText.map .string
  insertText : v.field? "insertText" = some (.string p.candidate.insertText)
  edit : v.field? "textEdit" = p.span.map fun span =>
    .object [("range", spanValue span), ("newText", .string p.candidate.insertText)]

theorem shows_toValue (p : Proposal) : p.Shows p.toValue := by
  obtain ⟨⟨label, kind, detail, documentation, filterText, insertText, sortText, replace⟩, span⟩ := p
  cases detail <;> cases documentation <;> cases filterText <;> cases span <;> constructor <;> rfl

variable {p q : Proposal} {v : Value}

theorem Shows.sent_eq (shows : p.Shows v) (shows' : q.Shows v) : p.sent = q.sent := by
  have string : Function.Injective Value.string := fun _ _ => Value.string.inj
  have label := string (Option.some.inj (shows.label.symm.trans shows'.label))
  have kind := kindNumber_injective (number_injective (Option.some.inj (shows.kind.symm.trans shows'.kind)))
  have detail := Option.map_injective string (shows.detail.symm.trans shows'.detail)
  have documentation := Option.map_injective markdown_injective (shows.documentation.symm.trans shows'.documentation)
  have sortText := string (Option.some.inj (shows.sortText.symm.trans shows'.sortText))
  have filterText := Option.map_injective string (shows.filterText.symm.trans shows'.filterText)
  have insertText := string (Option.some.inj (shows.insertText.symm.trans shows'.insertText))
  have span : p.span = q.span := by
    refine Option.map_injective (fun s s' same => ?_) (shows.edit.symm.trans (insertText ▸ shows'.edit))
    simpa [spanValue_injective.eq_iff] using same
  simp only [sent, label, kind, detail, documentation, sortText, filterText, insertText, span]

theorem toValue_sent (p : Proposal) : p.sent.toValue = p.toValue := rfl

/-- Proposals look the same to an editor only if they are, up to the range in bytes. -/
theorem toValue_inj : p.toValue = q.toValue ↔ p.sent = q.sent :=
  ⟨fun same => p.shows_toValue.sent_eq (same ▸ q.shows_toValue), fun same => by
    rw [← toValue_sent p, same, toValue_sent]⟩

theorem map_toValue_inj {ps qs : List Proposal} : ps.map toValue = qs.map toValue ↔ ps.map sent = qs.map sent := by
  induction ps generalizing qs with
  | nil => cases qs <;> simp
  | cons p ps ih => cases qs <;> simp [toValue_inj, ih]

end Proposal

namespace Answer

/-- What is sent of an answer. -/
def sent : Answer → Answer
  | .proposals ps => .proposals (ps.map Proposal.sent)
  | answer => answer

theorem toValue_sent (a : Answer) : a.sent.toValue = a.toValue := by
  cases a with
  | proposals ps => simp [sent, toValue, Proposal.toValue_sent]
  | _ => rfl

theorem toValue_inj {a b : Answer} : a.toValue = b.toValue ↔ a.sent = b.sent := by
  constructor
  · intro same
    cases a <;> cases b <;> first | rfl | exact Value.noConfusion same | skip
    case proposals.proposals ps qs =>
      exact congrArg Answer.proposals (Proposal.map_toValue_inj.mp (Value.array.inj same))
    case hover.hover shown span shown' span' =>
      simpa [toValue, sent, markdown_injective.eq_iff, spanValue_injective.eq_iff] using same
    all_goals simp [toValue] at same
  · intro same
    rw [← toValue_sent a, same, toValue_sent]

end Answer

/-- An editor can tell which request is answered and with what, up to the ranges in bytes. -/
theorem response_inj {id id' : Value} {a b : Answer} :
    response id (.ok a) = response id' (.ok b) ↔ id = id' ∧ a.sent = b.sent := by
  simp [response, Answer.toValue_inj, and_comm]

theorem response_ok_ne_error {id id' : Value} {a : Answer} {refusal : Refusal} :
    response id (.ok a) ≠ response id' (.error refusal) := by
  simp [response]

/-- Each proposal says how to replace the range of its candidate in the text from which it was made. -/
theorem edit_of_mem_proposals {known : Knowledge} {uri : Uri} {text : String} {position : Position} {p : Proposal}
    (member : p ∈ known.proposals uri text position) :
    p.toValue.field? "textEdit" = p.candidate.replace.map fun range =>
      .object [("range", spanValue (spanOf text range)), ("newText", .string p.candidate.insertText)] := by
  obtain ⟨c, _, rfl⟩ := List.mem_map.mp member
  rw [(Proposal.shows_toValue _).edit, Option.map_map]
  rfl

end JsonAssist.Server
