import JsonAssist.Proofs.Completion.Insertion
import JsonAssist.Proofs.Text.Columns
import JsonAssist.Text.Bytes

namespace JsonAssist

/-- The text with a range of bytes replaced, if the range begins and ends between characters. -/
def replaceBytes? (range : Nat × Nat) (insert text : List Char) : Option (List Char) :=
  (splitAtByte? range.1 text).bind fun (before, _) =>
    (splitAtByte? range.2 text).map fun (_, after) => before.reverse ++ insert ++ after

section Bytes

/-- What stands in front of the range and behind it stays. -/
theorem replaceBytes?_append (front inner back insert : List Char) :
    replaceBytes? (byteLength front, byteLength (front ++ inner)) insert (front ++ inner ++ back) =
      some (front ++ insert ++ back) := by
  have first : splitAtByte? (byteLength front) (front ++ inner ++ back) = some (front.reverse, inner ++ back) := by
    rw [List.append_assoc, splitAtByte?_append]
  simp only [replaceBytes?, first, splitAtByte?_append, Option.bind_some, Option.map_some, List.reverse_reverse]

end Bytes

namespace Completion

open Syntax Cursor

/-- The place is in a string that an opening quote begins. The string is a node, which starts with the quote, or an
error has the quote and right behind it the content of the string. -/
inductive Quoted (d : Document) (offset : Nat) (quote t : Tree) : Prop
  | string (before rest : List Tree) (chain : d.chainAt offset = before ++ [t]) (isString : t.kind = .string)
      (first : t.children = quote :: rest) (starts : quote.start = t.start)
  | content (before front back : List Tree) (error : Tree) (chain : d.chainAt offset = before ++ [error, t])
      (isError : error.kind = .error) (isContent : t.kind = .content)
      (behind : error.children = front ++ quote :: t :: back) (stops : quote.stop = t.start)

/-- A quote in the text takes one byte. -/
def IsQuote (t : Tree) : Prop := t.kind = .quote ∧ t.stop = t.start + 1

section Replaced

variable {d : Document} {offset : Nat} {quote t : Tree}

theorem Quoted.exists_chain (quoted : Quoted d offset quote t) :
    t.isLeaf ∧ ∃ before, d.chainAt offset = before ++ [t] := by
  cases quoted with
  | string before _ chain isString => exact ⟨by rw [Tree.isLeaf, isString]; rfl, before, chain⟩
  | content before _ _ error chain _ isContent =>
    exact ⟨by rw [Tree.isLeaf, isContent]; rfl, before ++ [error], by simpa using chain⟩

/-- In a string the whole node at the place is replaced. -/
theorem Quoted.replace (quoted : Quoted d offset quote t) :
    (contextAt d offset).replace = some (t.start, t.stop) := by
  obtain ⟨leaf, before, chain⟩ := quoted.exists_chain
  exact literalAt?_of_chain leaf chain

/-- A string node begins with its quote, and content begins behind it. -/
theorem Quoted.start_eq (quoted : Quoted d offset quote t) (isQuote : IsQuote quote) :
    t.start = quote.start + if t.kind = .string then 0 else 1 := by
  cases quoted with
  | string _ _ _ isString _ starts => rw [if_pos isString, starts, Nat.add_zero]
  | content _ _ _ _ _ _ isContent _ stops => rw [if_neg (by simp [isContent]), ← stops, isQuote.2]

end Replaced

/-- What is replaced begins at the opening quote exactly if the string has come back as a node. Of a string whose
content alone is left the quote stays, so that the text then has that quote in front of whatever is inserted, also in
front of a quoted text. -/
theorem quote_replaced (d : Document) (offset : Nat) (quote t : Tree) (quoted : Quoted d offset quote t)
    (isQuote : IsQuote quote) :
    (contextAt d offset).replace = some (t.start, t.stop) ∧ (t.start = quote.start ↔ t.kind = .string) ∧
      ∀ forest, ∀ c ∈ plan forest (contextAt d offset), ∀ front inner back : List Char,
        d.text.toList = front ++ '"' :: inner ++ back → byteLength front = quote.start →
        byteLength (front ++ '"' :: inner) = t.stop →
          c.replace.bind (replaceBytes? · c.insertText.toList d.text.toList) =
            some (front ++ (if t.kind = .string then [] else ['"']) ++ c.insertText.toList ++ back) := by
  have start := quoted.start_eq isQuote
  refine ⟨quoted.replace, ?_, fun forest c offered front inner back text starts stops => ?_⟩
  · rw [start]
    split <;> simp_all
  · obtain ⟨_, all⟩ := exists_kind_of_plan forest (contextAt d offset)
    rw [(all c offered).2, quoted.replace, Option.bind_some, text, ← stops, start, ← starts]
    split
    · rw [List.append_nil]
      exact replaceBytes?_append front ('"' :: inner) back c.insertText.toList
    · have behind : byteLength front + 1 = byteLength (front ++ ['"']) := by simp; rfl
      rw [behind, List.append_cons front '"' inner]
      exact replaceBytes?_append (front ++ ['"']) inner back c.insertText.toList

/-- A value whose closing quote is missing: the brace behind it counts as content of the string. -/
def openString : Document :=
  let token (kind : Kind) (at' : Nat) : Tree := .node kind at' (at' + 1) false []
  let name : Tree := .node .string 1 4 false [token .quote 1, token .content 2, token .quote 3]
  ⟨"\x7b\"a\":\"x\x7d", .node .error 0 8 false
    [token .openBrace 0, name, token .colon 4, token .quote 5, .node .content 6 8 false []]⟩

theorem quoted_openString : Quoted openString 7 (.node .quote 5 6 false []) (.node .content 6 8 false []) :=
  .content [] _ [] _ rfl rfl rfl (List.append_cons [_, _, _] _ _).symm rfl

/-- A known text is put behind the quote that is there, with its own two quotes. -/
theorem quote_replaced_of_content :
    let quote : Tree := .node .quote 5 6 false []
    let forest : Forest := [("a", .node .string none (some [.string "b"]))]
    Quoted openString 7 quote (.node .content 6 8 false []) ∧ IsQuote quote ∧
      openString.text.toList = "\x7b\"a\":".toList ++ '"' :: "x\x7d".toList ++ [] ∧
      ∃ c ∈ plan forest (contextAt openString 7),
        c.replace.bind (replaceBytes? · c.insertText.toList openString.text.toList) =
          some "\x7b\"a\":\"\"b\"".toList := by
  intro quote forest
  have isQuote : IsQuote quote := ⟨rfl, rfl⟩
  have text : openString.text.toList = "\x7b\"a\":".toList ++ '"' :: "x\x7d".toList ++ [] := by decide
  have path : (contextAt openString 7).path = [.key "a"] := by decide +kernel
  have known : (forest.resolve (contextAt openString 7).path).values = some [.string "b"] := by
    rw [path]
    rfl
  obtain ⟨c, offered, _, _, insert⟩ := exists_of_known known (List.mem_singleton_self _)
  have whole := (quote_replaced openString 7 quote _ quoted_openString isQuote).2.2 forest c offered _ _ _ text
    (by decide) (by decide)
  refine ⟨quoted_openString, isQuote, text, c, offered, whole.trans ?_⟩
  rw [insert]
  decide

/-- What is replaced need not begin at the opening quote. -/
theorem not_quote_replaced : ¬∀ (d : Document) (offset : Nat) (quote t : Tree), Quoted d offset quote t →
    IsQuote quote → ∃ stop, (contextAt d offset).replace = some (quote.start, stop) := by
  intro replaced
  obtain ⟨stop, replace⟩ := replaced openString 7 _ _ quoted_openString ⟨rfl, rfl⟩
  have behind : (contextAt openString 7).replace = some (6, 8) := by decide +kernel
  rw [behind] at replace
  exact absurd replace (by simp [Tree.start])

end Completion

end JsonAssist
