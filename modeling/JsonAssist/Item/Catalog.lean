import JsonAssist.Completion.Candidate
import JsonAssist.Json.Fields
import JsonAssist.Text.WhiteSpace
import JsonAssist.Text.Word

namespace JsonAssist

structure Item where
  id : String
  name : String
  description : String
  deriving DecidableEq, Repr

namespace Item

/-- What an editor shows about the item. -/
def hoverText (item : Item) : String := "### " ++ item.name ++ "\n\n" ++ item.description

def candidate (item : Item) : Candidate :=
  { label := item.id
    kind := .item
    detail := some item.name
    documentation := some item.description
    filterText := some (item.id ++ " " ++ item.name)
    insertText := item.id
    sortText := "2_" ++ item.id
    replace := none }

/-- What a line says about an item. -/
inductive Trait where
  | name
  | description
  deriving DecidableEq, Repr

def set (item : Item) (trait : Trait) (text : String) : Item :=
  match trait with
  | .name => { item with name := text }
  | .description => { item with description := text }

/-- ASCII letters, digits and the underscore make up ids. -/
def isIdChar (c : Char) : Bool := c.isAlphanum || c == '_'

/-- The text after the given one, if it begins with that. -/
def after? : (start : List Char) → List Char → Option (List Char)
  | [], s => some s
  | _ :: _, [] => none
  | c :: start, d :: s => if c = d then after? start s else none

/-- The trait named next, and the text after its name. -/
def trait? (s : List Char) : Option (Trait × List Char) :=
  match after? "name".toList s with
  | some rest => some (.name, rest)
  | none => (after? "description".toList s).map fun rest => (.description, rest)

/-- The value behind an equals sign, without the white space before it. If there is nothing but
white space, its last character is the value. -/
def lineValue? (s : List Char) : Option (List Char) :=
  match s.dropWhile Text.isWhiteSpace with
  | [] => s.getLast?.map fun c => [c]
  | value => some value

/-- The id, trait and value of a line. -/
def line? (line : List Char) : Option (String × Trait × String) := do
  let rest ← after? "items.".toList line
  let id := rest.takeWhile isIdChar
  if id.isEmpty then none
  else
    let rest ← after? ['.'] (rest.dropWhile isIdChar)
    let (trait, rest) ← trait? rest
    let rest ← after? ['='] (rest.dropWhile Text.isWhiteSpace)
    let value ← lineValue? rest
    some (String.ofList id, trait, String.ofList value)

/-- The lines of a text. A carriage return before a line feed belongs to the break. -/
def sourceLines : List Char → List (List Char)
  | [] => [[]]
  | c :: rest =>
    let more := sourceLines rest
    if c = '\n' then [] :: more
    else if c = '\r' && rest.head? == some '\n' then more
    else
      match more with
      | line :: others => (c :: line) :: others
      | [] => [[c]]

end Item

/-- Items by their ids, in the order in which the ids were first seen. -/
structure Catalog where
  items : Fields Item
  deriving Repr

namespace Catalog

def empty : Catalog := ⟨[]⟩

/-- Notes what one line says. -/
def note (items : Fields Item) (id : String) (trait : Item.Trait) (text : String) : Fields Item :=
  let item := (Fields.get? items id).getD ⟨id, "", ""⟩
  Fields.insert items id (item.set trait text)

/-- The items of a text. Of several lines about one trait of an item the last one counts. -/
def parse (source : String) : Catalog :=
  let entries := (Item.sourceLines source.toList).filterMap Item.line?
  ⟨entries.foldl (fun items (id, trait, text) => note items id trait text) []⟩

def toList (catalog : Catalog) : List Item := catalog.items.map Prod.snd

def size (catalog : Catalog) : Nat := catalog.items.length

def get? (catalog : Catalog) (id : String) : Option Item := Fields.get? catalog.items id

/-- A candidate for each item. -/
def candidates (catalog : Catalog) : List Candidate := catalog.toList.map Item.candidate

/-- What to show about the item whose id stands at a place in a text, and the range of that id. -/
def hover (catalog : Catalog) (text : String) (offset : Nat) : Option (String × Nat × Nat) := do
  let (start, stop) ← Text.wordAt text offset
  let item ← catalog.get? (sliceText text start stop)
  some (item.hoverText, start, stop)

end Catalog

end JsonAssist
