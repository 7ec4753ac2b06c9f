import JsonAssist.Json.Reader
import JsonAssist.Syntax.Parser

namespace JsonAssist

/-- The characters that the inside of a string literal stands for; the inside itself if it is not
well formed. -/
def decodeInside (inside : List Char) : List Char :=
  match Reader.stringBody 0 (inside ++ ['"']) with
  | .ok (decoded, rest) => if rest.all Reader.isBlank then decoded else inside
  | .error _ => inside

/-- The string that a literal stands for, which may lack its closing quote. -/
def decodeLiteral (closed : Bool) (literal : List Char) : List Char :=
  let inside := match literal with
    | '"' :: rest => rest
    | other => other
  let inside := if closed && inside.getLast? == some '"' then inside.dropLast else inside
  decodeInside inside

namespace Syntax

structure Document where
  text : String
  root : Tree

namespace Document

def parse (text : String) : Document := ⟨text, Parser.parse text.toList⟩

/-- The text of a node. -/
def textOf (d : Document) (t : Tree) : String := sliceText d.text t.start t.stop

/-- What a string says, also one that is not closed, or the content of a string whose quotes are
lost in an error. -/
def stringValue? (d : Document) (t : Tree) : Option String :=
  match t.kind with
  | .string => some (String.ofList (decodeLiteral t.isClosed (d.textOf t).toList))
  | .content => some (String.ofList (decodeInside (d.textOf t).toList))
  | _ => none

/-- The name of a pair. -/
def pairKey? (d : Document) (t : Tree) : Option String :=
  t.key?.bind fun key => if key.missing then none else d.stringValue? key

/-- The nodes from the root down to the innermost one at a place in the text. -/
def chainAt (d : Document) (offset : Nat) : List Tree := d.root.chain offset

/-- The innermost node at a place, the document itself apart. -/
def nodeAt? (d : Document) (offset : Nat) : Option Tree :=
  (d.chainAt offset).getLast?.filter fun t => t.kind != .document

end Document

end Syntax

end JsonAssist
