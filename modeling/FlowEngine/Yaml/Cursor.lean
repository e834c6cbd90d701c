/-!
# Places in a document

A cursor is what is left of a document together with the column of its first
character. Blanks, line ends and comments separate the parts of a document.
-/
namespace FlowEngine.Yaml

structure Cursor where
  rest : List Char
  column : Nat

def startsBlank : List Char → Bool
  | [] => true
  | c :: _ => c = ' ' || c = '\t' || c = '\n'

/-- Whether nothing but a comment is left on the line. -/
def endsLine : List Char → Bool
  | [] => true
  | c :: _ => c = '\n' || c = '#'

def startsItem : List Char → Bool
  | '-' :: rest => startsBlank rest
  | _ => false

namespace Cursor

def columnAfter (consumed : List Char) (column : Nat) : Nat :=
  consumed.foldl (fun column c => if c = '\n' then 0 else column + 1) column

def moveTo (c : Cursor) (rest : List Char) : Cursor :=
  ⟨rest, columnAfter (c.rest.take (c.rest.length - rest.length)) c.column⟩

def skip (c : Cursor) (n : Nat) : Cursor := ⟨c.rest.drop n, c.column + n⟩

def skipBlanks (c : Cursor) : Cursor :=
  c.moveTo (c.rest.dropWhile fun ch => ch = ' ' || ch = '\t')

def skipSpaces (c : Cursor) : Cursor := c.moveTo (c.rest.dropWhile (· = ' '))

/-- What is left after blanks, line ends and comments. Tabs are no indentation:
outside of brackets they count as blanks up to the next line end only. -/
def dropSpace (bracketed : Bool) : List Char → (tabs comment : Bool) → List Char
  | [], _, _ => []
  | c :: rest, tabs, comment =>
    if c = '\n' then dropSpace bracketed rest bracketed false
    else if comment then dropSpace bracketed rest tabs true
    else if c = ' ' || (c = '\t' && tabs) then dropSpace bracketed rest tabs false
    else if c = '#' then dropSpace bracketed rest tabs true
    else c :: rest

def skipSpace (c : Cursor) (bracketed : Bool) : Cursor :=
  c.moveTo (dropSpace bracketed c.rest (bracketed || 0 < c.column) false)

end Cursor
end FlowEngine.Yaml
