import FlowEngine.Yaml.Basic
import FlowEngine.Yaml.Scalar

/-!
# Reading documents

Nodes are nested by indentation or by brackets. Read are mappings, sequences and
scalars of one document; anchors, tags and block scalars are refused. The readers
count down a bound on the number of nodes and lines.
-/
namespace FlowEngine.Yaml

def scalarNode (bracketed : Bool) (indent fuel : Nat) (c : Cursor) :
    Option (Yaml × Cursor × Bool) :=
  let quoted (read : Option (String × List Char)) : Option (Yaml × Cursor × Bool) := do
    let (text, rest) ← read
    let consumed := c.rest.take (c.rest.length - rest.length)
    return (.scalar text false, c.moveTo rest, !consumed.contains '\n')
  match c.rest with
  | '\x27' :: rest => quoted (singleQuoted fuel rest [] [])
  | '"' :: rest => quoted (doubleQuoted fuel rest [] [])
  | cs => do
    if !startsPlain bracketed cs then none
    let (part, left) ← plainLine bracketed cs false
    let first := c.moveTo left
    let (text, last) ← plainLines bracketed indent fuel first (trimmed part)
    let oneLine := last.rest.length = first.rest.length
    return (.scalar (String.ofList text) true, last, oneLine)

/-! ## Nodes in brackets -/

mutual
def bracketedNode : Nat → Cursor → Option (Yaml × Cursor)
  | 0, _ => none
  | fuel + 1, c =>
    match c.rest with
    | '[' :: _ => bracketedItems fuel (c.skip 1) []
    | '\x7b' :: _ => bracketedEntries fuel (c.skip 1) []
    | _ => (scalarNode true 0 fuel c).map fun (node, c, _) => (node, c)

/-- The value after the mark of an entry inside brackets; it may be missing. -/
def bracketedValue : Nat → Cursor → Option (Yaml × Cursor)
  | 0, _ => none
  | fuel + 1, c =>
    let c := c.skipSpace true
    match c.rest with
    | ',' :: _ | ']' :: _ | '\x7d' :: _ => some (empty, c)
    | _ => bracketedNode fuel c

/-- The items of a sequence up to its closing bracket. An entry stands for a
mapping of its own. -/
def bracketedItems : Nat → Cursor → List Yaml → Option (Yaml × Cursor)
  | 0, _, _ => none
  | fuel + 1, c, items =>
    let c := c.skipSpace true
    match c.rest with
    | ']' :: _ => some (.seq items.reverse, c.skip 1)
    | _ => do
      let (node, c) ← bracketedNode fuel c
      let c := c.skipSpace true
      let (node, c) ← match c.rest with
        | ':' :: _ => (bracketedValue fuel (c.skip 1)).map fun (value, c) =>
            (Yaml.map [(node, value)], c.skipSpace true)
        | _ => some (node, c)
      match c.rest with
      | ',' :: _ => bracketedItems fuel (c.skip 1) (node :: items)
      | ']' :: _ => some (.seq (node :: items).reverse, c.skip 1)
      | _ => none

def bracketedEntries : Nat → Cursor → List (Yaml × Yaml) → Option (Yaml × Cursor)
  | 0, _, _ => none
  | fuel + 1, c, entries =>
    let c := c.skipSpace true
    match c.rest with
    | '\x7d' :: _ => some (.map entries.reverse, c.skip 1)
    | _ => do
      let (key, c) ← bracketedNode fuel c
      let c := c.skipSpace true
      let (value, c) ← match c.rest with
        | ':' :: _ => (bracketedValue fuel (c.skip 1)).map fun (value, c) =>
            (value, c.skipSpace true)
        | _ => some (empty, c)
      match c.rest with
      | ',' :: _ => bracketedEntries fuel (c.skip 1) ((key, value) :: entries)
      | '\x7d' :: _ => some (.map ((key, value) :: entries).reverse, c.skip 1)
      | _ => none
end

/-! ## Nodes by indentation -/

def inlineNode (indent fuel : Nat) (c : Cursor) : Option (Yaml × Cursor × Bool) :=
  match c.rest with
  | '[' :: _ | '\x7b' :: _ => (bracketedNode fuel c).map fun (node, c) => (node, c, false)
  | _ => scalarNode false indent fuel c

def keyMark? (c : Cursor) : Option Cursor :=
  let c := c.skipBlanks
  match c.rest with
  | ':' :: rest => if startsBlank rest then some (c.skip 1) else none
  | _ => none

def lineDone? (c : Cursor) : Option Cursor :=
  let c := c.skipBlanks
  if endsLine c.rest then some (c.skipSpace false) else none

mutual
/-- A node whose further lines are indented by at least a number of columns. The
cursor moves on to the next content. -/
def blockNode : Nat → Nat → Cursor → Option (Yaml × Cursor)
  | 0, _, _ => none
  | fuel + 1, indent, c =>
    if startsItem c.rest then blockItems fuel c []
    else do
      let (node, after, oneLine) ← inlineNode indent fuel c
      match keyMark? after with
      | some mark => if oneLine then blockEntries fuel c.column node mark [] else none
      | none => return (node, ← lineDone? after)

def blockItems : Nat → Cursor → List Yaml → Option (Yaml × Cursor)
  | 0, _, _ => none
  | fuel + 1, c, items => do
    let column := c.column
    let start := (c.skip 1).skipSpaces
    let next := if endsLine start.rest then start.skipSpace false else start
    let (item, c) ←
      if next.rest.isEmpty || next.column ≤ column then some (empty, next)
      else blockNode fuel (column + 1) next
    if c.rest.isEmpty || c.column < column then return (.seq (item :: items).reverse, c)
    else if c.column = column then
      if startsItem c.rest then blockItems fuel c (item :: items)
      else return (.seq (item :: items).reverse, c)
    else none

def blockEntries : Nat → Nat → Yaml → Cursor → List (Yaml × Yaml) → Option (Yaml × Cursor)
  | 0, _, _, _, _ => none
  | fuel + 1, column, key, mark, entries => do
    let (value, c) ← blockValue fuel column mark
    let entries := (key, value) :: entries
    if c.rest.isEmpty || c.column < column then return (.map entries.reverse, c)
    else if c.column = column && !startsItem c.rest then
      let (key, after, oneLine) ← inlineNode column fuel c
      let mark ← keyMark? after
      if oneLine then blockEntries fuel column key mark entries else none
    else none

/-- The value of an entry of a mapping at a column; it may be missing. -/
def blockValue : Nat → Nat → Cursor → Option (Yaml × Cursor)
  | 0, _, _ => none
  | fuel + 1, column, mark => do
    let start := mark.skipBlanks
    if endsLine start.rest then
      let next := start.skipSpace false
      if next.rest.isEmpty || next.column < column then return (empty, next)
      else if next.column = column then
        if startsItem next.rest then blockItems fuel next [] else return (empty, next)
      else blockNode fuel (column + 1) next
    else if startsItem start.rest then none
    else
      let (node, after, _) ← inlineNode (column + 1) fuel start
      return (node, ← lineDone? after)
end

/-! ## Documents -/

def unixLines : List Char → List Char
  | '\r' :: '\n' :: rest => '\n' :: unixLines rest
  | '\r' :: rest => '\n' :: unixLines rest
  | c :: rest => c :: unixLines rest
  | [] => []

def documentMark? (c : Char) : List Char → Option (List Char)
  | x :: y :: z :: rest =>
    if x = c && y = c && z = c && startsBlank rest then some rest else none
  | _ => none

def splitEnd : List Char → (lineStart : Bool) → List Char × List Char
  | [], _ => ([], [])
  | c :: rest, lineStart =>
    match lineStart, documentMark? '.' (c :: rest) with
    | true, some after => ([], after)
    | _, _ =>
      let (body, after) := splitEnd rest (c = '\n')
      (c :: body, after)

/-- Whether nothing but blanks and comments is left. -/
def isBlankText (cs : List Char) : Bool := (Cursor.skipSpace ⟨cs, 1⟩ false).rest.isEmpty

/-- Reads a text with at most one document. The result is none if it has no form of
a document, and holds no node if it is empty. -/
def parse? (source : String) : Option (Option Yaml) := do
  let (body, after) := splitEnd (unixLines source.toList) true
  if !isBlankText after then none
  let start := Cursor.skipSpace ⟨body, 0⟩ false
  let start := match documentMark? '-' start.rest with
    | some rest => (start.moveTo rest).skipSpace false
    | none => start
  if start.rest.isEmpty then return none
  let (node, last) ← blockNode (4 * body.length + 16) 0 start
  if last.rest.isEmpty then return some node else none

end FlowEngine.Yaml
