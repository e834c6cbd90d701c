import FlowEngine.Json.Parser

/-!
# Tokens of a query

A query text is cut into tokens, each with the byte offset at which it starts.
Any character that starts no token makes the whole text unreadable.
-/
namespace FlowEngine.Query

inductive Token where
  | name (text : String)
  /-- A name in double quotes; it cannot name a function. -/
  | quotedName (text : String)
  | number (value : Int)
  | literal (value : Json)
  | dot
  | star
  | flatten
  | and
  | or
  | pipe
  | filter
  | openBracket
  | closeBracket
  | comma
  | colon
  | not
  | ne
  | eq
  | gt
  | ge
  | lt
  | le
  | current
  | ampersand
  | openParen
  | closeParen
  | openBrace
  | closeBrace
  | stop

namespace Token

def bindingPower : Token → Nat
  | pipe => 1
  | or => 2
  | and => 3
  | eq | ne | gt | ge | lt | le => 5
  | flatten => 9
  | star => 20
  | filter => 21
  | dot => 40
  | not => 45
  | openBrace => 50
  | openBracket => 55
  | openParen => 60
  | _ => 0

end Token

structure Placed where
  offset : Nat
  token : Token

namespace Lexer

/-- The characters up to a closing quote, and what follows it. A backslash
keeps the character after it from closing. -/
def enclosed (close : Char) : List Char → Option (List Char × List Char)
  | [] => none
  | [c] => if c = close then some ([], []) else none
  | c :: d :: rest =>
    if c = close then some ([], d :: rest)
    else if c = '\\' then (enclosed close rest).map fun (body, left) => (c :: d :: body, left)
    else (enclosed close (d :: rest)).map fun (body, left) => (c :: body, left)

def unescape (quote : Char) : List Char → List Char
  | [] => []
  | [c] => [c]
  | c :: d :: rest =>
    if c = '\\' ∧ d = quote then quote :: unescape quote rest
    else c :: unescape quote (d :: rest)

def startsName (c : Char) : Bool := c.isAlpha || c = '_'

def continuesName (c : Char) : Bool := c.isAlphanum || c = '_'

def numberOf? (negative : Bool) (digits : List Char) : Option Int :=
  let n : Nat := digits.foldl (fun n c => n * 10 + (c.toNat - 48)) 0
  let i : Int := if negative then -(n : Int) else n
  if -2_147_483_648 ≤ i ∧ i < 2_147_483_648 then some i else none

/-- The first token of a text that starts with no blank, and what follows it. -/
def next? : List Char → Option (Token × List Char)
  | [] => none
  | '[' :: ']' :: rest => some (.flatten, rest)
  | '[' :: '?' :: rest => some (.filter, rest)
  | '|' :: '|' :: rest => some (.or, rest)
  | '&' :: '&' :: rest => some (.and, rest)
  | '=' :: '=' :: rest => some (.eq, rest)
  | '>' :: '=' :: rest => some (.ge, rest)
  | '<' :: '=' :: rest => some (.le, rest)
  | '!' :: '=' :: rest => some (.ne, rest)
  | '"' :: rest => do
    let (body, left) ← enclosed '"' rest
    let text ← (Json.parse? (String.ofList ('"' :: body ++ ['"']))).bind Json.asText?
    return (.quotedName text, left)
  | '\x27' :: rest => do
    let (body, left) ← enclosed '\x27' rest
    return (.literal (.str (String.ofList (unescape '\x27' body))), left)
  | '\x60' :: rest => do
    let (body, left) ← enclosed '\x60' rest
    return (.literal (← Json.parse? (String.ofList (unescape '\x60' body))), left)
  | '-' :: rest => do
    let digits := rest.takeWhile Char.isDigit
    if digits.isEmpty ∨ digits.head? = some '0' then none
    return (.number (← numberOf? true digits), rest.dropWhile Char.isDigit)
  | c :: rest =>
    match c with
    | '.' => some (.dot, rest)
    | '[' => some (.openBracket, rest)
    | ']' => some (.closeBracket, rest)
    | '*' => some (.star, rest)
    | '|' => some (.pipe, rest)
    | '@' => some (.current, rest)
    | '{' => some (.openBrace, rest)
    | '}' => some (.closeBrace, rest)
    | '&' => some (.ampersand, rest)
    | '(' => some (.openParen, rest)
    | ')' => some (.closeParen, rest)
    | ',' => some (.comma, rest)
    | ':' => some (.colon, rest)
    | '>' => some (.gt, rest)
    | '<' => some (.lt, rest)
    | '!' => some (.not, rest)
    | _ =>
      if startsName c then
        some (.name (String.ofList (c :: rest.takeWhile continuesName)),
          rest.dropWhile continuesName)
      else if c.isDigit then do
        return (.number (← numberOf? false (c :: rest.takeWhile Char.isDigit)),
          rest.dropWhile Char.isDigit)
      else none

def byteLength (cs : List Char) : Nat := cs.foldl (fun n c => n + c.utf8Size) 0

/-- The tokens of a text of `total` bytes. The first argument bounds their number. -/
def tokens (total : Nat) : Nat → List Char → Option (List Placed)
  | 0, _ => none
  | fuel + 1, cs =>
    match Json.Parser.skipBlank cs with
    | [] => some []
    | c :: rest => do
      let (token, left) ← next? (c :: rest)
      let later ← tokens total fuel left
      return ⟨total - byteLength (c :: rest), token⟩ :: later

end Lexer

def Token.scan? (text : String) : Option (List Placed) :=
  let cs := text.toList
  Lexer.tokens (Lexer.byteLength cs) (cs.length + 1) cs

end FlowEngine.Query
