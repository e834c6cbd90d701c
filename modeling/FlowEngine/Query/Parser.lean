import FlowEngine.Query.Basic

/-!
# Reading a query

Operators are grouped by binding power. Every reader gets the tokens left and
returns those it did not use; the first argument bounds how far the readers call
each other and is set from the number of tokens.
-/
namespace FlowEngine.Query.Parser

def peek : List Placed → Token
  | [] => .stop
  | t :: _ => t.token

/-- The tokens after a closing one; none when another token comes next. -/
def expect? (wanted : Token → Bool) : List Placed → Option (List Placed)
  | [] => none
  | t :: rest => if wanted t.token then some rest else none

def isCloseBracket : Token → Bool
  | .closeBracket => true
  | _ => false

def isCloseParen : Token → Bool
  | .closeParen => true
  | _ => false

def comparator? : Token → Option Comparator
  | .eq => some .eq
  | .ne => some .ne
  | .lt => some .lt
  | .le => some .le
  | .gt => some .gt
  | .ge => some .ge
  | _ => none

def projectionStop : Nat := 10

/-- Reads the inside of brackets that hold numbers and colons, up to the closing
bracket. `part` counts the colons so far; the numbers read follow it. -/
def readSlice : Nat → List Placed → (part : Nat) → Option Int → Option Int → Option Int →
    Option ((Nat × Option Int × Option Int × Option Int) × List Placed)
  | 0, _, _, _, _, _ => none
  | fuel + 1, tokens, part, a, b, c =>
    match tokens with
    | [] => none
    | t :: rest =>
      match t.token with
      | .number n =>
        match peek rest with
        | .colon | .closeBracket =>
          match part with
          | 0 => readSlice fuel rest part (some n) b c
          | 1 => readSlice fuel rest part a (some n) c
          | _ => readSlice fuel rest part a b (some n)
        | _ => none
      | .closeBracket => some ((part, a, b, c), rest)
      | .colon =>
        if part ≥ 2 then none
        else match peek rest with
          | .number _ | .colon | .closeBracket => readSlice fuel rest (part + 1) a b c
          | _ => none
      | _ => none

mutual
def readQuery : Nat → Nat → List Placed → Option (Node × List Placed)
  | 0, _, _ => none
  | fuel + 1, power, tokens => do
    let (first, rest) ← readFirst fuel tokens
    readMore fuel power first rest

def readMore : Nat → Nat → Node → List Placed → Option (Node × List Placed)
  | 0, _, _, _ => none
  | fuel + 1, power, left, tokens =>
    if power < (peek tokens).bindingPower then do
      let (wider, rest) ← readOperator fuel left tokens
      readMore fuel power wider rest
    else some (left, tokens)

def readFirst : Nat → List Placed → Option (Node × List Placed)
  | 0, _ => none
  | _ + 1, [] => none
  | fuel + 1, t :: rest =>
    match t.token with
    | .current => some (.current t.offset, rest)
    | .name s => some (.field t.offset s, rest)
    | .quotedName s =>
      match peek rest with
      | .openParen => none
      | _ => some (.field t.offset s, rest)
    | .star => readValues fuel t.offset (.current t.offset) rest
    | .literal v => some (.literal t.offset v, rest)
    | .openBracket =>
      match rest with
      | ⟨_, .number _⟩ :: _ | ⟨_, .colon⟩ :: _ => readIndex fuel t.offset rest
      | ⟨_, .star⟩ :: ⟨_, .closeBracket⟩ :: left =>
        readEach fuel t.offset (.current t.offset) left
      | _ => do
        let (items, left) ← readList fuel isCloseBracket rest
        return (.list t.offset items, left)
    | .flatten => readFlatten fuel t.offset (.current t.offset) rest
    | .openBrace => do
      let (fields, left) ← readFields fuel rest
      return (.object t.offset fields, left)
    | .ampersand => do
      let (body, left) ← readQuery fuel Token.ampersand.bindingPower rest
      return (.reference t.offset body, left)
    | .not => do
      let (operand, left) ← readQuery fuel Token.not.bindingPower rest
      return (.not t.offset operand, left)
    | .filter => readFilter fuel t.offset (.current t.offset) rest
    | .openParen => do
      let (inside, left) ← readQuery fuel 0 rest
      return (inside, ← expect? isCloseParen left)
    | _ => none

def readOperator : Nat → Node → List Placed → Option (Node × List Placed)
  | 0, _, _ => none
  | _ + 1, _, [] => none
  | fuel + 1, left, t :: rest =>
    match t.token with
    | .dot =>
      match rest with
      | ⟨o, .star⟩ :: more => readValues fuel o left more
      | _ => do
        let (right, more) ← readAfterDot fuel Token.dot.bindingPower rest
        return (.chain t.offset left right, more)
    | .openBracket =>
      match rest with
      | ⟨_, .number _⟩ :: _ | ⟨_, .colon⟩ :: _ => do
        let (right, more) ← readIndex fuel t.offset rest
        return (.chain t.offset left right, more)
      | ⟨_, .star⟩ :: ⟨_, .closeBracket⟩ :: more => readEach fuel t.offset left more
      | _ => none
    | .or => do
      let (right, more) ← readQuery fuel Token.or.bindingPower rest
      return (.or t.offset left right, more)
    | .and => do
      let (right, more) ← readQuery fuel Token.and.bindingPower rest
      return (.and t.offset left right, more)
    | .pipe => do
      let (right, more) ← readQuery fuel Token.pipe.bindingPower rest
      return (.chain t.offset left right, more)
    | .openParen =>
      match left with
      | .field _ name => do
        let (args, more) ← readList fuel isCloseParen rest
        return (.call t.offset name args, more)
      | _ => none
    | .flatten => readFlatten fuel t.offset left rest
    | .filter => readFilter fuel t.offset left rest
    | other => do
      let op ← comparator? other
      let (right, more) ← readQuery fuel Token.eq.bindingPower rest
      return (.compare t.offset op left right, more)

def readProjected : Nat → Nat → List Placed → Option (Node × List Placed)
  | 0, _, _ => none
  | fuel + 1, power, tokens =>
    match tokens with
    | ⟨_, .dot⟩ :: rest => readAfterDot fuel power rest
    | ⟨_, .openBracket⟩ :: _ | ⟨_, .filter⟩ :: _ => readQuery fuel power tokens
    | ⟨o, t⟩ :: _ => if t.bindingPower < projectionStop then some (.current o, tokens) else none
    | [] => some (.current 0, [])

def readAfterDot : Nat → Nat → List Placed → Option (Node × List Placed)
  | 0, _, _ => none
  | fuel + 1, power, tokens =>
    match tokens with
    | ⟨o, .openBracket⟩ :: rest => do
      let (items, left) ← readList fuel isCloseBracket rest
      return (.list o items, left)
    | ⟨_, .name _⟩ :: _ | ⟨_, .quotedName _⟩ :: _ | ⟨_, .star⟩ :: _ | ⟨_, .openBrace⟩ :: _
    | ⟨_, .ampersand⟩ :: _ => readQuery fuel power tokens
    | _ => none

def readValues : Nat → Nat → Node → List Placed → Option (Node × List Placed)
  | 0, _, _, _ => none
  | fuel + 1, offset, left, tokens => do
    let (each, rest) ← readProjected fuel Token.star.bindingPower tokens
    return (.project offset (.values offset left) each, rest)

def readEach : Nat → Nat → Node → List Placed → Option (Node × List Placed)
  | 0, _, _, _ => none
  | fuel + 1, offset, left, tokens => do
    let (each, rest) ← readProjected fuel Token.star.bindingPower tokens
    return (.project offset left each, rest)

def readFlatten : Nat → Nat → Node → List Placed → Option (Node × List Placed)
  | 0, _, _, _ => none
  | fuel + 1, offset, left, tokens => do
    let (each, rest) ← readProjected fuel Token.flatten.bindingPower tokens
    return (.project offset (.flatten offset left) each, rest)

def readFilter : Nat → Nat → Node → List Placed → Option (Node × List Placed)
  | 0, _, _, _ => none
  | fuel + 1, offset, left, tokens => do
    let (test, rest) ← readQuery fuel 0 tokens
    let (each, more) ←
      readProjected fuel Token.filter.bindingPower (← expect? isCloseBracket rest)
    return (.project offset left (.condition offset test each), more)

def readIndex : Nat → Nat → List Placed → Option (Node × List Placed)
  | 0, _, _ => none
  | fuel + 1, offset, tokens => do
    let ((part, a, b, c), rest) ← readSlice fuel tokens 0 none none none
    if part = 0 then return (.index offset (← a), rest)
    else
      let (each, more) ← readProjected fuel Token.star.bindingPower rest
      return (.project offset (.slice offset a b (c.getD 1)) each, more)

/-- Queries up to a closing token. A comma between them may be left out, but
none may stand before the closing token. -/
def readList : Nat → (Token → Bool) → List Placed → Option (List Node × List Placed)
  | 0, _, _ => none
  | _ + 1, _, [] => none
  | fuel + 1, close, t :: rest =>
    if close t.token then some ([], rest)
    else do
      let (first, more) ← readQuery fuel 0 (t :: rest)
      let following ← match more with
        | ⟨_, .comma⟩ :: after => if close (peek after) then none else some after
        | _ => some more
      let (others, left) ← readList fuel close following
      return (first :: others, left)

def readFields : Nat → List Placed → Option (List (String × Node) × List Placed)
  | 0, _ => none
  | fuel + 1, tokens => do
    let (key, rest) ← match tokens with
      | ⟨_, .name s⟩ :: ⟨_, .colon⟩ :: rest => some (s, rest)
      | ⟨_, .quotedName s⟩ :: ⟨_, .colon⟩ :: rest => some (s, rest)
      | _ => none
    let (value, more) ← readQuery fuel 0 rest
    match more with
    | ⟨_, .closeBrace⟩ :: left => return ([(key, value)], left)
    | ⟨_, .comma⟩ :: after => do
      let (others, left) ← readFields fuel after
      return ((key, value) :: others, left)
    | _ => none
end

end FlowEngine.Query.Parser

namespace FlowEngine.Query

def Node.parse? (text : String) : Option Node := do
  let tokens ← Token.scan? text
  match Parser.readQuery (8 * tokens.length + 8) 0 tokens with
  | some (node, []) => some node
  | _ => none

end FlowEngine.Query
