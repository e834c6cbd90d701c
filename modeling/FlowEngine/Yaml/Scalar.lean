import FlowEngine.Json.Parser
import FlowEngine.Yaml.Cursor

/-!
# Scalars of a document

A scalar may go on over several lines. One line end between two of them stands for
a space, and each further one for a line end.
-/
namespace FlowEngine.Yaml

def folded (breaks : Nat) : List Char :=
  if breaks = 1 then [' '] else List.replicate (breaks - 1) '\n'

/-- The number of line ends before the next content of a scalar, and what is left. -/
def dropBreaks : List Char → Nat → Nat × List Char
  | [], breaks => (breaks, [])
  | c :: rest, breaks =>
    if c = '\n' then dropBreaks rest (breaks + 1)
    else if c = ' ' || c = '\t' then dropBreaks rest breaks
    else (breaks, c :: rest)

/-! ## Quoted scalars -/

/-- The text between single quotes. `text` holds what was read, the last character
first, and `blanks` the blanks after it. -/
def singleQuoted : Nat → List Char → (text blanks : List Char) → Option (String × List Char)
  | 0, _, _, _ => none
  | fuel + 1, cs, text, blanks =>
    match cs with
    | [] => none
    | '\x27' :: '\x27' :: rest => singleQuoted fuel rest ('\x27' :: blanks ++ text) []
    | '\x27' :: rest => some (String.ofList (blanks ++ text).reverse, rest)
    | c :: rest =>
      if c = '\n' then
        let (breaks, rest) := dropBreaks rest 1
        singleQuoted fuel rest ((folded breaks).reverse ++ text) []
      else if c = ' ' || c = '\t' then singleQuoted fuel rest text (c :: blanks)
      else singleQuoted fuel rest (c :: blanks ++ text) []

def escape? : Char → Option Char
  | '0' => some '\x00'
  | 'a' => some '\x07'
  | 'b' => some '\x08'
  | 't' | '\t' => some '\t'
  | 'n' => some '\n'
  | 'v' => some '\x0b'
  | 'f' => some '\x0c'
  | 'r' => some '\x0d'
  | 'e' => some '\x1b'
  | ' ' => some ' '
  | '"' => some '"'
  | '/' => some '/'
  | '\\' => some '\\'
  | 'N' => some '\u0085'
  | '_' => some '\u00a0'
  | 'L' => some '\u2028'
  | 'P' => some '\u2029'
  | _ => none

def codeLength? : Char → Option Nat
  | 'x' => some 2
  | 'u' => some 4
  | 'U' => some 8
  | _ => none

def codeChar? (digits : List Char) : Option Char := do
  let code ← digits.foldlM (fun n c => (Json.Parser.hexValue? c).map fun d => n * 16 + d) 0
  if h : code.isValidChar then some (Char.ofNatAux code h) else none

def doubleQuoted : Nat → List Char → (text blanks : List Char) → Option (String × List Char)
  | 0, _, _, _ => none
  | fuel + 1, cs, text, blanks =>
    match cs with
    | [] => none
    | '"' :: rest => some (String.ofList (blanks ++ text).reverse, rest)
    | '\\' :: '\n' :: rest => doubleQuoted fuel (dropBreaks rest 0).2 (blanks ++ text) []
    | '\\' :: c :: rest =>
      match escape? c, codeLength? c with
      | some e, _ => doubleQuoted fuel rest (e :: blanks ++ text) []
      | none, some n => do
        if rest.length < n then none
        let e ← codeChar? (rest.take n)
        doubleQuoted fuel (rest.drop n) (e :: blanks ++ text) []
      | none, none => none
    | c :: rest =>
      if c = '\n' then
        let (breaks, rest) := dropBreaks rest 1
        doubleQuoted fuel rest ((folded breaks).reverse ++ text) []
      else if c = ' ' || c = '\t' then doubleQuoted fuel rest text (c :: blanks)
      else doubleQuoted fuel rest (c :: blanks ++ text) []

/-! ## Plain scalars -/

def isBracket (c : Char) : Bool := ",[]\x7b\x7d".contains c

def startsPlain (bracketed : Bool) : List Char → Bool
  | [] => false
  | c :: rest =>
    if c = '-' then !startsBlank rest
    else if c = '?' || c = ':' then !bracketed && !startsBlank rest
    else !(startsBlank [c] || isBracket c || "#&*!|>\x27\"%@\x60".contains c)

def plainLine (bracketed : Bool) : List Char → (afterBlank : Bool) →
    Option (List Char × List Char)
  | [], _ => some ([], [])
  | c :: rest, afterBlank =>
    if c = '\n' || (c = '#' && afterBlank) || (c = ':' && startsBlank rest)
        || (bracketed && isBracket c) then some ([], c :: rest)
    else if bracketed && c = ':' && rest.head?.any fun d => d = '?' || isBracket d then none
    else (plainLine bracketed rest (startsBlank [c])).map fun (part, left) => (c :: part, left)

/-- A text without the blanks at its end. -/
def trimmed (cs : List Char) : List Char :=
  (cs.reverse.dropWhile fun c => c = ' ' || c = '\t').reverse

/-- The further lines of a plain scalar, which are indented by at least a number of
columns, and what is left. -/
def plainLines (bracketed : Bool) (indent : Nat) : Nat → Cursor → List Char →
    Option (List Char × Cursor)
  | 0, _, _ => none
  | fuel + 1, c, text =>
    if c.rest.head? ≠ some '\n' then some (text, c)
    else
      let (breaks, rest) := dropBreaks c.rest 0
      let next := c.moveTo rest
      let goesOn := !rest.isEmpty && !(rest.head? = some '#')
        && (bracketed || indent ≤ next.column)
      if goesOn then do
        let (part, left) ← plainLine bracketed rest true
        if part.isEmpty then some (text, c)
        else
          let text := text ++ folded breaks ++ trimmed part
          plainLines bracketed indent fuel (next.moveTo left) text
      else some (text, c)

end FlowEngine.Yaml
