import FlowEngine.Json.Basic

/-!
# Reading JSON text

A value is read from a list of characters; each reader returns what is left of
it. Nesting is limited to 127 lists or objects. Numbers are read as a
64-bit significand times one power of ten.
-/
namespace FlowEngine.Json.Parser

def skipBlank : List Char → List Char
  | [] => []
  | c :: rest =>
    if c = ' ' ∨ c = '\n' ∨ c = '\t' ∨ c = '\r' then skipBlank rest else c :: rest

def isDigit (c : Char) : Bool := '0' ≤ c && c ≤ '9'

def digitValue (c : Char) : Nat := c.toNat - 48

/-- A significand and a power of ten, filled digit by digit. A digit that would
overflow 64 bits is dropped, together with all later ones. -/
structure Significand where
  value : Nat
  exponent : Int
  full : Bool

/-- Takes in a digit before the point. -/
def Significand.pushWhole (s : Significand) (d : Nat) : Significand :=
  if s.full ∨ s.value * 10 + d ≥ UInt64.size then ⟨s.value, s.exponent + 1, true⟩
  else ⟨s.value * 10 + d, s.exponent, false⟩

def Significand.pushFraction (s : Significand) (d : Nat) : Significand :=
  if s.full ∨ s.value * 10 + d ≥ UInt64.size then { s with full := true }
  else ⟨s.value * 10 + d, s.exponent - 1, false⟩

/-- The double `value * 10 ^ exponent`, scaled in one step while the power is at
most 308 and by repeated division below that; none when it overflows. -/
def scale : Nat → Float → Int → Option Float
  | 0, x, _ => some x
  | fuel + 1, x, exponent =>
    if exponent.natAbs ≤ 308 then
      let power := Float.ofScientific 1 false exponent.natAbs
      if 0 ≤ exponent then
        let y := x * power
        if y.isFinite then some y else none
      else some (x / power)
    else if x == 0 then some x
    else if 0 ≤ exponent then none
    else scale fuel (x / Float.ofScientific 1 false 308) (exponent + 308)

def doubleOf? (negative : Bool) (value : Nat) (exponent : Int) : Option Number := do
  let x ← scale 4 (Float.ofNat value) exponent
  Number.ofFloat? (if negative then -x else x)

/-- The exponent after its mark: a sign and at least one digit. An exponent
beyond 31 bits is read as a very large one. -/
def readExponent : List Char → Option (Int × List Char)
  | [] => none
  | c :: rest =>
    let negative := c = '-'
    let body := if c = '+' ∨ c = '-' then rest else c :: rest
    let digits := body.takeWhile isDigit
    if digits.isEmpty then none
    else
      let magnitude := digits.foldl (fun n d => min (n * 10 + digitValue d) 2_147_483_648) 0
      some (if negative then -(magnitude : Int) else magnitude, body.dropWhile isDigit)

def readNumber (negative : Bool) (cs : List Char) : Option (Number × List Char) := do
  let whole := cs.takeWhile isDigit
  let afterWhole := cs.dropWhile isDigit
  if whole.isEmpty ∨ (whole.head? = some '0' ∧ whole.length > 1) then none
  let start := whole.foldl (fun s d => s.pushWhole (digitValue d)) ⟨0, 0, false⟩
  match afterWhole with
  | '.' :: rest =>
    let fraction := rest.takeWhile isDigit
    if fraction.isEmpty then none
    let s := fraction.foldl (fun s d => s.pushFraction (digitValue d)) start
    match rest.dropWhile isDigit with
    | c :: tail =>
      if c = 'e' ∨ c = 'E' then
        let (e, left) ← readExponent tail
        return (← doubleOf? negative s.value (s.exponent + e), left)
      else return (← doubleOf? negative s.value s.exponent, c :: tail)
    | [] => return (← doubleOf? negative s.value s.exponent, [])
  | c :: tail =>
    if c = 'e' ∨ c = 'E' then
      let (e, left) ← readExponent tail
      return (← doubleOf? negative start.value (start.exponent + e), left)
    else return (← integral start, c :: tail)
  | [] => return (← integral start, [])
where
  /-- A literal without point and exponent: an integer if it is in range. A
  negative zero is a double. -/
  integral (s : Significand) : Option Number :=
    if s.full then doubleOf? negative s.value s.exponent
    else if negative ∧ s.value = 0 then doubleOf? true 0 0
    else
      (Number.ofInt? (if negative then -(s.value : Int) else s.value)).orElse
        fun _ => doubleOf? negative s.value 0

def hexValue? (c : Char) : Option Nat :=
  if '0' ≤ c && c ≤ '9' then some (c.toNat - 48)
  else if 'a' ≤ c && c ≤ 'f' then some (c.toNat - 87)
  else if 'A' ≤ c && c ≤ 'F' then some (c.toNat - 55)
  else none

def readUnit : List Char → Option (Nat × List Char)
  | a :: b :: c :: d :: rest => do
    let a ← hexValue? a
    let b ← hexValue? b
    let c ← hexValue? c
    let d ← hexValue? d
    return (((a * 16 + b) * 16 + c) * 16 + d, rest)
  | _ => none

/-- The character of an escape whose unit has been read; a high surrogate
needs a low one after it. -/
def readScalar (unit : Nat) (rest : List Char) : Option (Char × List Char) :=
  if 0xDC00 ≤ unit ∧ unit ≤ 0xDFFF then none
  else if 0xD800 ≤ unit ∧ unit ≤ 0xDBFF then
    match rest with
    | '\\' :: 'u' :: more => do
      let (low, left) ← readUnit more
      if 0xDC00 ≤ low ∧ low ≤ 0xDFFF then
        some (Char.ofNat (0x10000 + (unit - 0xD800) * 0x400 + (low - 0xDC00)), left)
      else none
    | _ => none
  else some (Char.ofNat unit, rest)

/-- Reads a text after its opening quote; `acc` holds its characters in reverse. -/
def readText : Nat → List Char → List Char → Option (String × List Char)
  | 0, _, _ => none
  | fuel + 1, acc, cs =>
    match cs with
    | [] => none
    | '"' :: rest => some (String.ofList acc.reverse, rest)
    | '\\' :: 'u' :: rest => do
      let (unit, more) ← readUnit rest
      let (c, left) ← readScalar unit more
      readText fuel (c :: acc) left
    | '\\' :: e :: rest =>
      match e with
      | '"' => readText fuel ('"' :: acc) rest
      | '\\' => readText fuel ('\\' :: acc) rest
      | '/' => readText fuel ('/' :: acc) rest
      | 'b' => readText fuel ('\x08' :: acc) rest
      | 'f' => readText fuel ('\x0c' :: acc) rest
      | 'n' => readText fuel ('\n' :: acc) rest
      | 'r' => readText fuel ('\r' :: acc) rest
      | 't' => readText fuel ('\t' :: acc) rest
      | _ => none
    | c :: rest => if c.toNat < 0x20 ∨ c = '\\' then none else readText fuel (c :: acc) rest

abbrev Reader (α : Type) := List Char → Option (α × List Char)

/-- Reads the items of a list after the first bracket or comma, up to the
closing bracket. -/
def readItems (item : Reader Json) : Nat → List Json → Reader (List Json)
  | 0, _, _ => none
  | fuel + 1, acc, cs => do
    let (v, rest) ← item (skipBlank cs)
    match skipBlank rest with
    | ',' :: more => readItems item fuel (v :: acc) more
    | ']' :: left => some ((v :: acc).reverse, left)
    | _ => none

/-- Reads the fields of an object after the first brace or comma, up to the
closing brace. -/
def readFields (fuelText : Nat) (item : Reader Json) :
    Nat → List (String × Json) → Reader (List (String × Json))
  | 0, _, _ => none
  | fuel + 1, acc, cs =>
    match skipBlank cs with
    | '"' :: opened => do
      let (key, rest) ← readText fuelText [] opened
      match skipBlank rest with
      | ':' :: tail =>
        let (v, rest) ← item (skipBlank tail)
        match skipBlank rest with
        | ',' :: more => readFields fuelText item fuel ((key, v) :: acc) more
        | '\x7d' :: left => some (((key, v) :: acc).reverse, left)
        | _ => none
      | _ => none
    | _ => none

/-- Reads a value that starts at the first character. `size` bounds the number
of characters left and `depth` the nesting that is still allowed. -/
def readValue (size : Nat) : Nat → Reader Json
  | 0, _ => none
  | depth + 1, cs =>
    match cs with
    | 'n' :: 'u' :: 'l' :: 'l' :: rest => some (.null, rest)
    | 't' :: 'r' :: 'u' :: 'e' :: rest => some (.bool true, rest)
    | 'f' :: 'a' :: 'l' :: 's' :: 'e' :: rest => some (.bool false, rest)
    | '"' :: rest => do
      let (s, left) ← readText size [] rest
      return (.str s, left)
    | '-' :: rest => do
      let (n, left) ← readNumber true rest
      return (.num n, left)
    | '[' :: rest =>
      if depth = 0 then none
      else match skipBlank rest with
        | ']' :: left => some (.arr [], left)
        | _ => do
          let (items, left) ← readItems (readValue size depth) size [] rest
          return (.arr items, left)
    | '\x7b' :: rest =>
      if depth = 0 then none
      else match skipBlank rest with
        | '\x7d' :: left => some (.obj [], left)
        | _ => do
          let (fields, left) ← readFields size (readValue size depth) size [] rest
          return (.object fields, left)
    | c :: rest =>
      if isDigit c then do
        let (n, left) ← readNumber false (c :: rest)
        return (.num n, left)
      else none
    | [] => none

end FlowEngine.Json.Parser

namespace FlowEngine.Json

def depthLimit : Nat := 128

/-- Reads a text that holds exactly one value. -/
def parse? (text : String) : Option Json := do
  let cs := text.toList
  let (v, rest) ← Parser.readValue (cs.length + 1) depthLimit (Parser.skipBlank cs)
  if (Parser.skipBlank rest).isEmpty then some v else none

end FlowEngine.Json
