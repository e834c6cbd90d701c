import FlowEngine.Json.Basic
import FlowEngine.Text.Unsigned

/-!
# YAML nodes

A node is a scalar, a sequence or a mapping. A quoted scalar is a text; a plain
one is what its spelling says under the core schema.
-/
namespace FlowEngine

inductive Yaml where
  | scalar (text : String) (plain : Bool)
  | seq (items : List Yaml)
  | map (entries : List (Yaml × Yaml))

namespace Yaml

def empty : Yaml := .scalar "" true

instance : Inhabited Yaml := ⟨empty⟩

namespace Plain

def isNull (text : String) : Bool := ["", "~", "null", "Null", "NULL"].contains text

def bool? (text : String) : Option Bool :=
  if ["true", "True", "TRUE"].contains text then some true
  else if ["false", "False", "FALSE"].contains text then some false
  else none

def digit? (base : Nat) (c : Char) : Option Nat :=
  let value := if c.isDigit then some (c.toNat - '0'.toNat)
    else if 'a' ≤ c ∧ c ≤ 'f' then some (c.toNat - 'a'.toNat + 10)
    else if 'A' ≤ c ∧ c ≤ 'F' then some (c.toNat - 'A'.toNat + 10)
    else none
  value.filter (· < base)

def digits? (base : Nat) (cs : List Char) : Option Nat :=
  if cs.isEmpty then none
  else cs.foldlM (fun n c => (digit? base c).map fun d => n * base + d) 0

def hasLeadingZero : List Char → Bool
  | '0' :: c :: rest => (c :: rest).all Char.isDigit
  | _ => false

/-- A number without a sign: decimal, or in another base after its mark. -/
def magnitude? : List Char → Option Nat
  | '0' :: 'x' :: rest => digits? 16 rest
  | '0' :: 'o' :: rest => digits? 8 rest
  | '0' :: 'b' :: rest => digits? 2 rest
  | cs => if hasLeadingZero cs then none else digits? 10 cs

def int? : List Char → Option Int
  | '-' :: rest => (magnitude? rest).map fun n => -(n : Int)
  | '+' :: rest => (magnitude? rest).map Int.ofNat
  | cs => (magnitude? cs).map Int.ofNat

def sign : List Char → Bool × List Char
  | '-' :: rest => (true, rest)
  | '+' :: rest => (false, rest)
  | cs => (false, cs)

/-- The power of ten after the mark of an exponent; no text stands for none. -/
def exponent? : List Char → Option Int
  | [] => some 0
  | c :: rest =>
    if c = 'e' ∨ c = 'E' then
      let (negative, digits) := sign rest
      (digits? 10 digits).map fun n => if negative then -(n : Int) else n
    else none

def nearest (value : Nat) (exponent : Int) : Float :=
  if value = 0 then 0
  else if exponent < -(400 + value.log2 : Int) then 0
  else if 400 < exponent then 1 / 0
  else .ofScientific value (exponent < 0) exponent.natAbs

def double? (cs : List Char) : Option Float :=
  let (negative, body) := sign cs
  let whole := body.takeWhile Char.isDigit
  let rest := body.dropWhile Char.isDigit
  let (fraction, tail) := match rest with
    | '.' :: rest => (rest.takeWhile Char.isDigit, rest.dropWhile Char.isDigit)
    | rest => ([], rest)
  let digits := whole ++ fraction
  if digits.isEmpty then none
  else do
    let exponent ← exponent? tail
    let x := nearest (Text.digitsValue digits) (exponent - fraction.length)
    if x.isFinite then some (if negative then -x else x) else none

def isNonFinite (text : String) : Bool :=
  [".inf", ".Inf", ".INF", "+.inf", "+.Inf", "+.INF", "-.inf", "-.Inf", "-.INF", ".nan", ".NaN",
    ".NAN"].contains text

/-- The value of a plain scalar. An integer that fits no 64-bit word has none, unless it
fits no 128-bit word either; then it is a double. -/
def value? (text : String) : Option Json :=
  if isNull text then some .null
  else match bool? text with
    | some b => some (.bool b)
    | none =>
      match int? text.toList with
      | some i =>
        match Number.ofInt? i with
        | some n => some (.num n)
        | none =>
          if -Int.pow 2 127 ≤ i ∧ i < Int.pow 2 128 then none
          else (double? text.toList).map Json.ofFloat
      | none =>
        if isNonFinite text then some .null
        else if hasLeadingZero (sign text.toList).2 then some (.str text)
        else match double? text.toList with
          | some x => some (Json.ofFloat x)
          | none => some (.str text)

end Plain

def isNull : Yaml → Bool
  | scalar text plain => plain && Plain.isNull text
  | _ => false

mutual
/-- The JSON value of a node; the keys of a mapping have to be texts. -/
def toJson? : Yaml → Option Json
  | scalar text plain => if plain then Plain.value? text else some (.str text)
  | seq items => (itemsToJson? items).map .arr
  | map entries => (entriesToJson? entries).map .object

def itemsToJson? : List Yaml → Option (List Json)
  | [] => some []
  | item :: rest => do return (← item.toJson?) :: (← itemsToJson? rest)

def entriesToJson? : List (Yaml × Yaml) → Option (List (String × Json))
  | [] => some []
  | (key, value) :: rest => do
    return (← (← key.toJson?).asText?, ← value.toJson?) :: (← entriesToJson? rest)
end

def fields? : Yaml → Option (List (String × Yaml))
  | map entries => entries.mapM fun (key, value) => match key with
    | scalar text _ => some (text, value)
    | _ => none
  | _ => none

/-- The JSON value of a node whose place asks for a text: a scalar is taken as it
is spelled. -/
def textToJson? : Yaml → Option Json
  | scalar text _ => some (.str text)
  | node => node.toJson?

def optionalTextToJson? (node : Yaml) : Option Json :=
  if node.isNull then some .null else node.textToJson?

end Yaml
end FlowEngine
