import FlowEngine.Decimal.Shortest
import FlowEngine.Json.Basic

/-!
# JSON text of a value

Compact text: no blanks, object fields in key order, doubles with the fewest
digits that read back and always with a point or an exponent.
-/
namespace FlowEngine

def digitsOf (n : Nat) : List Char := Nat.toDigits 10 n

/-- The signed exponent of scientific notation; a positive one shows its sign. -/
def exponentText (e : Int) : String :=
  (if e < 0 then "-" else "+") ++ String.ofList (digitsOf e.natAbs)

/-- Lays out a positive decimal: positionally when the exponent of its leading
digit is from -5 to 15, scientifically otherwise. -/
def Decimal.Scaled.layout (d : Decimal.Scaled) : String :=
  let digits := digitsOf d.digits
  let leading := d.exponent + (digits.length : Int) - 1
  if -5 ≤ leading ∧ leading < 16 then
    if leading < 0 then
      "0." ++ String.ofList (List.replicate ((-leading).toNat - 1) '0' ++ digits)
    else
      let whole := leading.toNat + 1
      let padded := digits ++ List.replicate (whole - digits.length) '0'
      let fraction := padded.drop whole
      String.ofList (padded.take whole) ++ "."
        ++ (if fraction.isEmpty then "0" else String.ofList fraction)
  else
    let rest := digits.drop 1
    String.ofList (digits.take 1)
      ++ (if rest.isEmpty then "" else "." ++ String.ofList rest)
      ++ "e" ++ exponentText leading

def doubleText (x : Float) : String :=
  let bits := x.toBits
  let sign := if bits >>> 63 = 1 then "-" else ""
  let magnitude := Decimal.Binary.ofBits bits
  sign ++
    (if magnitude.significand = 0 then "0.0" else magnitude.shortest.stripZeros.layout)

def Number.render : Number → String
  | .int i _ => toString i
  | .double x _ => doubleText x

namespace Json

def hexDigit (n : Nat) : Char :=
  if n < 10 then Char.ofNat (48 + n) else Char.ofNat (87 + n)

def escapeChar (c : Char) : List Char :=
  if c = '"' then ['\\', '"']
  else if c = '\\' then ['\\', '\\']
  else if c = '\n' then ['\\', 'n']
  else if c = '\r' then ['\\', 'r']
  else if c = '\t' then ['\\', 't']
  else if c = '\x08' then ['\\', 'b']
  else if c = '\x0c' then ['\\', 'f']
  else if c.toNat < 0x20 then
    ['\\', 'u', '0', '0', hexDigit (c.toNat / 16), hexDigit (c.toNat % 16)]
  else [c]

/-- A text in double quotes. Quotes, backslashes and control characters are escaped. -/
def quote (s : String) : String :=
  String.ofList ('"' :: s.toList.flatMap escapeChar ++ ['"'])

mutual
def renderOnto (text : String) : Json → String
  | .null => text ++ "null"
  | .bool b => text ++ (if b then "true" else "false")
  | .num n => text ++ n.render
  | .str s => text ++ quote s
  | .arr items => renderItemsOnto (text ++ "[") items ++ "]"
  | .obj fields => renderFieldsOnto (text ++ "\x7b") fields ++ "\x7d"

def renderItemsOnto (text : String) : List Json → String
  | [] => text
  | [v] => v.renderOnto text
  | v :: w :: rest => renderItemsOnto (v.renderOnto text ++ ",") (w :: rest)

def renderFieldsOnto (text : String) : List (String × Json) → String
  | [] => text
  | [(k, v)] => v.renderOnto (text ++ quote k ++ ":")
  | (k, v) :: f :: rest =>
    renderFieldsOnto (v.renderOnto (text ++ quote k ++ ":") ++ ",") (f :: rest)
end

def render (v : Json) : String := v.renderOnto ""

end Json
end FlowEngine
