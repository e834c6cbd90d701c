/-!
# JSON numbers

A number is an integer from `-2^63` up to `2^64 - 1` or a finite double. The two
kinds never mix: `2.0` is not an integer. Integers are read through two windows,
the signed and the unsigned 64-bit range.
-/
namespace FlowEngine

inductive Number where
  | int (value : Int) (inRange : -9_223_372_036_854_775_808 ≤ value ∧ value < 18_446_744_073_709_551_616)
  | double (value : Float) (finite : value.isFinite = true)
deriving DecidableEq

namespace Number

def ofInt? (i : Int) : Option Number :=
  if h : -9_223_372_036_854_775_808 ≤ i ∧ i < 18_446_744_073_709_551_616 then some (.int i h)
  else none

def ofFloat? (x : Float) : Option Number :=
  if h : x.isFinite = true then some (.double x h) else none

instance : Inhabited Number := ⟨.int 0 (by decide)⟩

def toSigned? : Number → Option Int
  | .int i _ => if i < 9_223_372_036_854_775_808 then some i else none
  | .double _ _ => none

def toUnsigned? : Number → Option Nat
  | .int i _ => if 0 ≤ i then some i.toNat else none
  | .double _ _ => none

def toFloat : Number → Float
  | .int i _ => Float.ofInt i
  | .double x _ => x

/-- Equality by kind: an integer never equals a double. -/
def same : Number → Number → Bool
  | .int i _, .int j _ => i == j
  | .double x _, .double y _ => x == y
  | _, _ => false

/-- Equality by value: exact between signed integers, by nearest double otherwise. -/
def valueEq (a b : Number) : Bool :=
  match a.toSigned?, b.toSigned? with
  | some i, some j => i == j
  | _, _ => a.toFloat == b.toFloat

def valueCompare (a b : Number) : Ordering :=
  match a.toSigned?, b.toSigned? with
  | some i, some j => compare i j
  | _, _ =>
    let x := a.toFloat
    let y := b.toFloat
    if x < y then .lt else if y < x then .gt else .eq

end Number
end FlowEngine
