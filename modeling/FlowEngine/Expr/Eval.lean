import FlowEngine.Expr.Basic
import FlowEngine.Json.Printer
import FlowEngine.Query.Eval
import FlowEngine.Scope

/-!
# Evaluating expressions

Arithmetic on two signed 64-bit integers is exact or fails; with any other pair
of numbers it is done on doubles. A quotient is an integer when it is whole.
-/
namespace FlowEngine
namespace Expr

inductive Fault where
  | scope (fault : Scope.Fault)
  | query (fault : Query.Fault)
  | integerOverflow
  | divisionByZero
  | notBoolean (op : BinaryOp) (got : Json)
  | notNegatable (got : Json)
  | notNumbers (op : BinaryOp) (left right : Json)
  | incomparable (left right : Json)
  | notSearchable (needle : Json)
  | noMembers (container : Json)

def Fault.toError : Fault → EngineError
  | scope fault => fault.toError
  | query fault => .validation fault.message
  | integerOverflow => .validation "Integer overflow"
  | divisionByZero => .validation "Division by zero"
  | notBoolean op got => .validation s!"Operator {op.label} expects booleans, got {got.render}"
  | notNegatable got => .validation s!"Cannot negate {got.render}"
  | notNumbers op left right =>
    .validation s!"Operator {op.label} expects numbers, got {left.render} and {right.render}"
  | incomparable left right =>
    .validation s!"Cannot compare {left.render} with {right.render}"
  | notSearchable needle => .validation s!"Cannot search for {needle.render} in a string"
  | noMembers container =>
    .validation s!"Membership test needs a list, object or string, got {container.render}"

def signed (i : Int) : Except Fault Json :=
  if h : -9_223_372_036_854_775_808 ≤ i ∧ i < 9_223_372_036_854_775_808 then
    .ok (.num (.int i (by omega)))
  else .error .integerOverflow

/-- Whether a quotient or remainder of two integers leaves the signed 64-bit range. -/
def quotientOverflows (a b : Int) : Bool := a = -9_223_372_036_854_775_808 && b = -1

def integerArith (op : BinaryOp) (a b : Int) (mismatch : Fault) : Except Fault Json :=
  match op with
  | .add => signed (a + b)
  | .sub => signed (a - b)
  | .mul => signed (a * b)
  | .div =>
    if b = 0 then .error .divisionByZero
    else if quotientOverflows a b then .error .integerOverflow
    else if a.tmod b = 0 then signed (a.tdiv b)
    else .ok (.ofFloat (Float.ofInt a / Float.ofInt b))
  | .mod =>
    if b = 0 then .error .divisionByZero
    else if quotientOverflows a b then .error .integerOverflow
    else signed (a.tmod b)
  | _ => .error mismatch

/-- The remainder of a division of finite doubles, with the sign of the dividend. -/
def floatRemainder (a b : Float) : Float :=
  let x := Decimal.Binary.ofBits a.toBits
  let y := Decimal.Binary.ofBits b.toBits
  let unit := min x.exponent y.exponent
  let rest := (x.significand * Nat.pow 2 (x.exponent - unit).toNat)
    % (y.significand * Nat.pow 2 (y.exponent - unit).toNat)
  let magnitude := (Float.ofNat rest).scaleB unit
  if a.toBits >>> 63 = 1 then -magnitude else magnitude

/-- Arithmetic on doubles; a result that is not finite becomes null. -/
def floatArith (op : BinaryOp) (a b : Float) (mismatch : Fault) : Except Fault Json :=
  match op with
  | .add => .ok (.ofFloat (a + b))
  | .sub => .ok (.ofFloat (a - b))
  | .mul => .ok (.ofFloat (a * b))
  | .div => if b == 0 then .error .divisionByZero else .ok (.ofFloat (a / b))
  | .mod => if b == 0 then .error .divisionByZero else .ok (.ofFloat (floatRemainder a b))
  | _ => .error mismatch

def arith (op : BinaryOp) (left right : Json) : Except Fault Json :=
  let mismatch := .notNumbers op left right
  match left.asSigned?, right.asSigned? with
  | some a, some b => integerArith op a b mismatch
  | _, _ =>
    match left.asFloat?, right.asFloat? with
    | some a, some b => floatArith op a b mismatch
    | _, _ => .error mismatch

def display : Json → String
  | .str s => s
  | v => v.render

def plus (left right : Json) : Except Fault Json :=
  match left, right with
  | .str a, b => .ok (.str (a ++ display b))
  | a, .str b => .ok (.str (display a ++ b))
  | .arr a, .arr b => .ok (.arr (a ++ b))
  | _, _ => arith .add left right

def order? (left right : Json) : Option Ordering :=
  match left, right with
  | .num a, .num b => some (a.valueCompare b)
  | .str a, .str b => some (compare a b)
  | _, _ => none

def member (element container : Json) : Except Fault Json :=
  match container with
  | .arr items => .ok (.bool (items.any fun v => v.valueEq element))
  | .obj fields =>
    match element with
    | .str key => .ok (.bool (Fields.has key fields))
    | _ => .ok (.bool false)
  | .str text =>
    match element with
    | .str part => .ok (.bool (Query.occursIn part.toList text.toList))
    | _ => .error (.notSearchable element)
  | _ => .error (.noMembers container)

def ordered (test : Ordering → Bool) (left right : Json) : Except Fault Json :=
  match order? left right with
  | some o => .ok (.bool (test o))
  | none => .error (.incomparable left right)

def expectBool (op : BinaryOp) : Json → Except Fault Bool
  | .bool b => .ok b
  | v => .error (.notBoolean op v)

def applyUnary : UnaryOp → Json → Except Fault Json
  | .not, v =>
    match v with
    | .bool b => .ok (.bool !b)
    | _ => .error (.notNegatable v)
  | .neg, v =>
    match v.asSigned?, v.asFloat? with
    | some i, _ => signed (-i)
    | none, some x => .ok (.ofFloat (-x))
    | none, none => .error (.notNegatable v)

def applyBinary (op : BinaryOp) (left right : Json) : Except Fault Json :=
  match op with
  | .add => plus left right
  | .sub | .mul | .div | .mod => arith op left right
  | .eq => .ok (.bool (left.valueEq right))
  | .ne => .ok (.bool !(left.valueEq right))
  | .lt => ordered (· = .lt) left right
  | .le => ordered (· ≠ .gt) left right
  | .gt => ordered (· = .gt) left right
  | .ge => ordered (· ≠ .lt) left right
  | .and => do return .bool ((← expectBool op left) && (← expectBool op right))
  | .or => do return .bool ((← expectBool op left) || (← expectBool op right))
  | .within => member left right

mutual
/-- The value of an expression. The second operand of `and` and `or` is
evaluated only when the first one does not settle the result. -/
def eval : Expr → Scope → Except Fault Json
  | literal value, _ => .ok value
  | var path, s =>
    match s.resolvePath path with
    | .ok v => .ok v
    | .error fault => .error (.scope fault)
  | unary op operand, s => do applyUnary op (← operand.eval s)
  | binary op left right, s => do
    let a ← left.eval s
    match op with
    | .and =>
      if ← expectBool op a then return .bool (← expectBool op (← right.eval s))
      else return .bool false
    | .or =>
      if ← expectBool op a then return .bool true
      else return .bool (← expectBool op (← right.eval s))
    | _ => applyBinary op a (← right.eval s)
  | list items, s => do return .arr (← evalItems items s)
  | object fields, s => do return .object (← evalFields fields s)
  | query expression, s =>
    match Query.run expression (.obj s.visible) with
    | .ok v => .ok v
    | .error fault => .error (.query fault)

def evalItems : List Expr → Scope → Except Fault (List Json)
  | [], _ => .ok []
  | e :: rest, s => do
    let v ← e.eval s
    return v :: (← evalItems rest s)

def evalFields : List (String × Expr) → Scope → Except Fault (List (String × Json))
  | [], _ => .ok []
  | (name, e) :: rest, s => do
    let v ← e.eval s
    return (name, v) :: (← evalFields rest s)
end

variable {operand left right : Expr} {s : Scope} {a b : Json}

theorem eval_unary (op : UnaryOp) (h : operand.eval s = .ok a) :
    (unary op operand).eval s = applyUnary op a := by
  rw [eval, h]
  rfl

/-- All operators but `and` and `or` are applied to the values of both operands. -/
theorem eval_binary {op : BinaryOp} (strict : op ≠ .and ∧ op ≠ .or) (hleft : left.eval s = .ok a)
    (hright : right.eval s = .ok b) : (binary op left right).eval s = applyBinary op a b := by
  rw [eval, hleft, hright]
  cases op <;> first | rfl | simp at strict

end Expr
end FlowEngine
