import FlowEngine.Expr.Eval
import FlowEngine.Outcome
import FlowEngine.Step.Codec

/-!
# Decisions of control flow

Which branch or arm is taken, how often a loop runs and what an iteration binds.
The bodies that are chosen from may be steps or anything else.
-/
namespace FlowEngine.Control

inductive Fault where
  | expr (fault : Expr.Fault)
  | conditionNotBoolean (got : Json)
  | noClause (subject : Json)
  | badCount (got : Json)
  | notIterable (got : Json)
  | notDestructurable (got : Json) (names : Nat)

def Fault.toError : Fault → EngineError
  | expr fault => fault.toError
  | conditionNotBoolean got =>
    .validation s!"Condition must evaluate to a boolean, got {got.render}"
  | noClause subject => .matchExhausted s!"No clause matches {subject.render}"
  | badCount got => .validation s!"Loop count must be a non-negative integer, got {got.render}"
  | notIterable got => .validation s!"Cannot iterate over {got.render}"
  | notDestructurable got names =>
    .validation s!"Cannot destructure {got.render} into {names} names"

def evaluate (e : Expr) (s : Scope) : Except Fault Json := (e.eval s).mapError .expr

def evalCondition (condition : Expr) (s : Scope) : Except Fault Bool := do
  match ← evaluate condition s with
  | .bool b => return b
  | v => throw (.conditionNotBoolean v)

/-- The body of the first branch whose condition holds, or else `otherwise`. -/
def selectBranch {α : Type} : List (Expr × α) → Option α → Scope → Except Fault (Option α)
  | [], otherwise, _ => .ok otherwise
  | (condition, body) :: rest, otherwise, s => do
    if ← evalCondition condition s then return some body else selectBranch rest otherwise s

abbrev Binding := String × Json

def Pattern.accepts? (subject : Json) : Pattern → Option (Option Binding)
  | .literal value => if subject.valueEq value then some none else none
  | .ok bind =>
    match subject.unwrapEnvelope? with
    | some (.value v) => some (bind.map fun name => (name, v))
    | _ => none
  | .err bind =>
    match subject.unwrapEnvelope? with
    | some (.error e) => some (bind.map fun name => (name, e))
    | _ => none

/-- The body of the first arm that accepts a value, with what it binds, or else
`otherwise`. An envelope that no arm accepts selects nothing. -/
def selectArm {α : Type} (subject : Json) : List (Pattern × α) → Option α →
    Except Fault (Option (α × Option Binding))
  | [], some body => .ok (some (body, none))
  | [], none => if subject.unwrapEnvelope?.isSome then .ok none else .error (.noClause subject)
  | (pattern, body) :: rest, otherwise =>
    match Pattern.accepts? subject pattern with
    | some binding => .ok (some (body, binding))
    | none => selectArm subject rest otherwise

def loopCount (v : Json) : Except Fault Nat :=
  match v.asUnsigned?, v.asFloat? with
  | some n, _ => .ok n
  | none, some x =>
    if 0 ≤ x && x.floor == x then .ok x.toUInt64.toNat else .error (.badCount v)
  | none, none => .error (.badCount v)

/-- The elements of a collection; an object gives pairs of a key and a value. -/
def collectionItems : Json → Except Fault (List Json)
  | .arr items => .ok items
  | .obj fields => .ok (fields.map fun (k, v) => .arr [.str k, v])
  | v => .error (.notIterable v)

/-- What a loop binds for one element. A field that several names ask for goes
to the first of them. -/
def loopBindings (binding : LoopBinding) (item : Json) : Except Fault (List Binding) :=
  match binding with
  | .single name => .ok [(name, item)]
  | .destructure names =>
    match item with
    | .arr values =>
      if values.length = names.length then .ok (names.zip values)
      else .error (.notDestructurable item names.length)
    | .obj fields => .ok (takeFields names fields)
    | v => .error (.notDestructurable v names.length)
where
  takeFields : List String → List (String × Json) → List Binding
    | [], _ => []
    | name :: rest, fields =>
      (name, (Fields.get? name fields).getD .null) :: takeFields rest (Fields.erase name fields)

def declareAll (bindings : List Binding) (s : Scope) : Scope :=
  bindings.foldl (fun s (name, value) => s.declareLocal name value) s

end FlowEngine.Control
