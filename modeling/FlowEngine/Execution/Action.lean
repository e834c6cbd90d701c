import FlowEngine.Execution.Attempt

/-!
# What the actions of a step do

The parts of an action that run no steps of their own, and the shapes of those
that do, as functions on the programs of their bodies.
-/
namespace FlowEngine.Execution

open Exec

/-- Sends a request, unless the scope of the step is cancelled. -/
def send (ctx : Context) (id : String) (request : Request) : Exec Outcome := do
  let cancelled : Bool ← ask (.isCancelled ctx.token)
  if cancelled then throw ((Failure.cancelled "cancelled before collaborator call").atStep id)
  else
    let answer : Except Interruption Outcome ← ask (.request ctx.run ctx.token request)
    match answer with
    | .ok outcome => return outcome
    | .error moment => throw (moment.failure.atStep id)

/-- The value of a step whose request was answered. A captured failure becomes a
value; a bound value is assigned. -/
def receive (bind : Option String) (capture : Bool) (outcome : Outcome) : Exec Json := do
  let value ← if capture then pure outcome.envelope else ofResult outcome.toExcept
  match bind with
  | some name => modify (Scope.assign name value)
  | none => pure ()
  return value

def inputsOf (inputs : List (String × Expr)) (s : Scope) : Except Control.Fault Json := do
  let values ← inputs.mapM fun (name, e) => do return (name, ← Control.evaluate e s)
  return .object values

def call (ctx : Context) (id : String) (route : Route) (spec : CallSpec) : Exec Json := do
  let inputs ← decided (inputsOf spec.inputs)
  receive spec.bind spec.capture (← send ctx id (.call route spec.target inputs))

def payloadOf (spec : RecordSpec) : Exec Json :=
  match spec.payload with
  | some e => evaluate e
  | none => throw (EngineError.validation
      s!"Record step on {spec.record} requires a payload").toFailure

def record (ctx : Context) (id : String) (op : RecordOp) (spec : RecordSpec) : Exec Json := do
  let filter ← match spec.filter with
    | some e => evaluate e
    | none => pure (.obj [])
  let request ← match op with
    | .create => RecordRequest.create spec.record <$> payloadOf spec
    | .update => RecordRequest.update spec.record filter <$> payloadOf spec
    | .delete => pure (.delete spec.record filter)
    | .query => pure (.query spec.record filter)
  receive spec.bind spec.capture (← send ctx id (.record request))

def assignTo (target : Target) (declare : Bool) (value : Json) (s : Scope) : Scope :=
  match target with
  | .field name => s.setStateField name value
  | .binding name => if declare then s.declareLocal name value else s.assign name value

def inStepFrame (body : Exec Json) : Exec Reached :=
  Reached.value <$> inFrame (Scope.push .step) body

def chosen (body : Option (Exec Json)) : Exec Reached :=
  match body with
  | some body => inStepFrame body
  | none => return .value .null

def chosenArm (arm : Option (Exec Json × Option Control.Binding)) : Exec Reached :=
  match arm with
  | some (body, binding) =>
    Reached.value <$> inFrame (Control.declareAll binding.toList ∘ Scope.push .step) body
  | none => return .value .null

/-- Leaves the sequence after the body, unless the condition holds. -/
def guarded (condition : Expr) (body : Exec Json) : Exec Reached := do
  if ← decided (Control.evalCondition condition) then return .value (.bool true)
  else
    let _ ← body
    return ⟨.bool false, true⟩

/-- Runs a body a number of times. The counter goes on from a number; `outputs`
holds what the iterations before gave, the last one first. -/
def times (counter : Option String) (body : Exec Json) (remaining number : Nat)
    (outputs : List Json) : Exec (List Json) :=
  match remaining with
  | 0 => return outputs.reverse
  | remaining + 1 => do
    let bindings := counter.toList.map fun name => (name, Json.ofNat number)
    let output ← inFrame (Control.declareAll bindings ∘ Scope.push .loopIteration) body
    times counter body remaining (number + 1) (output :: outputs)

/-- Runs a body for each element of a list. The index goes on from a position;
`outputs` holds what the iterations before gave, the last one first. -/
def each (binding : LoopBinding) (index : Option String) (body : Exec Json) (items : List Json)
    (position : Nat) (outputs : List Json) : Exec (List Json) :=
  match items with
  | [] => return outputs.reverse
  | item :: rest => do
    let output ← inFrame (Scope.push .loopIteration) do
      let bindings ← decided fun _ => Control.loopBindings binding item
      modify (Control.declareAll bindings)
      modify (Control.declareAll (index.toList.map fun name => (name, Json.ofNat position)))
      body
    each binding index body rest (position + 1) (output :: outputs)

def fanOut (ctx : Context) (id : String) (policy : JoinPolicy)
    (branches : Context → Scope → Except Control.Fault (List Branch)) : Exec Reached := do
  let group : Token ← ask (.childToken ctx.token)
  let branches ← decided (branches { ctx with token := group })
  let joined : Except Failure (List BranchOutcome) ← ask (.join ctx.run policy group branches)
  let outcomes ← ofResult joined
  let cancelled : Bool ← ask (.isCancelled ctx.token)
  if cancelled then throw ((Failure.cancelled "cancelled during fan-out").atStep id)
  else return .value (.arr (outcomes.map BranchOutcome.envelope))

def elementBranches (binding : LoopBinding) (body : List Step) (collect : Option Expr)
    (items : List Json) (ctx : Context) (s : Scope) : Except Control.Fault (List Branch) :=
  items.mapM fun item => do
    let bindings ← Control.loopBindings binding item
    return .steps ctx (Control.declareAll bindings (s.fork .loopIteration)) body collect

def parallelBranches (bodies : List (List Step × Option Expr)) (ctx : Context) (s : Scope) :
    Except Control.Fault (List Branch) :=
  .ok (bodies.map fun (body, collect) => .steps ctx (s.fork .loopIteration) body collect)

/-- Hands a failure to a handler. The result is the failure that was handled. -/
def boundary (ctx : Context) (name : String) (handler : Exec Json) (f : Failure) :
    Exec Failure := do
  if Boundary.intercepts f then
    let _ : Unit ← ask (.note ctx.run (.boundary name f))
    let result ← (inFrame (Boundary.enter f) handler).outcome
    ofResult (Boundary.resolve f (result.map fun _ => ()))
  else throw f

/-- Waits for the branches that were left to the run, unless the scope is cancelled. -/
def settle (ctx : Context) : Exec Unit := do
  let _ : Except Failure Nat ← ask (.settle ctx.run (some ctx.token))
  return ()

def commit (ctx : Context) (handle : String) : Exec Unit := do
  let released : Except EngineError Unit ← ask (.releaseTransaction ctx.run handle)
  orFail released
  let discarded : Except EngineError Unit ← ask (.discardSnapshot handle)
  orFail discarded

def rollback (ctx : Context) (handle : String) : Exec (Except EngineError Unit) := do
  let released : Except EngineError Unit ← ask (.releaseTransaction ctx.run handle)
  match released with
  | .error e => return .error e
  | .ok () =>
    let restored : Except EngineError Unit ← ask (.restoreSnapshot handle)
    return restored

/-- Hands the failure of a body that was rolled back to the handler, if there is one. -/
def recover (ctx : Context) (id : String) (handler : Option (Exec Json)) (f : Failure) :
    Exec Reached :=
  match handler with
  | none => throw f
  | some handler => do
    let handled ← boundary ctx id handler f
    let _ : Unit ← ask (.note ctx.run (.handled handled))
    return .value .null

def undo (ctx : Context) (id handle : String) (handler : Option (Exec Json)) (f : Failure) :
    Exec Reached := do
  settle ctx
  match ← rollback ctx handle with
  | .error e => throw ((e.toFailure.atStep id).causedBy f)
  | .ok () =>
    let _ : Unit ← ask (.note ctx.run (.rolledBack id))
    recover ctx id handler f.rolledBack

/-- Runs the body of a transaction that took a snapshot, and keeps or undoes what it did. -/
def enclose (ctx : Context) (id handle : String) (body : Exec Json) (handler : Option (Exec Json)) :
    Exec Reached := do
  match ← (inFrame (Scope.push .step) body).outcome with
  | .ok output =>
    commit ctx handle
    return .value output
  | .error f => undo ctx id handle handler f

/-- Runs a body whose record changes are undone when it fails; the handler then
gets the failure. -/
def transaction (ctx : Context) (id : String) (body : Exec Json) (handler : Option (Exec Json)) :
    Exec Reached := do
  settle ctx
  let begun : Except EngineError String ← ask (.beginTransaction ctx)
  enclose ctx id (← orFail begun) body handler

end FlowEngine.Execution
