import FlowEngine.Config
import FlowEngine.Execution.Step
import FlowEngine.Flow.Basic

/-!
# Programs of flows

A run of a flow: its steps under the deadline of the run, then its handler if
they failed, and at the end its result.
-/
namespace FlowEngine.Execution

def runDeadlinePassed (limit : UInt64) : Failure :=
  .new .timeout s!"run exceeded its deadline of {limit.toNat} ms"

/-- The failure that a cancelled run ends with. It is attributed to the step that
the run was cancelled in. -/
def cancellationError (limit : Option UInt64) (timedOut : Bool) (f : Failure) : Failure :=
  let error :=
    if timedOut then runDeadlinePassed (limit.getD 0)
    else if f.isCancellation then f
    else .cancelled "run cancelled"
  { error with stepId := error.stepId.orElse fun _ => f.stepId }

def settleAll (ctx : Context) : Program Unit := do
  let _ : Except Failure Nat ← Program.ask (.settle ctx.run none)
  return ()

/-- How a run ends whose failure goes to the handler of the flow, if it has one. -/
def handleFailure (flow : Flow) (ctx : Context) (limit : Option UInt64) (timedOut : Bool)
    (f : Failure) : StateT Scope Program Ending :=
  match flow.onError with
  | none => return .failed f
  | some handler => do
    match ← (boundary ctx flow.name (runSequence handler ctx .null) f).run with
    | .ok handled =>
      let _ : Unit ← StateT.lift (Program.ask (.note ctx.run (.handled handled)))
      return .completed
    | .error escaped =>
      if escaped.isCancellation then
        return .cancelled (cancellationError limit timedOut escaped)
      else return .failed escaped

/-- How a run ends whose steps failed: a handler gets the failure unless the run
is cancelled. -/
def endAfter (flow : Flow) (ctx : Context) (limit : Option UInt64) (timedOut : Bool)
    (f : Failure) : StateT Scope Program Ending := do
  let cancelled : Bool ← StateT.lift (Program.ask (.isCancelled ctx.token))
  if f.isCancellation || cancelled then
    return .cancelled (cancellationError limit timedOut f)
  else handleFailure flow ctx limit timedOut f

def startRunDeadline (token : Token) (limit : Option UInt64) : Program (Option Nat) :=
  match limit with
  | none => return none
  | some limit => do
    let deadline : Nat ← Program.ask (.startDeadline token limit)
    return some deadline

def stopRunDeadline (deadline : Option Nat) : Program Bool :=
  match deadline with
  | none => return false
  | some deadline => Program.ask (.stopDeadline deadline)

def conclude (config : Config) (flow : Flow) (ctx : Context) (deadline : Option Nat) :
    Except Failure Json × Scope → Program RunResult
  | (result, scope) => do
    settleAll ctx
    let timedOut ← stopRunDeadline deadline
    let (ending, scope) ← match result with
      | .ok _ => pure (Ending.completed, scope)
      | .error f => endAfter flow ctx config.runTimeout timedOut f scope
    settleAll ctx
    (Program.ask (.closeRun ctx.run ending scope.flow) : Program RunResult)

def run (config : Config) (flow : Flow) (inputs : List (String × Json)) (parent : Token) :
    Program RunResult := do
  let (number, token) ← (Program.ask (.openRun flow.name parent) : Program (Nat × Token))
  let ctx : Context := ⟨number, token, config.stepTimeout⟩
  let deadline ← startRunDeadline token config.runTimeout
  let result ← runSequence flow.steps ctx .null (Scope.ofBindings inputs)
  conclude config flow ctx deadline result

def submitted (config : Config) (flow : Flow) (inputs : List (String × Json)) (parent : Token) :
    Program RunResult := do
  let _ : Unit ← Program.ask .acquireSlot
  let result ← run config flow inputs parent
  let _ : Unit ← Program.ask .releaseSlot
  return result

end FlowEngine.Execution
