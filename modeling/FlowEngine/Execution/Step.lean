import FlowEngine.Execution.Action

/-!
# Programs of steps

The program of a step, by recursion on the step. The branches of a fan-out are
handed over as data; each becomes a program of its own when it starts.
-/
namespace FlowEngine

open Exec Execution

mutual
def Step.run : Step → Context → Exec Reached
  | .mk id action retry timeout, ctx =>
    let limit := timeout.orElse fun _ => if action.isExternal then ctx.stepLimit else none
    node ctx id action.kind retry (withDeadline ctx id limit fun ctx => action.run id ctx)

def Action.run : Action → String → Context → Exec Reached
  | .call route spec, id, ctx => Reached.value <$> call ctx id route spec
  | .record op spec, id, ctx => Reached.value <$> record ctx id op spec
  | .script e bind, _, _ => do
    let value ← evaluate e
    match bind with
    | some name => modify (Scope.assign name value)
    | none => pure ()
    return .value value
  | .assign target e declare, _, _ => do
    let value ← evaluate e
    modify (assignTo (.ofText target) declare value)
    return .value value
  | .conditional branches otherwise, _, ctx => do
    chosen (← decided (Control.selectBranch (branchPrograms branches ctx)
      (optionProgram otherwise ctx)))
  | .choose subject arms otherwise, _, ctx => do
    let subject ← evaluate subject
    chosenArm (← decided fun _ => Control.selectArm subject (armPrograms arms ctx)
      (optionProgram otherwise ctx))
  | .guard condition body, _, ctx => guarded condition (runSequence body ctx .null)
  | .repeatTimes count counter body, _, ctx => do
    let count ← evaluate count
    let count ← decided fun _ => Control.loopCount count
    return .value (.arr (← times counter (runSequence body ctx .null) count 1 []))
  | .repeatForEach collection binding index body, _, ctx => do
    let collection ← evaluate collection
    let items ← decided fun _ => Control.collectionItems collection
    return .value (.arr (← each binding index (runSequence body ctx .null) items 0 []))
  | .forEach collection binding body join collect, id, ctx => do
    let collection ← evaluate collection
    let items ← decided fun _ => Control.collectionItems collection
    fanOut ctx id join (elementBranches binding body collect items)
  | .parallel branches join, id, ctx => fanOut ctx id join (parallelBranches branches)
  | .transaction body onError, id, ctx =>
    transaction ctx id (runSequence body ctx .null) (optionProgram onError ctx)

/-- The program of a sequence of steps. It ends with the output of the last step
that ran, or with `last` if there is none. -/
def runSequence : List Step → Context → Json → Exec Json
  | [], _, last => return last
  | step :: rest, ctx, _ => do
    let reached ← step.run ctx
    if reached.leaves then return reached.output else runSequence rest ctx reached.output

def optionProgram : Option (List Step) → Context → Option (Exec Json)
  | none, _ => none
  | some body, ctx => some (runSequence body ctx .null)

def branchPrograms : List (Expr × List Step) → Context → List (Expr × Exec Json)
  | [], _ => []
  | (condition, body) :: rest, ctx =>
    (condition, runSequence body ctx .null) :: branchPrograms rest ctx

def armPrograms : List (Pattern × List Step) → Context → List (Pattern × Exec Json)
  | [], _ => []
  | (pattern, body) :: rest, ctx =>
    (pattern, runSequence body ctx .null) :: armPrograms rest ctx
end

def Branch.program : Branch → Program (Except Failure Json)
  | steps ctx scope body collect => do
    let (result, scope) ← runSequence body ctx .null scope
    match result, collect with
    | .ok _, some e => return (Control.evaluate e scope).mapError fun f => f.toError.toFailure
    | result, _ => return result
  | timed observed delay result => do
    let waited : Bool ← Program.ask (.sleep observed delay)
    if waited then return result else return .error (.cancelled "sibling failed")

end FlowEngine
