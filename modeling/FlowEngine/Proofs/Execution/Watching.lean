import FlowEngine.Proofs.Execution.Flow

/-!
# Watched runs

A watched program does what a program does, and takes down the moments that it comes to: every scope
chain that it leaves behind, the output of every step that completes, and the branches that are made
for a join. The watched programs of steps and runs are put together as those of the model are; parts
that run no steps of their own are taken over whole.
-/
namespace FlowEngine

open Exec Execution

inductive Moment where
  | scope (s : Scope)
  | completed (id : String) (output : Json)
  | forked (branches : List Branch)

/-- A scope chain with the moments on the way to it, the last one at the end. -/
structure Watched where
  scope : Scope
  line : List Moment

namespace Watched

def turn (u : Watched) (s : Scope) : Watched := ⟨s, u.line ++ [.scope s]⟩

def complete (u : Watched) (id : String) (output : Json) : Watched :=
  turn { u with line := u.line ++ [.completed id output] } (u.scope.recordOutput id output)

def fork (u : Watched) (branches : List Branch) : Watched :=
  { u with line := u.line ++ [.forked branches] }

def start (s : Scope) : Watched := turn ⟨s, []⟩ s

end Watched

abbrev Watch (α : Type) : Type := ExceptT Failure (StateT Watched Program) α

namespace Watch

variable {α β : Type}

def on (w : Watch α) (u : Watched) : Program (Except Failure α × Watched) := w u

def lift (x : Exec α) : Watch α := fun u =>
  (x.on u.scope).bind fun p => .pure (p.1, u.turn p.2)

def outcome (w : Watch α) : Watch (Except Failure α) := ExceptT.lift w.run

def inFrame (enter : Scope → Scope) (body : Watch α) : Watch α := do
  lift (modify enter)
  let result ← body.outcome
  lift (modify Scope.leave)
  lift (ofResult result)

def complete (id : String) (output : Json) : Watch Unit := modify fun u => u.complete id output

def fork (branches : Scope → Except Control.Fault (List Branch)) : Watch (List Branch) := do
  let made ← lift (decided branches)
  modify fun u => u.fork made
  return made

/-! ## Attempts of a step -/

def withDeadline (ctx : Context) (id : String) (limit : Option Millis)
    (attempt : Context → Watch α) : Watch α :=
  match limit with
  | none => attempt ctx
  | some limit => do
    let token : Token ← lift (ask (.childToken ctx.token))
    let deadline : Nat ← lift (ask (.startDeadline token limit))
    let result ← (attempt { ctx with token }).outcome
    let passed : Bool ← lift (ask (.stopDeadline deadline))
    match result with
    | .ok a => return a
    | .error f =>
      let outer : Bool ← lift (ask (.isCancelled ctx.token))
      if passed && f.isCancellation && !outer then
        throw ((deadlinePassed id limit).toFailure.atStep id)
      else throw f

def afterAttempt (ctx : Context) (id : String) (policy : Option RetryPolicy) (number : Nat)
    (again : Option (Watch (Nat × Except Failure α))) (result : Except Failure α) :
    Watch (Nat × Except Failure α) :=
  match result with
  | .ok a => return (number, .ok a)
  | .error f =>
    match Retry.decide policy number (f.atStep id), again with
    | .giveUp f, _ => return (number, .error f)
    | .retryAfter _, none => return (number, .error (f.atStep id))
    | .retryAfter delay, some again => do
      let waited : Bool ← lift (ask (.sleep (some ctx.token) delay.toNat))
      if waited then again else return (number, .error (Retry.interrupted.atStep id))

def attempts (ctx : Context) (id : String) (policy : Option RetryPolicy) (attempt : Watch α)
    (further number : Nat) : Watch (Nat × Except Failure α) :=
  match further with
  | 0 => do afterAttempt ctx id policy number none (← attempt.outcome)
  | further + 1 => do
    let again := attempts ctx id policy attempt further (number + 1)
    afterAttempt ctx id policy number (some again) (← attempt.outcome)

def node (ctx : Context) (id kind : String) (retry : Option RetryPolicy)
    (attempt : Watch Reached) : Watch Reached := do
  let cancelled : Bool ← lift (ask (.isCancelled ctx.token))
  if cancelled then
    let f := (Failure.cancelled "run cancelled before the step started").atStep id
    let _ : Unit ← lift (ask (.note ctx.run (.record ⟨id, kind, .skipped, 0, some f⟩)))
    throw f
  else
    let _ : Except EngineError Unit ← lift (ask (.startSpan ctx id))
    let (number, result) ← attempts ctx id retry attempt (Retry.maxAttempts retry - 1) 1
    let status := statusOf result
    let _ : Unit ← lift (ask (.note ctx.run (.record ⟨id, kind, status, number, failureOf? result⟩)))
    let _ : Except EngineError Unit ← lift (ask (.endSpan ctx id status))
    match result with
    | .ok reached =>
      complete id reached.output
      return reached
    | .error f => throw f

/-! ## Actions with bodies -/

def chosen (body : Option (Watch Json)) : Watch Reached :=
  match body with
  | some body => Reached.value <$> inFrame (Scope.push .step) body
  | none => return .value .null

def chosenArm (arm : Option (Watch Json × Option Control.Binding)) : Watch Reached :=
  match arm with
  | some (body, binding) =>
    Reached.value <$> inFrame (Control.declareAll binding.toList ∘ Scope.push .step) body
  | none => return .value .null

def guarded (condition : Expr) (body : Watch Json) : Watch Reached := do
  if ← lift (decided (Control.evalCondition condition)) then return .value (.bool true)
  else
    let _ ← body
    return ⟨.bool false, true⟩

def times (counter : Option String) (body : Watch Json) (remaining number : Nat)
    (outputs : List Json) : Watch (List Json) :=
  match remaining with
  | 0 => return outputs.reverse
  | remaining + 1 => do
    let bindings := counter.toList.map fun name => (name, Json.ofNat number)
    let output ← inFrame (Control.declareAll bindings ∘ Scope.push .loopIteration) body
    times counter body remaining (number + 1) (output :: outputs)

def each (binding : LoopBinding) (index : Option String) (body : Watch Json) (items : List Json)
    (position : Nat) (outputs : List Json) : Watch (List Json) :=
  match items with
  | [] => return outputs.reverse
  | item :: rest => do
    let output ← inFrame (Scope.push .loopIteration) do
      let bindings ← lift (decided fun _ => Control.loopBindings binding item)
      lift (modify (Control.declareAll bindings))
      lift (modify (Control.declareAll (index.toList.map fun name => (name, Json.ofNat position))))
      body
    each binding index body rest (position + 1) (output :: outputs)

def fanOut (ctx : Context) (id : String) (policy : JoinPolicy)
    (branches : Context → Scope → Except Control.Fault (List Branch)) : Watch Reached := do
  let group : Token ← lift (ask (.childToken ctx.token))
  let branches ← fork (branches { ctx with token := group })
  let joined : Except Failure (List BranchOutcome) ←
    lift (ask (.join ctx.run policy group branches))
  let outcomes ← lift (ofResult joined)
  let cancelled : Bool ← lift (ask (.isCancelled ctx.token))
  if cancelled then throw ((Failure.cancelled "cancelled during fan-out").atStep id)
  else return .value (.arr (outcomes.map BranchOutcome.envelope))

def boundary (ctx : Context) (name : String) (handler : Watch Json) (f : Failure) :
    Watch Failure := do
  if Boundary.intercepts f then
    let _ : Unit ← lift (ask (.note ctx.run (.boundary name f)))
    let result ← (inFrame (Boundary.enter f) handler).outcome
    lift (ofResult (Boundary.resolve f (result.map fun _ => ())))
  else throw f

def recover (ctx : Context) (id : String) (handler : Option (Watch Json)) (f : Failure) :
    Watch Reached :=
  match handler with
  | none => throw f
  | some handler => do
    let handled ← boundary ctx id handler f
    let _ : Unit ← lift (ask (.note ctx.run (.handled handled)))
    return .value .null

def undo (ctx : Context) (id handle : String) (handler : Option (Watch Json)) (f : Failure) :
    Watch Reached := do
  lift (settle ctx)
  match ← lift (rollback ctx handle) with
  | .error e => throw ((e.toFailure.atStep id).causedBy f)
  | .ok () =>
    let _ : Unit ← lift (ask (.note ctx.run (.rolledBack id)))
    recover ctx id handler f.rolledBack

def enclose (ctx : Context) (id handle : String) (body : Watch Json)
    (handler : Option (Watch Json)) : Watch Reached := do
  match ← (inFrame (Scope.push .step) body).outcome with
  | .ok output =>
    lift (commit ctx handle)
    return .value output
  | .error f => undo ctx id handle handler f

def transaction (ctx : Context) (id : String) (body : Watch Json)
    (handler : Option (Watch Json)) : Watch Reached := do
  lift (settle ctx)
  let begun : Except EngineError String ← lift (ask (.beginTransaction ctx))
  enclose ctx id (← lift (orFail begun)) body handler

end Watch

/-! ## Steps and runs -/

mutual
def Step.watch : Step → Context → Watch Reached
  | .mk id action retry timeout, ctx =>
    let limit := timeout.orElse fun _ => if action.isExternal then ctx.stepLimit else none
    .node ctx id action.kind retry (.withDeadline ctx id limit fun ctx => action.watch id ctx)

def Action.watch : Action → String → Context → Watch Reached
  | .call route spec, id, ctx => .lift (Reached.value <$> call ctx id route spec)
  | .record op spec, id, ctx => .lift (Reached.value <$> record ctx id op spec)
  | .script e bind, id, ctx => .lift ((Action.script e bind).run id ctx)
  | .assign target e declare, id, ctx => .lift ((Action.assign target e declare).run id ctx)
  | .conditional branches otherwise, _, ctx => do
    .chosen (← .lift (decided (Control.selectBranch (branchWatches branches ctx)
      (optionWatch otherwise ctx))))
  | .choose subject arms otherwise, _, ctx => do
    let subject ← .lift (evaluate subject)
    .chosenArm (← .lift (decided fun _ => Control.selectArm subject (armWatches arms ctx)
      (optionWatch otherwise ctx)))
  | .guard condition body, _, ctx => .guarded condition (watchSequence body ctx .null)
  | .repeatTimes count counter body, _, ctx => do
    let count ← .lift (evaluate count)
    let count ← .lift (decided fun _ => Control.loopCount count)
    return .value (.arr (← .times counter (watchSequence body ctx .null) count 1 []))
  | .repeatForEach collection binding index body, _, ctx => do
    let collection ← .lift (evaluate collection)
    let items ← .lift (decided fun _ => Control.collectionItems collection)
    return .value (.arr (← .each binding index (watchSequence body ctx .null) items 0 []))
  | .forEach collection binding body join collect, id, ctx => do
    let collection ← .lift (evaluate collection)
    let items ← .lift (decided fun _ => Control.collectionItems collection)
    .fanOut ctx id join (elementBranches binding body collect items)
  | .parallel branches join, id, ctx => .fanOut ctx id join (parallelBranches branches)
  | .transaction body onError, id, ctx =>
    .transaction ctx id (watchSequence body ctx .null) (optionWatch onError ctx)

def watchSequence : List Step → Context → Json → Watch Json
  | [], _, last => return last
  | step :: rest, ctx, _ => do
    let reached ← step.watch ctx
    if reached.leaves then return reached.output else watchSequence rest ctx reached.output

def optionWatch : Option (List Step) → Context → Option (Watch Json)
  | none, _ => none
  | some body, ctx => some (watchSequence body ctx .null)

def branchWatches : List (Expr × List Step) → Context → List (Expr × Watch Json)
  | [], _ => []
  | (condition, body) :: rest, ctx =>
    (condition, watchSequence body ctx .null) :: branchWatches rest ctx

def armWatches : List (Pattern × List Step) → Context → List (Pattern × Watch Json)
  | [], _ => []
  | (pattern, body) :: rest, ctx =>
    (pattern, watchSequence body ctx .null) :: armWatches rest ctx
end

namespace Execution

def watchEnd (config : Config) (flow : Flow) (ctx : Context) (timedOut : Bool) :
    Except Failure Json × Watched → Program (Ending × Watched)
  | (.ok _, u) => .pure (.completed, u)
  | (.error f, u) => .perform (.isCancelled ctx.token) fun (cancelled : Bool) =>
    if f.isCancellation || cancelled then
      .pure (.cancelled (cancellationError config.runTimeout timedOut f), u)
    else match flow.onError with
      | none => .pure (.failed f, u)
      | some handler =>
        ((Watch.boundary ctx flow.name (watchSequence handler ctx .null) f).on u).bind fun
          | (.ok handled, u) =>
            .perform (.note ctx.run (.handled handled)) fun _ => .pure (.completed, u)
          | (.error escaped, u) =>
            .pure (if escaped.isCancellation then
              .cancelled (cancellationError config.runTimeout timedOut escaped)
            else .failed escaped, u)

def watchOpened (config : Config) (flow : Flow) (inputs : List (String × Json))
    (opened : Nat × Token) : Program (RunResult × Watched) :=
  let ctx : Context := ⟨opened.1, opened.2, config.stepTimeout⟩
  (startRunDeadline opened.2 config.runTimeout).bind fun deadline =>
    ((watchSequence flow.steps ctx .null).on (.start (Scope.ofBindings inputs))).bind fun p =>
      (settleAll ctx).bind fun _ => (stopRunDeadline deadline).bind fun timedOut =>
        (watchEnd config flow ctx timedOut p).bind fun q => (settleAll ctx).bind fun _ =>
          (Program.ask (.closeRun opened.1 q.1 q.2.scope.flow)).bind fun result =>
            .pure (result, q.2)

end Execution
end FlowEngine
