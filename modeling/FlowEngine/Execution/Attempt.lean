import FlowEngine.Execution.Basic
import FlowEngine.Retry

/-!
# Attempts of a step

A step runs in attempts, each of them under a deadline if there is one. When the
last attempt has ended, the step is written down and its span is closed.
-/
namespace FlowEngine.Execution

open Exec

/-- What a step tells the sequence around it. -/
structure Reached where
  output : Json
  leaves : Bool

def Reached.value (output : Json) : Reached := ⟨output, false⟩

def deadlinePassed (id : String) (limit : Millis) : EngineError :=
  .timeout s!"step {id} exceeded its timeout of {limit.toNat} ms"

/-- Runs one attempt. Under a deadline it runs in a scope of cancellation of its
own; a cancellation that only the deadline explains becomes a timeout. -/
def withDeadline {α : Type} (ctx : Context) (id : String) (limit : Option Millis)
    (attempt : Context → Exec α) : Exec α :=
  match limit with
  | none => attempt ctx
  | some limit => do
    let token : Token ← ask (.childToken ctx.token)
    let deadline : Nat ← ask (.startDeadline token limit)
    let result ← (attempt { ctx with token }).outcome
    let passed : Bool ← ask (.stopDeadline deadline)
    match result with
    | .ok a => return a
    | .error f =>
      let outer : Bool ← ask (.isCancelled ctx.token)
      if passed && f.isCancellation && !outer then
        throw ((deadlinePassed id limit).toFailure.atStep id)
      else throw f

/-- What is done after the attempt with a number: its result comes with the number,
or another attempt is made after a delay, if there is one left. -/
def afterAttempt {α : Type} (ctx : Context) (id : String) (policy : Option RetryPolicy)
    (number : Nat) (again : Option (Exec (Nat × Except Failure α))) (result : Except Failure α) :
    Exec (Nat × Except Failure α) :=
  match result with
  | .ok a => return (number, .ok a)
  | .error f =>
    match Retry.decide policy number (f.atStep id), again with
    | .giveUp f, _ => return (number, .error f)
    | .retryAfter _, none => return (number, .error (f.atStep id))
    | .retryAfter delay, some again => do
      let waited : Bool ← ask (.sleep (some ctx.token) delay.toNat)
      if waited then again else return (number, .error (Retry.interrupted.atStep id))

/-- Repeats an attempt while the policy says so, up to a number of further
attempts. The result comes with the number of the attempt that gave it. -/
def attempts {α : Type} (ctx : Context) (id : String) (policy : Option RetryPolicy)
    (attempt : Exec α) (further number : Nat) : Exec (Nat × Except Failure α) :=
  match further with
  | 0 => do afterAttempt ctx id policy number none (← attempt.outcome)
  | further + 1 => do
    let again := attempts ctx id policy attempt further (number + 1)
    afterAttempt ctx id policy number (some again) (← attempt.outcome)

def statusOf {α : Type} : Except Failure α → StepStatus
  | .ok _ => .completed
  | .error f => if f.isCancellation then .cancelled else .failed

def failureOf? {α : Type} : Except Failure α → Option Failure
  | .ok _ => none
  | .error f => some f

/-- Runs a step in attempts and writes it down. A step that is reached when its
scope is cancelled already is skipped. -/
def node (ctx : Context) (id kind : String) (retry : Option RetryPolicy)
    (attempt : Exec Reached) : Exec Reached := do
  let cancelled : Bool ← ask (.isCancelled ctx.token)
  if cancelled then
    let f := (Failure.cancelled "run cancelled before the step started").atStep id
    let _ : Unit ← ask (.note ctx.run (.record ⟨id, kind, .skipped, 0, some f⟩))
    throw f
  else
    let _ : Except EngineError Unit ← ask (.startSpan ctx id)
    let (number, result) ← attempts ctx id retry attempt (Retry.maxAttempts retry - 1) 1
    let status := statusOf result
    let _ : Unit ← ask (.note ctx.run (.record ⟨id, kind, status, number, failureOf? result⟩))
    let _ : Except EngineError Unit ← ask (.endSpan ctx id status)
    match result with
    | .ok reached =>
      modify (Scope.recordOutput id reached.output)
      return reached
    | .error f => throw f

end FlowEngine.Execution
