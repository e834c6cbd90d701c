import FlowEngine.Execution.Step
import FlowEngine.Proofs.Execution.Monad
import FlowEngine.Proofs.Program.History

/-!
# The course of a step

A step is skipped, or it is started, attempted and written down. The parts of its program
have names here, so that a step can be followed from one to the next.
-/
namespace FlowEngine

open Exec

namespace Execution

variable {α : Type}

def passOver (ctx : Context) (id kind : String) : Exec Reached := do
  let f := (Failure.cancelled "run cancelled before the step started").atStep id
  let _ : Unit ← ask (.note ctx.run (.record ⟨id, kind, .skipped, 0, some f⟩))
  throw f

def afterAttempts (ctx : Context) (id kind : String) (p : Nat × Except Failure Reached) :
    Exec Reached := do
  let _ : Unit ← ask (.note ctx.run
    (.record ⟨id, kind, statusOf p.2, p.1, failureOf? p.2⟩))
  let _ : Except EngineError Unit ← ask (.endSpan ctx id (statusOf p.2))
  match p.2 with
  | .ok reached =>
    modify (Scope.recordOutput id reached.output)
    return reached
  | .error f => throw f

theorem node_on (ctx : Context) (id kind : String) (retry : Option RetryPolicy)
    (attempt : Exec Reached) (s : Scope) : (node ctx id kind retry attempt).on s =
      .perform (.isCancelled ctx.token) fun (cancelled : Bool) =>
        if cancelled then (passOver ctx id kind).on s else
          .perform (.startSpan ctx id) fun _ =>
            ((attempts ctx id retry attempt (Retry.maxAttempts retry - 1) 1).on s).bind
              (after (afterAttempts ctx id kind)) := by
  refine congrArg (Program.perform (.isCancelled ctx.token)) (funext fun (cancelled : Bool) => ?_)
  cases cancelled with
  | true => rfl
  | false =>
      refine congrArg (Program.perform (.startSpan ctx id)) (funext fun _ => ?_)
      exact on_bind _ (afterAttempts ctx id kind) s

/-- What is made of an attempt when its deadline has been stopped: a cancellation that only the
deadline explains is a timeout of the step. -/
def afterDeadline (ctx : Context) (id : String) (limit : Millis) (passed : Bool) :
    Except Failure α × Scope → Program (Except Failure α × Scope)
  | (.ok a, s) => .pure (.ok a, s)
  | (.error f, s) => .perform (.isCancelled ctx.token) fun (outer : Bool) => .pure (.error
    (if passed && f.isCancellation && !outer then (deadlinePassed id limit).toFailure.atStep id
      else f), s)

theorem withDeadline_on (ctx : Context) (id : String) (limit : Millis) (attempt : Context → Exec α)
    (s : Scope) : (withDeadline ctx id (some limit) attempt).on s =
      .perform (.childToken ctx.token) fun token =>
        .perform (.startDeadline token limit) fun deadline =>
          ((attempt { ctx with token }).on s).bind fun p =>
            .perform (.stopDeadline deadline) fun passed => afterDeadline ctx id limit passed p := by
  refine congrArg (Program.perform (.childToken ctx.token)) (funext fun token => ?_)
  refine congrArg (Program.perform (.startDeadline token limit)) (funext fun deadline => ?_)
  change (((attempt { ctx with token }).outcome >>= _).on s) = _
  rw [on_bind, on_outcome, Program.bind_assoc]
  congr 1
  funext p
  obtain ⟨r, s'⟩ := p
  refine congrArg (Program.perform (.stopDeadline deadline)) (funext fun (passed : Bool) => ?_)
  cases r with
  | ok a => rfl
  | error f =>
      refine congrArg (Program.perform (.isCancelled ctx.token)) (funext fun (outer : Bool) => ?_)
      change (ite _ _ _ : Exec α).on s' = _
      split <;> rfl

def furtherAttempts (ctx : Context) (id : String) (retry : Option RetryPolicy) (attempt : Exec α)
    (further number : Nat) : Option (Exec (Nat × Except Failure α)) :=
  match further with
  | 0 => none
  | further + 1 => some (attempts ctx id retry attempt further (number + 1))

/-- The first attempt of a step comes before everything else that belongs to its attempts. -/
theorem attempts_on (ctx : Context) (id : String) (retry : Option RetryPolicy) (attempt : Exec α)
    (further number : Nat) (s : Scope) : (attempts ctx id retry attempt further number).on s =
      (attempt.on s).bind fun p => (afterAttempt ctx id retry number
        (furtherAttempts ctx id retry attempt further number) p.1).on p.2 := by
  cases further with
  | zero =>
      rw [attempts, on_bind, on_outcome, Program.bind_assoc]
      rfl
  | succ further =>
      rw [attempts, on_bind, on_outcome, Program.bind_assoc]
      rfl

end Execution

/-- A step without a deadline comes to its action when its scope is not cancelled and its span
has started. -/
theorem Step.run_follows (id : String) (action : Action) (retry : Option RetryPolicy)
    (ctx : Context) (s : Scope) (hlimit : ctx.stepLimit = none) : ∃ k,
      ∀ answer, (((Step.mk id action retry none).run ctx).on s).Follows
        [⟨.isCancelled ctx.token, false⟩, ⟨.startSpan ctx id, answer⟩]
        (((action.run id ctx).on s).bind k) := by
  have hdeadline : Execution.withDeadline ctx id (none.orElse fun _ =>
      if action.isExternal then ctx.stepLimit else none) (fun ctx => action.run id ctx) =
      action.run id ctx := by
    rw [hlimit, ite_self]
    rfl
  rw [Step.run, hdeadline, Execution.node_on, Execution.attempts_on]
  refine ⟨fun p => ((Execution.afterAttempt ctx id retry 1 (Execution.furtherAttempts ctx id retry
    (action.run id ctx) (Retry.maxAttempts retry - 1) 1) p.1).on p.2).bind
      (after (Execution.afterAttempts ctx id action.kind)), fun answer => ?_⟩
  rw [← Program.bind_assoc]
  exact .deed (.deed (.start _))

end FlowEngine
