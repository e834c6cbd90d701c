import FlowEngine.Execution.Flow
import FlowEngine.Proofs.Execution.Monad
import FlowEngine.Proofs.Program.History

/-!
# Runs effect by effect

The programs of runs, taken apart at the points where their parts end.
-/
namespace FlowEngine.Execution

open Exec

variable (config : Config) (flow : Flow)

def afterHandler (ctx : Context) (limit : Option UInt64) (timedOut : Bool) :
    Except Failure Failure × Scope → Program (Ending × Scope)
  | (.ok handled, s) => .perform (.note ctx.run (.handled handled)) fun _ => .pure (.completed, s)
  | (.error escaped, s) =>
    .pure (if escaped.isCancellation then .cancelled (cancellationError limit timedOut escaped)
      else .failed escaped, s)

theorem handleFailure_eq (ctx : Context) (limit : Option UInt64) (timedOut : Bool) (f : Failure)
    (s : Scope) : handleFailure flow ctx limit timedOut f s =
      match flow.onError with
      | none => .pure (.failed f, s)
      | some handler => ((boundary ctx flow.name (runSequence handler ctx .null) f).on s).bind
          (afterHandler ctx limit timedOut) := by
  unfold handleFailure
  cases flow.onError with
  | none => rfl
  | some handler =>
      change Program.bind _ _ = Program.bind _ _
      congr 1
      funext p
      obtain ⟨r, s'⟩ := p
      cases r with
      | ok handled => rfl
      | error escaped =>
          simp only [afterHandler]
          split <;> rfl

theorem endAfter_eq (ctx : Context) (limit : Option UInt64) (timedOut : Bool) (f : Failure)
    (s : Scope) : endAfter flow ctx limit timedOut f s =
      .perform (.isCancelled ctx.token) fun cancelled =>
        if f.isCancellation || cancelled then
          .pure (.cancelled (cancellationError limit timedOut f), s)
        else handleFailure flow ctx limit timedOut f s := by
  refine congrArg (Program.perform (.isCancelled ctx.token)) (funext fun (cancelled : Bool) => ?_)
  change (if (f.isCancellation || cancelled) = true then
      (pure (.cancelled (cancellationError limit timedOut f)) : StateT Scope Program Ending)
    else handleFailure flow ctx limit timedOut f) s = _
  split <;> rfl

theorem run_eq (inputs : List (String × Json)) (parent : Token) :
    run config flow inputs parent = .perform (.openRun flow.name parent) fun opened =>
      (startRunDeadline opened.2 config.runTimeout).bind fun deadline =>
        ((runSequence flow.steps ⟨opened.1, opened.2, config.stepTimeout⟩ .null).on
          (Scope.ofBindings inputs)).bind
            (conclude config flow ⟨opened.1, opened.2, config.stepTimeout⟩ deadline) := by
  rfl

theorem submitted_eq (inputs : List (String × Json)) (parent : Token) :
    submitted config flow inputs parent = .perform .acquireSlot fun _ =>
      (run config flow inputs parent).bind fun result =>
        .perform .releaseSlot fun _ => .pure result := by
  rfl

theorem conclude_eq (ctx : Context) (deadline : Option Nat) (result : Except Failure Json)
    (s : Scope) : conclude config flow ctx deadline (result, s) =
      (settleAll ctx).bind fun _ => (stopRunDeadline deadline).bind fun timedOut =>
        (match result with
          | .ok _ => (.pure (Ending.completed, s) : Program (Ending × Scope))
          | .error f => endAfter flow ctx config.runTimeout timedOut f s).bind fun ended =>
            (settleAll ctx).bind fun _ =>
              Program.ask (.closeRun ctx.run ended.1 ended.2.flow) := by
  cases result <;> rfl

section

variable {config : Config} {flow : Flow} {inputs : List (String × Json)} {ctx : Context}
  {d : List Deed} {result : RunResult}

def afterOpening (config : Config) (flow : Flow) (inputs : List (String × Json))
    (opened : Nat × Token) : Program RunResult :=
  (startRunDeadline opened.2 config.runTimeout).bind fun deadline =>
    ((runSequence flow.steps ⟨opened.1, opened.2, config.stepTimeout⟩ .null).on
      (Scope.ofBindings inputs)).bind
        (conclude config flow ⟨opened.1, opened.2, config.stepTimeout⟩ deadline)

theorem run_eq_perform (config : Config) (flow : Flow) (inputs : List (String × Json))
    (parent : Token) : run config flow inputs parent =
      .perform (.openRun flow.name parent) (afterOpening config flow inputs) := rfl

def ended (config : Config) (flow : Flow) (ctx : Context) (timedOut : Bool) (s : Scope) :
    Except Failure Json → Program (Ending × Scope)
  | .ok _ => .pure (.completed, s)
  | .error f => endAfter flow ctx config.runTimeout timedOut f s

theorem conclude_eq_ended (deadline : Option Nat) (r : Except Failure Json) (s : Scope) :
    conclude config flow ctx deadline (r, s) =
      (settleAll ctx).bind fun _ => (stopRunDeadline deadline).bind fun timedOut =>
        (ended config flow ctx timedOut s r).bind fun p => (settleAll ctx).bind fun _ =>
          Program.ask (.closeRun ctx.run p.1 p.2.flow) := by
  rw [conclude_eq]
  cases r <;> rfl

/-- A run that has been opened gets to the end of its steps, then to that of its handler, and
the last thing that it does is to close the run. -/
theorem afterOpening_follows {opened : Nat × Token}
    (h : (afterOpening config flow inputs opened).Follows d (.pure result)) :
    ∃ (d₁ d₂ d₃ d₄ d₅ : List Deed) (r : Except Failure Json) (s : Scope) (timedOut : Bool)
      (p : Ending × Scope),
      d = d₁ ++ (d₂ ++ (d₃ ++ (d₄ ++ (d₅ ++ [⟨.closeRun opened.1 p.1 p.2.flow, result⟩])))) ∧
      ((runSequence flow.steps ⟨opened.1, opened.2, config.stepTimeout⟩ .null).on
        (Scope.ofBindings inputs)).Follows d₂ (.pure (r, s)) ∧
      (ended config flow ⟨opened.1, opened.2, config.stepTimeout⟩ timedOut s r).Follows d₄
        (.pure p) := by
  obtain ⟨d₁, e₁, deadline, rfl, -, h₁⟩ := h.bind_pure
  obtain ⟨d₂, e₂, ⟨r, s⟩, rfl, h₂, h₃⟩ := h₁.bind_pure
  rw [conclude_eq_ended] at h₃
  obtain ⟨a₁, e₃, -, rfl, -, h₄⟩ := h₃.bind_pure
  obtain ⟨a₂, e₄, timedOut, rfl, -, h₅⟩ := h₄.bind_pure
  obtain ⟨d₄, e₅, p, rfl, h₆, h₇⟩ := h₅.bind_pure
  obtain ⟨d₅, e₆, -, rfl, -, h₈⟩ := h₇.bind_pure
  obtain ⟨-, h⟩ | ⟨answer, rest, rfl, hrest⟩ := h₈.cons_of_perform
  · cases h
  · obtain ⟨rfl, hresult⟩ := Program.Follows.pure_iff.mp hrest
    cases hresult
    exact ⟨d₁, d₂, a₁ ++ a₂, d₄, d₅, r, s, timedOut, p, by simp, h₂, h₆⟩

end

end FlowEngine.Execution
