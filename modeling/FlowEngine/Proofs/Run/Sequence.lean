import FlowEngine.Proofs.Execution.Node
import FlowEngine.Proofs.Run.Joins
import FlowEngine.Proofs.Scope.Steps

/-!
# Sequences of steps

A task that comes to a sequence of steps does them one after the other. The log from that moment on
is cut where the steps end: each part holds the whole of one step, and what the step has started in
branches is settled by then.
-/
namespace FlowEngine

open Exec Execution

variable {config : Config} {ctx : Context} {step : Step} {scope final : Scope}

/-! ## One step -/

/-- What a task does in a step: it writes down that it passes the step over, or it starts the span of
the step, makes the attempts, and writes the step down before it ends the span. -/
inductive Step.Course (ctx : Context) (step : Step) : List Deed → Except Failure Reached → Prop where
  | passedOver (f : Failure) : Course ctx step
      [⟨.isCancelled ctx.token, true⟩,
        ⟨.note ctx.run (.record ⟨step.id, step.kind, .skipped, 0, some f⟩), ()⟩] (.error f)
  | attempted (opened : Except EngineError Unit) (attempts : List Deed) (number : Nat)
      (r : Except Failure Reached) (closed : Except EngineError Unit) : Course ctx step
      (⟨.isCancelled ctx.token, false⟩ :: ⟨.startSpan ctx step.id, opened⟩ :: (attempts ++
        [⟨.note ctx.run (.record ⟨step.id, step.kind, statusOf r, number, failureOf? r⟩), ()⟩,
          ⟨.endSpan ctx step.id (statusOf r), closed⟩])) r

theorem attempts_ends {α : Type} (ctx : Context) (id : String) (retry : Option RetryPolicy)
    (attempt : Exec α) (further number : Nat) (s : Scope) :
    ((attempts ctx id retry attempt further number).on s).Ends fun p => ∃ q, p.1 = .ok q := by
  have ends {again : Option (Exec (Nat × Except Failure α))} (number : Nat) (r : Except Failure α)
      (hagain : ∀ x ∈ again, ∀ s, (x.on s).Ends fun p => ∃ q, p.1 = .ok q) (s : Scope) :
      ((afterAttempt ctx id retry number again r).on s).Ends fun p => ∃ q, p.1 = .ok q := by
    unfold afterAttempt
    cases r with
    | ok a => exact ⟨_, rfl⟩
    | error f =>
        dsimp only
        split
        · exact ⟨_, rfl⟩
        · exact ⟨_, rfl⟩
        · refine fun (waited : Bool) => ?_
          cases waited with
          | true => exact hagain _ rfl s
          | false => exact ⟨_, rfl⟩
  induction further generalizing number s with
  | zero =>
      rw [attempts, on_bind, on_outcome, Program.bind_assoc]
      exact (Program.Ends.trivial _).bind fun p _ => ends number p.1 (by simp) p.2
  | succ further ih =>
      rw [attempts, on_bind, on_outcome, Program.bind_assoc]
      refine (Program.Ends.trivial _).bind fun p _ => ends number p.1 ?_ p.2
      rintro x ⟨⟩
      exact ih (number + 1)

theorem Step.course_of_follows {deeds : List Deed} {r : Except Failure Reached}
    (h : ((step.run ctx).on scope).Follows deeds (.pure (r, final))) : step.Course ctx deeds r := by
  obtain ⟨id, action, retry, timeout⟩ := step
  rw [Step.run, node_on] at h
  obtain ⟨-, hend⟩ | ⟨(cancelled : Bool), d₁, rfl, hlooked⟩ := h.cons_of_perform
  · cases hend
  cases cancelled with
  | true =>
      obtain ⟨-, hend⟩ | ⟨noted, d₂, rfl, hnoted⟩ := Program.Follows.cons_of_perform hlooked
      · cases hend
      obtain ⟨rfl, hend⟩ := Program.Follows.pure_iff.mp hnoted
      cases hend
      exact .passedOver _
  | false =>
      obtain ⟨-, hend⟩ | ⟨opened, d₂, rfl, hopened⟩ := Program.Follows.cons_of_perform hlooked
      · cases hend
      obtain ⟨d₃, d₄, ⟨q, s⟩, rfl, hattempts, hrest⟩ := hopened.bind_pure
      obtain ⟨⟨number, result⟩, rfl⟩ := (attempts_ends _ _ _ _ _ _ _).of_follows hattempts
      obtain ⟨-, hend⟩ | ⟨noted, d₅, rfl, hnoted⟩ := Program.Follows.cons_of_perform hrest
      · cases hend
      obtain ⟨-, hend⟩ | ⟨closed, d₆, rfl, hclosed⟩ := Program.Follows.cons_of_perform hnoted
      · cases hend
      cases result with
      | ok reached =>
          obtain ⟨rfl, hend⟩ := Program.Follows.pure_iff.mp hclosed
          cases hend
          exact .attempted _ _ _ _ _
      | error f =>
          obtain ⟨rfl, hend⟩ := Program.Follows.pure_iff.mp hclosed
          cases hend
          exact .attempted _ _ _ _ _

/-! ## One step after the other -/

variable {t : TaskId} {log more : List Occurrence} {s s' u v : System RunResult} {steps rest : List Step}
  {last : Json} {k : Except Failure Json × Scope → Program t.Result}

/-- In a part of a session a task does a step from its beginning to its end, and what it starts
there in branches is settled by then. -/
structure Step.Completes (config : Config) (t : TaskId) (ctx : Context) (step : Step) (scope : Scope)
    (s : System RunResult) (log : List Occurrence) (u : System RunResult)
    (r : Except Failure Reached) (final : Scope) : Prop where
  reaches : s.Reaches config log u
  program : ((step.run ctx).on scope).Follows (deedsOf t log) (.pure (r, final))
  course : step.Course ctx (deedsOf t log) r
  nested {n : Nat} : Nested log t n → Settled log n

/-- From a moment on, a task does the steps of a sequence in their order. Each one begins when the
one before it is complete, and what comes after the sequence does so when no step is left, or when
one fails or leaves the sequence. -/
inductive InOrder (config : Config) (t : TaskId) (ctx : Context)
    (k : Except Failure Json × Scope → Program t.Result) :
    List Step → Json → Scope → System RunResult → List Occurrence → System RunResult → Prop where
  | over {last : Json} {scope : Scope} {s s' : System RunResult} {log : List Occurrence}
      (after : s.At t (k (.ok last, scope))) : InOrder config t ctx k [] last scope s log s'
  | within {step : Step} {rest : List Step} {last : Json} {scope : Scope} {s s' : System RunResult}
      {log : List Occurrence} {e : Effect}
      {next : e.Answer → Program (Except Failure Reached × Scope)}
      (inside : ((step.run ctx).on scope).Follows (deedsOf t log) (.perform e next)) :
      InOrder config t ctx k (step :: rest) last scope s log s'
  /-- The first step fails, and no other one begins. -/
  | fails {step : Step} {rest : List Step} {last : Json} {scope final : Scope}
      {s s' u : System RunResult} {log more : List Occurrence} {f : Failure}
      (completes : step.Completes config t ctx scope s log u (.error f) final)
      (after : u.At t (k (.error f, final))) (reaches : u.Reaches config more s') :
      InOrder config t ctx k (step :: rest) last scope s (log ++ more) s'
  /-- The first step leaves the sequence, and no other one begins. -/
  | leaves {step : Step} {rest : List Step} {last : Json} {scope final : Scope}
      {s s' u : System RunResult} {log more : List Occurrence} {reached : Reached}
      (completes : step.Completes config t ctx scope s log u (.ok reached) final)
      (leaves : reached.leaves = true) (after : u.At t (k (.ok reached.output, final)))
      (reaches : u.Reaches config more s') :
      InOrder config t ctx k (step :: rest) last scope s (log ++ more) s'
  /-- The first step is complete, and the others are done in their order from then on. -/
  | next {step : Step} {rest : List Step} {last : Json} {scope final : Scope}
      {s s' u : System RunResult} {log more : List Occurrence} {reached : Reached}
      (completes : step.Completes config t ctx scope s log u (.ok reached) final)
      (stays : reached.leaves = false) (reaches : u.Reaches config more s')
      (others : InOrder config t ctx k rest reached.output final u more s') :
      InOrder config t ctx k (step :: rest) last scope s (log ++ more) s'

def afterStep (rest : List Step) (ctx : Context)
    (k : Except Failure Json × Scope → Program t.Result) :
    Except Failure Reached × Scope → Program t.Result
  | (.error f, final) => k (.error f, final)
  | (.ok reached, final) =>
    if reached.leaves then k (.ok reached.output, final)
    else ((runSequence rest ctx reached.output).on final).bind k

theorem runSequence_bind : ((runSequence (step :: rest) ctx last).on scope).bind k =
    ((step.run ctx).on scope).bind (afterStep rest ctx k) := by
  rw [runSequence, on_bind, Program.bind_assoc]
  refine congrArg (Program.bind _) (funext fun p => ?_)
  obtain ⟨r, final⟩ := p
  cases r with
  | error f => rfl
  | ok reached =>
      simp only [after_ok, afterStep]
      split
      · rfl
      · rfl

/-- A task that comes to a step is still at it, or it has done the step in a first part of the log
and goes on with what follows. -/
theorem System.Reaches.completes {before : List Occurrence}
    {k : Except Failure Reached × Scope → Program t.Result} (hs : Session config before s)
    (hat : s.At t (((step.run ctx).on scope).bind k)) (hr : s.Reaches config log s') :
    (∃ e next, ((step.run ctx).on scope).Follows (deedsOf t log) (.perform e next)) ∨
      ∃ log₁ log₂ u r final, log = log₁ ++ log₂ ∧
        step.Completes config t ctx scope s log₁ u r final ∧ u.Reaches config log₂ s' ∧
        u.At t (k (r, final)) := by
  rcases hr.cut hat with ⟨e, next, inside, -, -⟩ |
    ⟨⟨r, final⟩, log₁, log₂, u, rfl, hu, hrestarted, hstep, hu', hafter, ⟨-, rfl, -⟩ | ⟨-, -, hlast⟩⟩
  · exact Or.inl ⟨e, next, inside⟩
  · cases Step.course_of_follows hstep
  · obtain ⟨l, e, answer, m, m', rfl⟩ := hlast
    have hpast : PassesJoins (l ++ [.poll ⟨t, e, some answer, m, m'⟩]) t :=
      .of_answer fun h => hrestarted (restarted_append.mpr (Or.inl h))
    exact Or.inr ⟨_, log₂, u, r, final, rfl,
      ⟨hu, hstep, Step.course_of_follows hstep, fun hn => hn.settled hs hu hpast⟩, hu', hafter⟩

/-- A task that comes to a sequence of steps does them in their order. -/
theorem Session.inOrder {before : List Occurrence} (hs : Session config before s)
    (hat : s.At t (((runSequence steps ctx last).on scope).bind k)) (hr : s.Reaches config log s') :
    InOrder config t ctx k steps last scope s log s' := by
  induction steps generalizing before s last scope log with
  | nil =>
      rw [runSequence] at hat
      exact .over hat
  | cons step rest ih =>
      rw [runSequence_bind] at hat
      rcases hr.completes hs hat with ⟨e, next, inside⟩ |
        ⟨log₁, log₂, u, r, final, rfl, completes, hu, hafter⟩
      · exact .within inside
      · cases r with
        | error f => exact .fails completes hafter hu
        | ok reached =>
            cases hleaves : reached.leaves with
            | true =>
                simp only [afterStep, hleaves, if_true] at hafter
                exact .leaves completes hleaves hafter hu
            | false =>
                simp only [afterStep, hleaves, Bool.false_eq_true, if_false] at hafter
                exact .next completes hleaves hu (ih (hs.reaches completes.reaches) hafter hu)

end FlowEngine
