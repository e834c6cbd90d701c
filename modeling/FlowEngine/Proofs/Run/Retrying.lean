import FlowEngine.Proofs.Execution.Coherent
import FlowEngine.Proofs.Run.Sequence
import FlowEngine.Proofs.Run.Sleeping

/-!
# Attempts of a step

A step with a retry policy makes its attempts one after the other. The log from the moment at which
a task comes to the step is cut where the attempts end: between two of them lies the delay that the
policy asks for, and the last one decides how the step ends.
-/
namespace FlowEngine

open Exec Execution

/-! ## What follows an attempt -/

/-- A policy tries again after an error of a step, and after a timeout if it says so. -/
def RetryPolicy.Repeats (policy : RetryPolicy) (f : Failure) : Prop :=
  f.kind = .stepExecution ∨ f.kind = .timeout ∧ policy.retryOnTimeout = true

instance (policy : RetryPolicy) (f : Failure) : Decidable (policy.Repeats f) :=
  inferInstanceAs (Decidable (_ ∨ _))

theorem RetryPolicy.retries_iff {policy : RetryPolicy} {f : Failure} :
    policy.retries f = true ↔ policy.Repeats f := by
  unfold retries Repeats
  cases f.kind <;> simp [ErrorKind.isRetryable]

/-- A step whose attempts are used up is not repeated by a step around it, and neither is one that
was cancelled. -/
theorem RetryPolicy.not_repeats {policy : RetryPolicy} {f : Failure}
    (h : f.kind = .retryExhausted ∨ f.kind = .cancellation) : ¬ policy.Repeats f := by
  rcases h with h | h <;> simp [Repeats, h]

theorem Retry.decide_some (policy : RetryPolicy) (number : Nat) (f : Failure) :
    Retry.decide (some policy) number f =
      if policy.Repeats f then
        if policy.maxAttempts.toNat ≤ number then .giveUp (.exhausted number f)
        else .retryAfter (policy.backoff.delay number)
      else .giveUp f := by
  unfold Retry.decide
  by_cases h : policy.Repeats f
  · simp [h, RetryPolicy.retries_iff.mpr h]
  · have hretries : policy.retries f = false :=
      Bool.eq_false_iff.mpr fun hr => h (RetryPolicy.retries_iff.mp hr)
    simp [h, hretries]

/-- How a step ends after the attempt with a number, given how the attempt ended: with its success,
with its error if that is not one to try again after, or with the news that no attempt is left. -/
inductive RetryPolicy.Stops (policy : RetryPolicy) (id : String) (number : Nat) :
    Except Failure Reached → Except Failure Reached → Prop where
  | success (reached : Reached) : Stops policy id number (.ok reached) (.ok reached)
  | final {f : Failure} (final : ¬ policy.Repeats (f.atStep id)) :
      Stops policy id number (.error f) (.error (f.atStep id))
  | exhausted {f : Failure} (repeats : policy.Repeats (f.atStep id))
      (last : number = max 1 policy.maxAttempts.toNat) :
      Stops policy id number (.error f) (.error (.exhausted number (f.atStep id)))

theorem Execution.afterAttempt_cases (ctx : Context) {id : String} {policy : RetryPolicy}
    (attempt : Exec Reached) {further number : Nat}
    (hnumber : further + number = max 1 policy.maxAttempts.toNat) (hpos : 1 ≤ number)
    (r : Except Failure Reached) (scope : Scope) :
    (∃ r', policy.Stops id number r r' ∧ (afterAttempt ctx id (some policy) number
      (furtherAttempts ctx id (some policy) attempt further number) r).on scope =
        .pure (.ok (number, r'), scope)) ∨
    ∃ f fewer, r = .error f ∧ policy.Repeats (f.atStep id) ∧ further = fewer + 1 ∧
      (afterAttempt ctx id (some policy) number
        (furtherAttempts ctx id (some policy) attempt further number) r).on scope =
          .perform (.sleep (some ctx.token) (policy.backoff.delay number).toNat)
            fun (waited : Bool) =>
              if waited then (attempts ctx id (some policy) attempt fewer (number + 1)).on scope
              else .pure (.ok (number, .error (Retry.interrupted.atStep id)), scope) := by
  cases r with
  | ok reached => exact Or.inl ⟨_, .success reached, rfl⟩
  | error f =>
      unfold afterAttempt
      dsimp only
      rw [Retry.decide_some]
      by_cases hrepeats : policy.Repeats (f.atStep id)
      · rw [if_pos hrepeats]
        by_cases hused : policy.maxAttempts.toNat ≤ number
        · rw [if_pos hused]
          exact Or.inl ⟨_, .exhausted hrepeats (by omega), rfl⟩
        · rw [if_neg hused]
          obtain ⟨fewer, rfl⟩ : ∃ fewer, further = fewer + 1 := ⟨further - 1, by omega⟩
          refine Or.inr ⟨f, fewer, rfl, hrepeats, rfl, ?_⟩
          refine congrArg (Program.perform _) (funext fun (waited : Bool) => ?_)
          cases waited <;> rfl
      · rw [if_neg hrepeats]
        exact Or.inl ⟨_, .final hrepeats, rfl⟩

/-! ## The course of the attempts -/

def Step.attempt (step : Step) (ctx : Context) : Exec Reached :=
  withDeadline ctx step.id (step.limit ctx) fun ctx => step.action.run step.id ctx

theorem Step.run_eq (step : Step) (ctx : Context) :
    step.run ctx = node ctx step.id step.kind step.retry (step.attempt ctx) := by
  obtain ⟨id, action, retry, timeout⟩ := step
  rw [Step.run]
  rfl

def Step.recorded (step : Step) (ctx : Context) (status : StepStatus) (number : Nat)
    (r : Except Failure Reached) : Deed :=
  ⟨.note ctx.run (.record ⟨step.id, step.kind, status, number, failureOf? r⟩), ()⟩

structure Step.Attempted (config : Config) (t : TaskId) (ctx : Context) (step : Step)
    (scope : Scope) (s : System RunResult) (log : List Occurrence) (u : System RunResult)
    (r : Except Failure Reached) (final : Scope) : Prop where
  reaches : s.Reaches config log u
  prompt : Prompt t log
  program : ((step.attempt ctx).on scope).Follows (deedsOf t log) (.pure (r, final))

/-- The attempts of a step before the one with a number have failed. Each of them was one to try
again after, and the next one began when the delay that the policy asks for was over, in a scope
that was not cancelled. -/
inductive Step.Rounds (config : Config) (t : TaskId) (ctx : Context) (step : Step)
    (policy : RetryPolicy) (scope : Scope) (s : System RunResult) :
    (number : Nat) → (log : List Occurrence) → Scope → System RunResult → Prop where
  | first : Rounds config t ctx step policy scope s 1 [] scope s
  | again {number : Nat} {log tried waited : List Occurrence} {scope' final : Scope}
      {u v w : System RunResult} {f : Failure}
      (rounds : Rounds config t ctx step policy scope s number log scope' u)
      (attempted : step.Attempted config t ctx scope' u tried v (.error f) final)
      (repeats : policy.Repeats (f.atStep step.id))
      (left : number < max 1 policy.maxAttempts.toNat)
      (waits : v.Reaches config waited w) (prompt : Prompt t waited)
      (slept : deedsOf t waited =
        [⟨.sleep (some ctx.token) (policy.backoff.delay number).toNat, true⟩])
      (time : w.machine.now = v.machine.now + (policy.backoff.delay number).toNat)
      (calm : w.machine.isCancelled ctx.token = false) :
      Rounds config t ctx step policy scope s (number + 1) (log ++ tried ++ waited) final w

/-- A step comes to its end: it is written down with a status and the number of its attempts, its
span is closed, and the task goes on with the result of the step. -/
inductive Step.Closes (config : Config) (t : TaskId) (ctx : Context) (step : Step)
    (k : Except Failure Reached × Scope → Program t.Result) (status : StepStatus) (number : Nat)
    (r : Except Failure Reached) (s : System RunResult) :
    List Occurrence → System RunResult → Prop where
  | within {log : List Occurrence} {s' : System RunResult} (reaches : s.Reaches config log s')
      (deeds : deedsOf t log = [] ∨ deedsOf t log = [step.recorded ctx status number r]) :
      Closes config t ctx step k status number r s log s'
  | over {log more : List Occurrence} {u s' : System RunResult} {final : Scope}
      {closed : Except EngineError Unit} (reaches : s.Reaches config log u)
      (deeds : deedsOf t log =
        [step.recorded ctx status number r, ⟨.endSpan ctx step.id status, closed⟩])
      (comes : u.ComesTo t (k (r, final))) (after : u.Reaches config more s') :
      Closes config t ctx step k status number r s (log ++ more) s'

inductive Step.Tries (config : Config) (t : TaskId) (ctx : Context) (step : Step)
    (policy : RetryPolicy) (k : Except Failure Reached × Scope → Program t.Result) (scope : Scope)
    (s : System RunResult) : List Occurrence → System RunResult → Prop where
  | attempting {number : Nat} {log tried : List Occurrence} {scope' : Scope}
      {u s' : System RunResult} {e : Effect}
      {next : e.Answer → Program (Except Failure Reached × Scope)}
      (rounds : step.Rounds config t ctx policy scope s number log scope' u)
      (reaches : u.Reaches config tried s')
      (inside : ((step.attempt ctx).on scope').Follows (deedsOf t tried) (.perform e next)) :
      Tries config t ctx step policy k scope s (log ++ tried) s'
  /-- An attempt has failed, and the delay before the next one is not over. -/
  | waiting {number : Nat} {log tried waited : List Occurrence} {scope' final : Scope}
      {u v s' : System RunResult} {f : Failure}
      (rounds : step.Rounds config t ctx policy scope s number log scope' u)
      (attempted : step.Attempted config t ctx scope' u tried v (.error f) final)
      (repeats : policy.Repeats (f.atStep step.id))
      (left : number < max 1 policy.maxAttempts.toNat)
      (waits : v.Reaches config waited s') (quiet : deedsOf t waited = [])
      (time : s'.machine.now ≤ v.machine.now + (policy.backoff.delay number).toNat) :
      Tries config t ctx step policy k scope s (log ++ tried ++ waited) s'
  /-- The scope was cancelled during the delay after an attempt, and no other attempt is made. -/
  | interrupted {number : Nat} {log tried waited closing : List Occurrence} {scope' final : Scope}
      {u v w s' : System RunResult} {f : Failure}
      (rounds : step.Rounds config t ctx policy scope s number log scope' u)
      (attempted : step.Attempted config t ctx scope' u tried v (.error f) final)
      (repeats : policy.Repeats (f.atStep step.id))
      (left : number < max 1 policy.maxAttempts.toNat)
      (waits : v.Reaches config waited w) (prompt : Prompt t waited)
      (slept : deedsOf t waited =
        [⟨.sleep (some ctx.token) (policy.backoff.delay number).toNat, false⟩])
      (time : w.machine.now ≤ v.machine.now + (policy.backoff.delay number).toNat)
      (cancelled : w.machine.isCancelled ctx.token = true)
      (closes : step.Closes config t ctx k .cancelled number
        (.error (Retry.interrupted.atStep step.id)) w closing s') :
      Tries config t ctx step policy k scope s (log ++ tried ++ waited ++ closing) s'
  | stopped {number : Nat} {log tried closing : List Occurrence} {scope' final : Scope}
      {u v s' : System RunResult} {r r' : Except Failure Reached}
      (rounds : step.Rounds config t ctx policy scope s number log scope' u)
      (attempted : step.Attempted config t ctx scope' u tried v r final)
      (stops : policy.Stops step.id number r r')
      (closes : step.Closes config t ctx k (statusOf r') number r' v closing s') :
      Tries config t ctx step policy k scope s (log ++ tried ++ closing) s'

/-- How far a task has got with a step that has a retry policy. -/
inductive Step.Retries (config : Config) (t : TaskId) (ctx : Context) (step : Step)
    (policy : RetryPolicy) (k : Except Failure Reached × Scope → Program t.Result) (scope : Scope)
    (s : System RunResult) : List Occurrence → System RunResult → Prop where
  | opening {log : List Occurrence} {s' : System RunResult}
      (deeds : deedsOf t log = [] ∨ deedsOf t log = [⟨.isCancelled ctx.token, false⟩]) :
      Retries config t ctx step policy k scope s log s'
  /-- The scope was cancelled when the task came to the step, and no attempt is made. -/
  | passedOver {log : List Occurrence} {s' : System RunResult} {rest : List Deed}
      (deeds : deedsOf t log = ⟨.isCancelled ctx.token, true⟩ :: rest) :
      Retries config t ctx step policy k scope s log s'
  | begun {opening log : List Occurrence} {u s' : System RunResult}
      {opened : Except EngineError Unit} (reaches : s.Reaches config opening u)
      (deeds : deedsOf t opening =
        [⟨.isCancelled ctx.token, false⟩, ⟨.startSpan ctx step.id, opened⟩])
      (tries : step.Tries config t ctx policy k scope u log s') :
      Retries config t ctx step policy k scope s (opening ++ log) s'

section

variable {config : Config} {t : TaskId} {ctx : Context} {step : Step} {policy : RetryPolicy}
  {k : Except Failure Reached × Scope → Program t.Result} {scope scope' : Scope} {number : Nat}
  {before log more : List Occurrence} {s u s' : System RunResult}

theorem Step.Rounds.reaches
    (h : step.Rounds config t ctx policy scope s number log scope' u) :
    s.Reaches config log u := by
  induction h with
  | first => exact .refl
  | again rounds attempted repeats left waits prompt slept time calm ih =>
      exact (ih.trans attempted.reaches).trans waits

theorem Step.Rounds.pos (h : step.Rounds config t ctx policy scope s number log scope' u) :
    1 ≤ number := by
  cases h <;> omega

/-- A task that has made the last attempt of a step brings the step to its end. -/
theorem System.Reaches.closes {r : Except Failure Reached} {final : Scope}
    (hat : s.ComesTo t ((after (afterAttempts ctx step.id step.kind) (.ok (number, r), final)).bind k))
    (hr : s.Reaches config log s') :
    step.Closes config t ctx k (statusOf r) number r s log s' := by
  obtain ⟨final', hprogram⟩ : ∃ final',
      after (afterAttempts ctx step.id step.kind) (.ok (number, r), final) =
        .perform (.note ctx.run (.record ⟨step.id, step.kind, statusOf r, number, failureOf? r⟩))
          fun _ => .perform (.endSpan ctx step.id (statusOf r)) fun _ => .pure (r, final') := by
    cases r with
    | ok reached => exact ⟨_, rfl⟩
    | error f => exact ⟨_, rfl⟩
  rw [hprogram] at hat
  rcases hr.through hat with ⟨e, next, inside, -, -⟩ | ⟨a, log₁, log₂, u, rfl, hu, -, hends, hcomes, hu'⟩
  · refine .within hr ?_
    obtain ⟨hnone, -⟩ | ⟨noted, d, hd, hnoted⟩ := inside.cons_of_perform
    · exact Or.inl hnone
    obtain ⟨rfl, -⟩ | ⟨closed, d, rfl, hclosed⟩ := hnoted.cons_of_perform
    · exact Or.inr hd
    · cases (Program.Follows.pure_iff.mp hclosed).2
  · obtain ⟨-, hend⟩ | ⟨noted, d, hd, hnoted⟩ := hends.cons_of_perform
    · cases hend
    obtain ⟨-, hend⟩ | ⟨closed, d, rfl, hclosed⟩ := hnoted.cons_of_perform
    · cases hend
    obtain ⟨rfl, hend⟩ := Program.Follows.pure_iff.mp hclosed
    cases hend
    exact .over hu hd hcomes hu'

/-- A task that begins an attempt of a step goes on with the step as its policy says. -/
theorem Session.tries_of_rounds {further : Nat} (hs : Session config before s)
    (rounds : step.Rounds config t ctx policy scope s number log scope' u)
    (hnumber : further + number = max 1 policy.maxAttempts.toNat)
    (hat : u.ComesTo t ((((attempts ctx step.id (some policy) (step.attempt ctx) further number).on
      scope').bind (after (afterAttempts ctx step.id step.kind))).bind k))
    (hr : u.Reaches config more s') : step.Tries config t ctx policy k scope s (log ++ more) s' := by
  induction further using Nat.strongRecOn generalizing number log scope' u more with
  | ind further ih =>
      have hu := hs.reaches rounds.reaches
      rw [attempts_on, Program.bind_assoc, Program.bind_assoc] at hat
      rcases hr.through hat with ⟨e, next, inside, -, -⟩ |
        ⟨⟨r, final⟩, tried, rest, v, rfl, hv, hprompt, hattempt, hcomes, hrest⟩
      · exact .attempting rounds hr inside
      have attempted : step.Attempted config t ctx scope' u tried v r final := ⟨hv, hprompt, hattempt⟩
      rw [← List.append_assoc]
      rcases afterAttempt_cases ctx (step.attempt ctx) hnumber rounds.pos r final
        with ⟨r', stops, hprogram⟩ | ⟨f, fewer, rfl, repeats, rfl, hprogram⟩
      · rw [hprogram] at hcomes
        exact .stopped rounds attempted stops (hrest.closes hcomes)
      have left : number < max 1 policy.maxAttempts.toNat := by omega
      rw [hprogram] at hcomes
      have hsv := hu.reaches hv
      rcases hrest.perform hcomes.at with ⟨quiet, -⟩ |
        ⟨(waited : Bool), m, m', l, rest, w', w, rfl, hw', quiet, move, hslept, -, hnext, hw⟩
      · exact .waiting rounds attempted repeats left hrest quiet
          (Session.now_le_of_sleeping hsv hcomes.running hcomes.active hrest quiet)
      obtain ⟨hwaited, hle, htime⟩ :=
        Session.slept hsv hcomes.running hcomes.active hw' quiet move
      have hprompt : Prompt t (l ++ [.poll ⟨t, .sleep (some ctx.token)
          (policy.backoff.delay number).toNat, some waited, m, m'⟩]) :=
        Or.inr ⟨l, .sleep (some ctx.token) _, waited, m, m', rfl⟩
      have hcancelled : w.machine.isCancelled ctx.token = !waited := by
        rw [hwaited, Bool.not_not]
        rfl
      rw [← List.append_assoc]
      cases waited with
      | true =>
          have next := rounds.again attempted repeats left (hw'.move move) hprompt hslept
            (htime rfl) hcancelled
          refine ih fewer (Nat.lt_succ_self _) next (by omega) ?_ hw
          rw [Program.bind_assoc]
          exact hnext
      | false =>
          exact .interrupted rounds attempted repeats left (hw'.move move) hprompt hslept hle
            hcancelled (hw.closes hnext)

/-- A step with a retry policy stops at the first attempt that succeeds, that fails with an error
that is not one to try again after, or that is the last one. It ends with that success, with that
error, or with the news that its attempts are used up, and it is written down with the number of the
attempts that were made. Between two attempts lies exactly the delay of the policy; a cancellation
ends it and with it the step. Errors of steps whose attempts are used up, and cancellations, are not
tried again after. -/
theorem retries_follow_policy (hs : Session config before s) (hpolicy : step.retry = some policy)
    (hat : s.At t (((step.run ctx).on scope).bind k)) (hr : s.Reaches config log s') :
    step.Retries config t ctx policy k scope s log s' ∧
      ∀ f, f.kind = .retryExhausted ∨ f.kind = .cancellation → ¬ policy.Repeats f := by
  refine ⟨?_, fun f => RetryPolicy.not_repeats⟩
  rw [Step.run_eq, node_on, hpolicy] at hat
  rcases hr.perform hat with ⟨hnone, -⟩ |
    ⟨(cancelled : Bool), m, m', l₁, rest, v', v, rfl, hv', -, move, hlooked, hnot, hcomes, hrest⟩
  · exact .opening (Or.inl hnone)
  have hv := hv'.move move
  cases cancelled with
  | true =>
      refine .passedOver (?_ : _ = (_ : Deed) :: deedsOf t rest)
      rw [deedsOf_append hnot, hlooked]
      rfl
  | false =>
      rcases hrest.perform hcomes.at with ⟨hnone, -⟩ |
        ⟨opened, n, n', l₂, rest, u', u, rfl, hu', -, moves, hopened, -, hbegins, hrest⟩
      · refine .opening (Or.inr ?_)
        rw [deedsOf_append hnot, hlooked, hnone]
        rfl
      · rw [← List.append_assoc]
        refine .begun (hv.trans (hu'.move moves))
          (?_ : _ = [(_ : Deed), ⟨.startSpan ctx step.id, opened⟩]) ?_
        · rw [deedsOf_append hnot, hlooked, hopened]
          rfl
        · have hfurther : Retry.maxAttempts (some policy) - 1 + 1 = max 1 policy.maxAttempts.toNat := by
            unfold Retry.maxAttempts
            dsimp only
            omega
          exact Session.tries_of_rounds (hs.reaches (hv.trans (hu'.move moves))) .first hfurther
            hbegins hrest

end

def Solo.persistent : Solo where
  world := quietWorld [("broken", .delayed 10 (.failure .stepExecution "no"))]
  flow :=
    { name := "persistent"
      description := none
      steps := [.mk "pay" (.call .tool ⟨"broken", [], none, false⟩) (some ⟨3, .linear 5, true⟩) none]
      onError := none }

/-- The run does its step as the policy says, and writes it down with three attempts. -/
theorem retries_follow_policy_persistent :
    ∃ (before log earlier later : List Occurrence) (s s' : System RunResult) (t : TaskId)
      (ctx : Context) (step : Step) (policy : RetryPolicy) (scope : Scope)
      (k : Except Failure Reached × Scope → Program t.Result) (result : RunResult),
      Session Solo.persistent.config before s ∧ step.retry = some policy ∧
      s.At t (((step.run ctx).on scope).bind k) ∧ s.Reaches Solo.persistent.config log s' ∧
      step.Retries Solo.persistent.config t ctx policy k scope s log s' ∧
      (∀ f, f.kind = .retryExhausted ∨ f.kind = .cancellation → ¬ policy.Repeats f) ∧
      Session.Gives Solo.persistent.config Solo.persistent.flow earlier later result ∧
      result.records.map StepRecord.attempts = [3] := by
  obtain ⟨result, hgives, hp⟩ := Solo.persistent.exists_gives 200 rfl
    (p := fun r => decide (r.records.map StepRecord.attempts = [3])) (by decide +kernel)
  obtain ⟨t, l, parent, ctx, m₁, m₁', during, ending, outputs, m₂, later, u, v, inputs, -, hlives⟩ :=
    hgives.lives
  obtain ⟨k, hbegins⟩ := hlives.begins
  have hat : u.At t (((runSequence Solo.persistent.flow.steps
      ⟨ctx.run, ctx.token, Solo.persistent.config.stepTimeout⟩ .null).on
        (Scope.ofBindings inputs)).bind fun r => (conclude Solo.persistent.config Solo.persistent.flow
          ⟨ctx.run, ctx.token, Solo.persistent.config.stepTimeout⟩ none r).bind k) := by
    rw [← Program.bind_assoc]
    exact ⟨_, hbegins⟩
  rw [show Solo.persistent.flow.steps = [.mk "pay" (.call .tool ⟨"broken", [], none, false⟩)
    (some ⟨3, .linear 5, true⟩) none] from rfl, runSequence_bind] at hat
  obtain ⟨hretries, hnever⟩ := retries_follow_policy hlives.session rfl hat hlives.reaches
  exact ⟨_, _, _, _, u, v, t, _, _, _, _, _, result, hlives.session, rfl, hat, hlives.reaches,
    hretries, hnever, hgives, of_decide_eq_true hp⟩

end FlowEngine
