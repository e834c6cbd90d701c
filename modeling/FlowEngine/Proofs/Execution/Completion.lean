import FlowEngine.Proofs.Run.Retrying

/-!
# Steps that complete

A step completes when one of its attempts does, whatever its policy and its deadline are. Its history
is cut where its last attempt begins and where the action in that attempt begins and ends.
-/
namespace FlowEngine

open Exec Execution

/-- A program that ends has been given the answer to its first effect. -/
theorem Program.Follows.of_perform {α : Type} {e : Effect} {next : e.Answer → Program α}
    {deeds : List Deed} {a : α} (h : (perform e next).Follows deeds (pure a)) :
    ∃ answer rest, deeds = ⟨e, answer⟩ :: rest ∧ (next answer).Follows rest (pure a) := by
  obtain ⟨-, hend⟩ | hrest := h.cons_of_perform
  · cases hend
  · exact hrest

/-! ## Attempts -/

/-- What an attempt does before its action and after an action that completes, and the context in which
the action runs. -/
inductive Step.Attempts (step : Step) (ctx : Context) : Context → List Deed → List Deed → Prop where
  | free (limit : step.limit ctx = none) : Attempts step ctx ctx [] []
  | timed {limit : Millis} (limited : step.limit ctx = some limit) (token : Token) (deadline : Nat)
      (passed : Bool) : Attempts step ctx { ctx with token }
        [⟨.childToken ctx.token, token⟩, ⟨.startDeadline token limit, deadline⟩]
        [⟨.stopDeadline deadline, passed⟩]

/-- The attempts of a step before the one with a number have failed, each of them where the one before
it has left the scope chain, and the next one is about to begin. -/
inductive Step.Tried (step : Step) (ctx : Context) (s : Scope) : Nat → List Deed → Scope → Prop where
  | first (opened : Except EngineError Unit) :
      Tried step ctx s 1 [⟨.isCancelled ctx.token, false⟩, ⟨.startSpan ctx step.id, opened⟩] s
  | again {number : Nat} {before during : List Deed} {t u : Scope} {f : Failure} {delay : Millis}
      (tried : Tried step ctx s number before t)
      (failed : ((step.attempt ctx).on t).Follows during (.pure (.error f, u)))
      (repeats : Retry.decide step.retry number (f.atStep step.id) = .retryAfter delay)
      (left : number < Retry.maxAttempts step.retry) :
      Tried step ctx s (number + 1)
        (before ++ during ++ [⟨.sleep (some ctx.token) delay.toNat, true⟩]) u

inductive Step.Succeeds (step : Step) (ctx : Context) (s : Scope) :
    List Deed → Reached → Scope → Prop where
  | last {number : Nat} {before during : List Deed} {t u : Scope} {reached : Reached}
      (tried : step.Tried ctx s number before t)
      (ran : ((step.attempt ctx).on t).Follows during (.pure (.ok reached, u)))
      (closed : Except EngineError Unit) :
      Succeeds step ctx s (before ++ during ++
        [step.recorded ctx .completed number (.ok reached), ⟨.endSpan ctx step.id .completed, closed⟩])
        reached (u.recordOutput step.id reached.output)

section

variable {step : Step} {ctx ctx' : Context} {s s' t u : Scope} {number : Nat} {reached : Reached}
  {before deeds opening closing : List Deed}

theorem Step.Attempts.follows (h : step.Attempts ctx ctx' opening closing)
    (hran : ((step.action.run step.id ctx').on t).Follows deeds (.pure (.ok reached, u))) :
    ((step.attempt ctx).on t).Follows (opening ++ deeds ++ closing) (.pure (.ok reached, u)) := by
  unfold Step.attempt
  cases h with
  | free limit =>
      rw [limit, List.nil_append, List.append_nil]
      exact hran
  | timed limited token deadline passed =>
      rw [limited, withDeadline_on, List.append_assoc]
      refine .deed (.deed ((hran.bind _).append ?_))
      exact .deed (.start _)

theorem Step.Attempts.of_follows
    (h : ((step.attempt ctx).on t).Follows deeds (.pure (.ok reached, u))) :
    ∃ ctx' opening during closing, step.Attempts ctx ctx' opening closing ∧
      deeds = opening ++ during ++ closing ∧
      ((step.action.run step.id ctx').on t).Follows during (.pure (.ok reached, u)) := by
  unfold Step.attempt at h
  cases hlimit : step.limit ctx with
  | none =>
      rw [hlimit] at h
      exact ⟨ctx, [], deeds, [], .free hlimit, by simp, h⟩
  | some limit =>
      rw [hlimit, withDeadline_on] at h
      obtain ⟨token, d, rfl, hopened⟩ := h.of_perform
      obtain ⟨deadline, d, rfl, hstarted⟩ := hopened.of_perform
      obtain ⟨during, d, ⟨r, v⟩, rfl, hran, hstop⟩ := hstarted.bind_pure
      obtain ⟨passed, d, rfl, hstopped⟩ := hstop.of_perform
      cases r with
      | error f =>
          obtain ⟨outer, d, rfl, hend⟩ := hstopped.of_perform
          cases (Program.Follows.pure_iff.mp hend).2
      | ok a =>
          obtain ⟨rfl, hend⟩ := Program.Follows.pure_iff.mp hstopped
          cases hend
          exact ⟨_, _, during, _, .timed hlimit token deadline passed, by simp, hran⟩

/-- After a failed attempt that the policy repeats, the next one begins when the delay is over. -/
theorem Execution.afterAttempt_again {id : String} {retry : Option RetryPolicy}
    {attempt : Exec Reached} {further : Nat} {f : Failure} {delay : Millis}
    (repeats : Retry.decide retry number (f.atStep id) = .retryAfter delay) (s : Scope) :
    (afterAttempt ctx id retry number (furtherAttempts ctx id retry attempt (further + 1) number)
      (.error f)).on s = .perform (.sleep (some ctx.token) delay.toNat) fun (waited : Bool) =>
        if waited then (attempts ctx id retry attempt further (number + 1)).on s
        else .pure (.ok (number, .error (Retry.interrupted.atStep id)), s) := by
  unfold afterAttempt
  simp only [repeats, furtherAttempts]
  refine congrArg (Program.perform _) (funext fun (waited : Bool) => ?_)
  cases waited <;> rfl

/-- What comes after failed attempts is the rest of the attempts. -/
theorem Step.Tried.follows (h : step.Tried ctx s number before t) :
    ((step.run ctx).on s).Follows before (((attempts ctx step.id step.retry (step.attempt ctx)
      (Retry.maxAttempts step.retry - number) number).on t).bind
        (after (afterAttempts ctx step.id step.kind))) := by
  induction h with
  | first opened =>
      rw [Step.run_eq, node_on]
      exact .deed (.deed (.start _))
  | @again number before during t u f delay tried failed repeats left ih =>
      obtain ⟨further, hfurther⟩ : ∃ further, Retry.maxAttempts step.retry - number = further + 1 :=
        ⟨Retry.maxAttempts step.retry - number - 1, by omega⟩
      rw [hfurther, attempts_on, Program.bind_assoc] at ih
      have hran := ih.append (failed.bind _)
      rw [Program.bind_pure_left, afterAttempt_again repeats] at hran
      have hrest : Retry.maxAttempts step.retry - (number + 1) = further := by omega
      rw [hrest]
      exact hran.append (.deed (.start _))

theorem Step.Tried.of_attempts {further n : Nat} {d : List Deed} (h : step.Tried ctx s number before t)
    (hfurther : further + number = Retry.maxAttempts step.retry)
    (hran : ((attempts ctx step.id step.retry (step.attempt ctx) further number).on t).Follows d
      (.pure (.ok (n, .ok reached), u))) : ∃ before' during t', before ++ d = before' ++ during ∧
      step.Tried ctx s n before' t' ∧
      ((step.attempt ctx).on t').Follows during (.pure (.ok reached, u)) := by
  induction further generalizing number before t d with
  | zero =>
      rw [attempts_on] at hran
      obtain ⟨during, rest, ⟨r, v⟩, rfl, hattempt, hran⟩ := hran.bind_pure
      cases r with
      | ok a =>
          obtain ⟨rfl, hend⟩ := Program.Follows.pure_iff.mp hran
          cases hend
          exact ⟨before, during, t, by simp, h, hattempt⟩
      | error f =>
          unfold afterAttempt furtherAttempts at hran
          dsimp only at hran
          split at hran
          · cases (Program.Follows.pure_iff.mp hran).2
          · cases (Program.Follows.pure_iff.mp hran).2
          · rename_i hnone
            cases hnone
  | succ further ih =>
      rw [attempts_on] at hran
      obtain ⟨during, rest, ⟨r, v⟩, rfl, hattempt, hran⟩ := hran.bind_pure
      cases r with
      | ok a =>
          obtain ⟨rfl, hend⟩ := Program.Follows.pure_iff.mp hran
          cases hend
          exact ⟨before, during, t, by simp, h, hattempt⟩
      | error f =>
          cases hdecide : Retry.decide step.retry number (f.atStep step.id) with
          | giveUp g =>
              unfold afterAttempt at hran
              simp only [hdecide] at hran
              cases (Program.Follows.pure_iff.mp hran).2
          | retryAfter delay =>
              dsimp only at hran
              rw [afterAttempt_again hdecide] at hran
              obtain ⟨waited, d, rfl, hagain⟩ := hran.of_perform
              cases waited with
              | false => cases (Program.Follows.pure_iff.mp hagain).2
              | true =>
                  obtain ⟨before', during', t', hsplit, htried, hlast⟩ :=
                    ih (h.again hattempt hdecide (by omega)) (by omega) hagain
                  exact ⟨before', during', t', by simpa using hsplit, htried, hlast⟩

theorem Retry.one_le_maxAttempts (policy : Option RetryPolicy) : 1 ≤ maxAttempts policy := by
  cases policy with
  | none => exact Nat.le_refl 1
  | some p => exact Nat.le_max_right _ _

/-- A step succeeds exactly when one of its attempts does. -/
theorem Step.succeeds_iff : step.Succeeds ctx s deeds reached s' ↔
    ((step.run ctx).on s).Follows deeds (.pure (.ok reached, s')) := by
  constructor
  · rintro ⟨tried, ran, closed⟩
    have hran := tried.follows
    rw [attempts_on, Program.bind_assoc] at hran
    exact (hran.append (ran.bind _)).append (.deed (.deed (.start _)))
  · intro h
    rw [Step.run_eq, node_on] at h
    obtain ⟨cancelled, d, rfl, hlooked⟩ := h.of_perform
    cases cancelled with
    | true =>
        obtain ⟨noted, d, rfl, hend⟩ := Program.Follows.of_perform hlooked
        cases (Program.Follows.pure_iff.mp hend).2
    | false =>
        obtain ⟨opened, d, rfl, hopened⟩ := Program.Follows.of_perform hlooked
        obtain ⟨tries, d, ⟨r, v⟩, rfl, htries, hend⟩ := hopened.bind_pure
        cases r with
        | error f => cases (Program.Follows.pure_iff.mp hend).2
        | ok p =>
            obtain ⟨number, result⟩ := p
            obtain ⟨noted, d, rfl, hnoted⟩ := Program.Follows.of_perform hend
            obtain ⟨closed, d, rfl, hclosed⟩ := Program.Follows.of_perform hnoted
            cases result with
            | error f => cases (Program.Follows.pure_iff.mp hclosed).2
            | ok a =>
                obtain ⟨rfl, hlast⟩ := Program.Follows.pure_iff.mp hclosed
                obtain ⟨rfl, rfl⟩ : reached = a ∧ s' = v.recordOutput step.id a.output := by
                  cases hlast
                  exact ⟨rfl, rfl⟩
                have hall : Retry.maxAttempts step.retry - 1 + 1 = Retry.maxAttempts step.retry :=
                  Nat.sub_add_cancel (Retry.one_le_maxAttempts _)
                obtain ⟨before, during, t, hsplit, tried, ran⟩ :=
                  (Step.Tried.first opened).of_attempts hall htries
                have hsucceeds := Step.Succeeds.last tried ran closed
                rw [← hsplit] at hsucceeds
                exact hsucceeds

end
end FlowEngine
