import FlowEngine.Proofs.Execution.Twins
import FlowEngine.Proofs.Machine.Calm
import FlowEngine.Proofs.Run.Joins
import FlowEngine.Proofs.Run.Membership
import FlowEngine.Proofs.Session.Course
import FlowEngine.Proofs.Session.Polled

/-!
# Serene systems

In a serene system the machine is calm, and what each task writes and comes to is determined by the
answers that are expected. Such a system stays serene as long as all polls are answered as expected.
-/
namespace FlowEngine

def TaskId.role : TaskId → Role
  | .branch _ => .branch
  | _ => .owner

/-- A poll leaves the machine calm. Its answer is one that is expected, or that of a join that waits for
all branches. -/
def Polled.Expected (reply : Request → Outcome) (U : Role → Answers) (role : Role) (e : Effect)
    (p : Polled e.Answer) : Prop :=
  p.Stays reply (fun a => U role e a ∨ ∃ run group bs, e = .join run .waitAll group bs)
    (e.Awaits reply)

def AsExpected (U : Role → Answers) (log : List Occurrence) : Prop :=
  ∀ t e a before after, .poll ⟨t, e, some a, before, after⟩ ∈ log →
    U t.role e a ∨ ∃ run group bs, e = .join run .waitAll group bs

theorem asExpected_nil (U : Role → Answers) : AsExpected U [] :=
  fun _ _ _ _ _ hm => absurd hm List.not_mem_nil

theorem AsExpected.append {U : Role → Answers} {log more : List Occurrence} (h : AsExpected U log)
    (h' : AsExpected U more) : AsExpected U (log ++ more) :=
  fun t e a before after hm =>
    (List.mem_append.mp hm).elim (h t e a before after) (h' t e a before after)

variable {config : Config} {log : List Occurrence} {s s' : System RunResult} {reply : Request → Outcome}
  {U : Role → Answers} {t : TaskId} {e : Effect} {next : e.Answer → Program t.Result} {w : Wait}

theorem Outline.Polls.results_of_join {o o₁ : Outline} {w : Wait} {run : Nat} {group : Token}
    {bs : List Branch} {a : Except Failure (List BranchOutcome)}
    (h : o.Polls w o₁ (.join run .waitAll group bs) (.answered a)) :
    ∃ results : List (Except Failure Json), a = .ok (results.map .ofExcept) := by
  simp only [Polls] at h
  split at h
  · cases h with
    | failed fast => cases fast
    | completed _ all =>
        obtain ⟨results, rfl, -⟩ := exists_results all
        exact ⟨results, rfl⟩
  · obtain ⟨-, ⟨ha, -⟩ | ⟨-, hturn⟩⟩ := h
    · cases ha
      exact ⟨[], rfl⟩
    · cases hturn

/-- A task performs effects only for runs that were opened. -/
theorem Session.lt_of_active {run : Nat} (h : Session config log s)
    (ht : s.task? t = some (.active (.perform e next) w)) (hrun : e.run? = some run) :
    run < s.machine.runs.size := by
  obtain ⟨place, hhoused⟩ := Residence.housed_of_session h
  have hactive := hhoused.obedient.active ((System.task?_outline t).trans ht)
  obtain ⟨home, hhome, rfl⟩ := Residence.home_of_allows hactive.1 hrun
  simpa [System.outline, Machine.outline] using hhoused.holds.opened hhome

namespace System

/-- The machine is calm, and what each task that goes on writes and comes to is determined by the
answers that are expected. -/
structure Serene (U : Role → Answers) (reply : Request → Outcome) (s : System RunResult) : Prop where
  calm : s.machine.Calm reply
  steady {t : TaskId} {p : Program t.Result} {w : Wait} :
    s.task? t = some (.active p w) → p.Steady U t.role
  awaits {t : TaskId} {e : Effect} {next : e.Answer → Program t.Result} {w : Wait} :
    s.task? t = some (.active (.perform e next) w) → e.Awaits reply w

namespace Serene

variable (hU : Regular reply U)
include hU

/-- A task that has had its turn in a serene system goes on steadily. -/
theorem turn (hs : s.Serene U reply) (polls : s.Polls t e next w s')
    (stays : (s.machine.poll t w e).Expected reply U t.role e) {p : Program t.Result} {w' : Wait}
    (ht : s'.task? t = some (.active p w')) : p.Steady U t.role ∧
      ∀ e' next', p = .perform e' next' → e'.Awaits reply w' := by
  have hsteady := hs.steady polls.active
  have houtline := s.machine.poll_outline s.main t w e
  rw [polls.result, Option.some.injEq] at ht
  cases hp : s.machine.poll t w e with
  | waiting w₁ m =>
      rw [hp] at ht stays
      cases ht
      refine ⟨hsteady, ?_⟩
      rintro e' next' ⟨⟩
      exact stays.2
  | answered a m =>
      rw [hp] at ht stays houtline
      cases ht
      refine ⟨?_, fun e' _ _ => e'.awaits_fresh reply⟩
      rcases stays.2 with hquiet | ⟨run, group, bs, rfl⟩
      · exact hsteady.next_of_expected hU hquiet
      · obtain ⟨results, rfl⟩ := houtline.results_of_join
        exact hsteady.next_of_join hU results

/-- A step of a serene system in which polls are answered as expected leads to a serene one. -/
theorem step (hs : s.Serene U reply) (hstep : s.step? = some s')
    (hpolls : ∀ {t : TaskId} {e : Effect} {next : e.Answer → Program t.Result} {w : Wait},
      s.Polls t e next w s' → s.occurrences = [.poll ⟨t, e, (s.machine.poll t w e).turn.answer?,
        s.machine, (s.machine.poll t w e).machine⟩] →
      (s.machine.poll t w e).Expected reply U t.role e) :
    s'.Serene U reply ∧ AsExpected U s.occurrences := by
  have move : s.Moves {} s.occurrences s' := .step hstep
  rcases move.polled_or_unpolled with ⟨t, e, next, w, polls, hlog⟩ | hquiet
  · have stays := hpolls polls hlog
    rw [hlog] at move ⊢
    have hothers {u : TaskId} (hut : u ≠ t) {p : Program u.Result} {w' : Wait}
        (hu : s'.task? u = some (.active p w')) : s.task? u = some (.active p w') ∨
          p.Steady U u.role ∧ w' = .fresh := by
      rcases polls.others hut with hsame | ⟨hnone, ⟨n, rfl⟩, -⟩
      · exact Or.inl (hsame ▸ hu)
      · obtain ⟨run, policy, group, bs, b, rfl, hb, hstate⟩ := polls.born hnone hu
        cases hstate
        exact Or.inr ⟨⟨Eq, (hs.steady polls.active).branch hU hb⟩, rfl⟩
    refine ⟨⟨?_, fun {u p w'} hu => ?_, fun {u e' next' w'} hu => ?_⟩, ?_⟩
    · have hcalm : (s.machine.poll t w e).machine.Calm reply := by
        cases hp : s.machine.poll t w e with
        | answered a m => exact (hp ▸ stays).1
        | waiting w' m => exact (hp ▸ stays).1
      exact hcalm.of_still (Machine.still_of_shared polls.shared)
    · by_cases hut : u = t
      · subst hut
        exact (hs.turn hU polls stays hu).1
      · exact (hothers hut hu).elim hs.steady And.left
    · by_cases hut : u = t
      · subst hut
        exact (hs.turn hU polls stays hu).2 _ _ rfl
      · rcases hothers hut hu with hbefore | ⟨-, rfl⟩
        · exact hs.awaits hbefore
        · exact e'.awaits_fresh reply
    · intro u e' a before after hm
      have heq := List.mem_singleton.mp hm
      cases hp : s.machine.poll t w e with
      | waiting w' m =>
          rw [hp] at heq
          cases heq
      | answered b m =>
          rw [hp] at heq stays
          cases heq
          exact stays.2
  · refine ⟨⟨?_, fun hu => hs.steady (active_of_step hstep hquiet.quiet hu),
      fun hu => hs.awaits (active_of_step hstep hquiet.quiet hu)⟩,
      fun u e' a before after hm => absurd hm (hquiet.quiet _)⟩
    rcases passes_of_step hstep hquiet.quiet with hsame | hcounted | ⟨hclock, -⟩
    · exact hs.calm.of_still (Machine.still_of_shared hsame)
    · exact hs.calm.of_still ((Machine.still_of_shared hcounted).trans rfl)
    · exact hs.calm.advanceClock? hclock

end Serene

end System
end FlowEngine
