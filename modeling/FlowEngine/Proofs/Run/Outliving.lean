import FlowEngine.Proofs.Execution.Flow
import FlowEngine.Proofs.Run.Branches
import FlowEngine.Proofs.Session.Course
import FlowEngine.Proofs.Session.Turns
import FlowEngine.Proofs.Transaction.Fate

/-!
# No branch outlives its run

All branches of a run have ended when the first step of its handler starts and when it is
closed, and nothing that concerns the run happens after that. The owner of the run waits
for all branches before either moment, and starts none in between.
-/
namespace FlowEngine

open Exec Execution

/-! ## Before the first step -/

def Effect.startsOrCloses : Effect → Bool
  | startSpan _ _ | closeRun _ _ _ => true
  | _ => false

def Effect.joins : Effect → Bool
  | join _ _ _ _ => true
  | _ => false

def prelude : Protocol Bool where
  allows started e := e.joins → started = true
  moves started e _ v := v = (started || e.startsOrCloses)

namespace Prelude

variable {α : Type}

theorem obeys_started (p : Program α) : p.Obeys prelude (fun u _ => u = true) true := by
  induction p with
  | pure a => rfl
  | perform e next ih =>
      refine ⟨fun _ => rfl, ?_⟩
      rintro a v rfl
      exact ih a

theorem obeys_node (ctx : Context) (id kind : String) (retry : Option RetryPolicy)
    (attempt : Exec Reached) :
    (node ctx id kind retry attempt).Obeys prelude (fun u r => u = true ∨ ∃ f, r = .error f) false := by
  refine obeys_bind (obeys_ask.mpr ⟨nofun, fun (cancelled : Bool) u hu => ?_⟩)
  obtain rfl : u = false := hu
  cases cancelled with
  | true =>
      refine obeys_bind (obeys_ask.mpr ⟨nofun, fun a u hu => ?_⟩)
      exact obeys_throw.mpr (Or.inr ⟨_, rfl⟩)
  | false =>
      refine obeys_bind (obeys_ask.mpr ⟨nofun, fun a u hu => ?_⟩)
      obtain rfl : u = true := hu
      exact fun s => (obeys_started _).mono fun u r hu => Or.inl hu

theorem obeys_sequence (steps : List Step) (ctx : Context) (last : Json) :
    (runSequence steps ctx last).Obeys prelude (fun _ _ => True) false := by
  cases steps with
  | nil => exact obeys_pure.mpr trivial
  | cons step rest =>
      obtain ⟨id, action, retry, timeout⟩ := step
      rw [runSequence, Step.run]
      refine obeys_bind ((obeys_node ctx id _ retry _).mono fun u r hu => ?_)
      rcases hu with rfl | ⟨f, rfl⟩
      · cases r with
        | error f => trivial
        | ok reached => exact fun s => (obeys_started _).mono fun _ _ _ => trivial
      · trivial

theorem obeys_boundary (ctx : Context) (name : String) {handler : Exec Json} (f : Failure)
    (hh : handler.Obeys prelude (fun _ _ => True) false) :
    (boundary ctx name handler f).Obeys prelude (fun _ _ => True) false := by
  unfold boundary
  split
  · refine obeys_bind (obeys_ask.mpr ⟨nofun, fun a u hu => ?_⟩)
    obtain rfl : u = false := hu
    refine obeys_bind (obeys_outcome (obeys_inFrame (hh.mono fun u r _ => ?_)))
    exact obeys_ofResult.mpr trivial
  · exact obeys_throw.mpr trivial

theorem obeys_handleFailure (flow : Flow) (ctx : Context) (limit : Option UInt64) (timedOut : Bool)
    (f : Failure) (scope : Scope) :
    (handleFailure flow ctx limit timedOut f scope).Obeys prelude (fun _ _ => True) false := by
  rw [handleFailure_eq]
  cases flow.onError with
  | none => exact trivial
  | some handler =>
      refine Program.obeys_bind.mpr ((obeys_boundary ctx flow.name f
        (obeys_sequence handler ctx .null) scope).mono fun u p _ => ?_)
      obtain ⟨r, s⟩ := p
      cases r with
      | ok handled => exact ⟨nofun, fun _ _ _ => trivial⟩
      | error escaped => exact trivial

theorem obeys_endAfter (flow : Flow) (ctx : Context) (limit : Option UInt64) (timedOut : Bool)
    (f : Failure) (scope : Scope) :
    (endAfter flow ctx limit timedOut f scope).Obeys prelude (fun _ _ => True) false := by
  rw [endAfter_eq]
  refine ⟨nofun, fun (cancelled : Bool) u hu => ?_⟩
  obtain rfl : u = false := hu
  by_cases hc : (f.isCancellation || cancelled) = true
  · simp only [if_pos hc]
    exact trivial
  · simp only [if_neg hc]
    exact obeys_handleFailure flow ctx limit timedOut f scope

theorem obeys_settleAll (ctx : Context) (started : Bool) :
    (settleAll ctx).Obeys prelude (fun u _ => u = started) started := by
  refine ⟨nofun, ?_⟩
  rintro a u rfl
  exact Bool.or_false started

theorem obeys_stopRunDeadline (deadline : Option Nat) :
    (stopRunDeadline deadline).Obeys prelude (fun u _ => u = false) false := by
  cases deadline with
  | none => exact rfl
  | some deadline => exact ⟨nofun, fun _ _ hu => hu⟩

/-- The end of a run starts no branches before the first step of the handler. -/
theorem obeys_conclude {α : Type} (config : Config) (flow : Flow) (ctx : Context)
    (deadline : Option Nat) (f : Failure) (scope : Scope) (k : RunResult → Program α) :
    ((conclude config flow ctx deadline (.error f, scope)).bind k).Obeys prelude (fun _ _ => True)
      false := by
  rw [conclude_eq, Program.obeys_bind, Program.obeys_bind]
  refine (obeys_settleAll ctx false).mono ?_
  rintro u - rfl
  refine Program.obeys_bind.mpr ((obeys_stopRunDeadline deadline).mono ?_)
  rintro u timedOut rfl
  refine Program.obeys_bind.mpr ((obeys_endAfter flow ctx _ timedOut f scope).mono ?_)
  rintro u ended -
  refine Program.obeys_bind.mpr ((obeys_settleAll ctx u).mono ?_)
  rintro v - rfl
  refine ⟨nofun, fun result w hw => ?_⟩
  obtain rfl : w = true := hw.trans (Bool.or_true _)
  exact (obeys_started (k result)).mono fun _ _ _ => trivial

theorem not_joins_of_follows {α : Type} {p q : Program α} {deeds : List Deed}
    {Q : Bool → α → Prop} (ho : p.Obeys prelude Q false) (hf : p.Follows deeds q)
    (hnone : ∀ d ∈ deeds, d.effect.startsOrCloses = false) :
    ∀ d ∈ deeds, d.effect.joins = false := by
  induction hf with
  | start p => exact fun d hd => absurd hd List.not_mem_nil
  | @deed e next a rest q tail ih =>
      obtain ⟨hallows, hnext⟩ := ho
      have hstays : false = (false || e.startsOrCloses) := by
        rw [hnone _ List.mem_cons_self, Bool.or_false]
      intro d hd
      rcases List.mem_cons.mp hd with rfl | hd
      · by_contra hjoins
        exact Bool.false_ne_true (hallows (Bool.not_eq_false _ ▸ hjoins))
      · exact ih (hnext a false hstays) (fun d hd => hnone d (List.mem_cons_of_mem _ hd)) d hd

end Prelude
variable {config : Config} {log : List Occurrence} {s s' : System RunResult} {t : TaskId}

/-- In a session a task has come to the first step of the handler of a flow: the steps of its run
have failed, and since then it has started no step and has not closed the run. -/
def Session.StartsHandler (config : Config) (log : List Occurrence) (s : System RunResult)
    (t : TaskId) (ctx : Context) : Prop :=
  ∃ before mid s₀ flow deadline f scope, ∃ k : RunResult → Program t.Result, ∃ ctx' step next,
    log = before ++ mid ∧ Session config before s₀ ∧ s₀.Reaches config mid s ∧
    s₀.At t ((conclude config flow ctx deadline (.error f, scope)).bind k) ∧
    ¬ Restarted t mid ∧ (∀ d ∈ deedsOf t mid, d.effect.startsOrCloses = false) ∧
    s.At t (.perform (.startSpan ctx' step) next)

theorem Session.StartsHandler.ended {ctx : Context} (h : Session.StartsHandler config log s t ctx)
    {n : Nat} (hn : (ctx.run, n) ∈ startings log) : .ended (.branch n) ∈ log := by
  obtain ⟨before, mid, s₀, flow, deadline, f, scope, k, ctx', step, next, rfl, hs₀, hreaches, hat,
    hrestarted, hnone, hstarts⟩ := h
  have hfollows := hreaches.follows_at hat hstarts hrestarted
  have hjoins := Prelude.not_joins_of_follows
    (Prelude.obeys_conclude config flow ctx deadline f scope k) hfollows hnone
  obtain ⟨-, hsame⟩ | ⟨a, rest, hdeeds, -⟩ := hfollows.cons_of_perform
  · cases hsame
  rw [hdeeds] at hjoins hnone
  obtain ⟨l, m, m', r, rfl, hl, -, rfl⟩ := deedsOf_split (hdeeds.trans (List.nil_append _).symm)
  obtain ⟨u, v, hu, move, hv⟩ := hreaches.moment
  obtain ⟨s₁, hs₁, hbefore⟩ := hs₀
  obtain ⟨place, hhoused⟩ := Residence.housed_of_session ⟨s₁, hs₁, hbefore.trans hu⟩
  obtain ⟨place', home, hhoused', hsome, hhome, howner, hrun, hended⟩ := hhoused.settled move
  have hlingers : Residence.Lingers t r := by
    have hr : ¬ Restarted t r := fun h => hrestarted ⟨h.1, by simp [h.2]⟩
    refine ⟨fun hm => ?_, fun hm => ?_, hr⟩
    · obtain h | ⟨a, ha⟩ := hv.deed_of_poll hstarts hr hm
      · cases h
      · cases hjoins _ (List.mem_cons_of_mem _ ha)
    · obtain h | ⟨a, ha⟩ := hv.deed_of_poll hstarts hr hm
      · cases h
      · cases hnone _ (List.mem_cons_of_mem _ ha)
  obtain ⟨place'', hhoused'', hended⟩ :=
    hhoused'.stay_ended hsome hhome howner (hrun ▸ hended) hv hlingers
  rw [List.append_assoc, List.append_assoc, List.singleton_append] at hhoused''
  obtain ⟨base, hb⟩ := hhoused''.started hn
  exact hhoused''.mem_of_ended (hended n base (hrun ▸ hb))

/-- After a run was closed, nothing happens that concerns it. -/
structure Over (run : Nat) (before after : List Occurrence) : Prop where
  /-- All branches that were ever started for the run have ended before. -/
  ended {n : Nat} : (run, n) ∈ startings (before ++ after) → .ended (.branch n) ∈ before
  still {n : Nat} {x : Poll} : (run, n) ∈ startings (before ++ after) → .poll x ∈ after → x.task ≠ .branch n
  /-- Nobody is polled for anything that concerns the run. -/
  silent {x : Poll} : .poll x ∈ after → x.effect.run? ≠ some run
  /-- No snapshot of the run is discarded or restored any more. -/
  settled {handle : String} : (run, handle) ∈ takings (before ++ after) →
    handle ∈ givings before ∧ handle ∉ givings after

theorem Session.over {ending : Ending} {before after : List Occurrence}
    {outputs : List (String × Json)} {run : Nat} {result : RunResult} {m m' : Machine}
    (h : Session config
      (before ++ .poll ⟨t, .closeRun run ending outputs, some result, m, m'⟩ :: after) s) :
    Over run before after := by
  obtain ⟨s₀, hs₀, hreaches⟩ := h
  obtain ⟨u, v, hu, move, hv⟩ := hreaches.moment
  obtain ⟨place, hhoused⟩ := Residence.housed_of_session ⟨s₀, hs₀, hu⟩
  have hsilent {x : Poll} (hx : .poll x ∈ after) : x.effect.run? ≠ some run := by
    obtain ⟨l, r, rfl⟩ := List.append_of_mem hx
    obtain ⟨u', v', hu', move', -⟩ := hv.moment
    obtain ⟨place', hhoused'⟩ :=
      Residence.housed_of_session ⟨s₀, hs₀, (hu.trans (.single move)).trans hu'⟩
    refine hhoused'.run_ne_of_closed ?_ move'
    simp [closings]
  have hended {n : Nat} (hn : (run, n) ∈ startings (before ++ after)) : .ended (.branch n) ∈ before := by
    rw [startings_append, List.mem_append] at hn
    rcases hn with hn | hn
    · exact hhoused.mem_of_ended (hhoused.ended_of_closes move hn)
    · obtain ⟨u, policy, group, bs, b, a, hm, -⟩ := mem_startings.mp hn
      exact absurd rfl (hsilent hm)
  refine ⟨hended, ?_, hsilent, ?_⟩
  · rintro n ⟨_, e, a, b, c⟩ hn hx rfl
    obtain ⟨l, r, rfl⟩ := List.append_of_mem hx
    obtain ⟨u', v', hu', move', -⟩ := hv.moment
    obtain ⟨next, w, active⟩ := move'.advances.active_of_poll
    obtain ⟨r, order, hbranch⟩ := hu.ended_of_mem (hended hn)
    have := ((System.Reaches.single move).trans hu').branch_ended hbranch
    rw [← System.task?_outline, active] at this
    cases this
  · intro handle htaken
    have hbefore : (run, handle) ∈ takings before := by
      rw [takings_append, List.mem_append] at htaken
      refine htaken.resolve_right fun hm => ?_
      obtain ⟨u', ctx, b, a, hrun, htakes⟩ := mem_takings.mp hm
      exact hsilent htakes (congrArg some hrun)
    obtain ⟨place', hkept⟩ := Custody.kept_of_session ⟨s₀, hs₀, hu.trans (.single move)⟩ default
    obtain ⟨place'', hkept'⟩ := Custody.kept_of_session
      ⟨s₀, hs₀, (hu.trans (.single move)).trans hv⟩ default
    have hgiven : handle ∈ givings before := by
      have htaken' : (run, handle) ∈ takings (before ++ [.poll
          ⟨t, .closeRun run ending outputs, some result, m, m'⟩]) := by
        rw [takings_append]
        exact List.mem_append_left _ hbefore
      have := hkept.given_of_closed htaken' (by simp [closings])
      rw [givings_append, List.mem_append] at this
      exact this.resolve_right List.not_mem_nil
    have hdisjoint := hkept'.books.once
    rw [givings_append, givings_append, List.nodup_append, List.nodup_append] at hdisjoint
    refine ⟨hgiven, fun hm => ?_⟩
    exact hdisjoint.2.2 handle (List.mem_append_left _ hgiven) handle hm rfl

/-- No branch outlives its run: all branches of a run have ended when the first step of its
handler starts and when the run is closed, and nothing that concerns the run comes after. -/
theorem no_branch_outlives_run (h : Session config log s) :
    (∀ t ctx n, Session.StartsHandler config log s t ctx → (ctx.run, n) ∈ startings log →
      .ended (.branch n) ∈ log) ∧
    ∀ before t run ending outputs result m m' after,
      log = before ++ .poll ⟨t, .closeRun run ending outputs, some result, m, m'⟩ :: after →
        Over run before after := by
  refine ⟨fun t ctx n hstarts hn => hstarts.ended hn, ?_⟩
  rintro before t run ending outputs result m m' after rfl
  exact h.over

theorem no_branch_outlives_run_abandoned : ∃ log s, Session Solo.abandoned.config log s ∧
    startings log = [(0, 0), (0, 1)] ∧ takings log = [(0, "snap-1")] ∧
    ∃ before t ending outputs result m m' after,
      log = before ++ .poll ⟨t, .closeRun 0 ending outputs, some result, m, m'⟩ :: after ∧
      .ended (.branch 0) ∈ before ∧ .ended (.branch 1) ∈ before ∧ "snap-1" ∈ givings before := by
  obtain ⟨log, s, hsession, hstartings, htakings, hclosed⟩ :
      ∃ log s, Session Solo.abandoned.config log s ∧ startings log = [(0, 0), (0, 1)] ∧
        takings log = [(0, "snap-1")] ∧ 0 ∈ closings log :=
    ⟨_, _, Solo.abandoned.session 200 rfl, by decide +kernel, by decide +kernel, by decide +kernel⟩
  obtain ⟨t, ending, outputs, result, m, m', hm⟩ := mem_closings.mp hclosed
  obtain ⟨before, after, rfl⟩ := List.append_of_mem hm
  have hover := (no_branch_outlives_run hsession).2 before t 0 ending outputs result m m' after rfl
  have hstartings' : startings (before ++ after) = [(0, 0), (0, 1)] := by
    rw [← hstartings]
    simp [startings]
  have htakings' : takings (before ++ after) = [(0, "snap-1")] := by
    rw [← htakings]
    simp [takings]
  refine ⟨_, s, hsession, hstartings, htakings, before, t, ending, outputs, result, m, m', after,
    rfl, hover.ended ?_, hover.ended ?_, (hover.settled ?_).1⟩
  · simp [hstartings']
  · simp [hstartings']
  · simp [htakings']

end FlowEngine
