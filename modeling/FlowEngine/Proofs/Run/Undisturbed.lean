import FlowEngine.Proofs.Run.FanOut
import FlowEngine.Proofs.Run.Lifetime
import FlowEngine.Proofs.Run.Outliving
import FlowEngine.Proofs.Run.Results
import FlowEngine.Proofs.Run.Serenity
import FlowEngine.Proofs.Run.Unwinding

/-!
# Undisturbed runs

A timeless flow that is run without deadlines, under a token that nobody cancels, is not disturbed
from the moment at which it is opened to its end: the machine stays calm, and what each task does
alone is determined. So what is written down is determined up to order, and each branch that is
waited for comes to what it comes to alone.
-/
namespace FlowEngine

open Exec Execution

variable {config : Config} {log : List Occurrence} {s s' : System RunResult} {reply : Request → Outcome}
  {t : TaskId} {e : Effect} {next : e.Answer → Program t.Result} {w : Wait}

namespace System.Serene

/-- In a serene system a task is answered undisturbed, or its join is. -/
theorem undisturbed (hs : s.Serene (fun _ => Effect.Undisturbed reply) reply)
    (h : Session config log s) (polls : s.Polls t e next w s')
    (move : s.Moves config [.poll ⟨t, e, (s.machine.poll t w e).turn.answer?, s.machine,
      (s.machine.poll t w e).machine⟩] s') :
    (s.machine.poll t w e).Expected reply (fun _ => Effect.Undisturbed reply) t.role e := by
  apply hs.calm.poll (hs.awaits polls.active) (hs.steady polls.active).quiet
  · rintro run token request rfl
    exact h.lt_of_active polls.active rfl
  · rintro run ending outputs rfl
    exact h.status_of_closes move

theorem course (hs : s.Serene (fun _ => Effect.Undisturbed reply) reply) (h : Session config log s)
    (fuel : Nat) : (s.course fuel).2.Serene (fun _ => Effect.Undisturbed reply) reply ∧
      Undisturbed reply (s.course fuel).1 := by
  induction fuel generalizing s log with
  | zero => exact ⟨hs, fun _ _ _ _ _ hm => absurd hm List.not_mem_nil⟩
  | succ fuel ih =>
      rw [System.course]
      cases hstep : s.step? with
      | none => exact ⟨hs, fun _ _ _ _ _ hm => absurd hm List.not_mem_nil⟩
      | some s' =>
          have move : s.Moves config s.occurrences s' := .step hstep
          obtain ⟨hs', hquiet⟩ := hs.step (.of_undisturbed reply) hstep fun polls hlog =>
            hs.undisturbed h polls (hlog ▸ move)
          obtain ⟨hlast, hrest⟩ := ih hs' (h.reaches (.single (.step hstep)))
          refine ⟨hlast, fun t e a before after hm => ?_⟩
          exact (List.mem_append.mp hm).elim (hquiet t e a before after) (hrest t e a before after)

end System.Serene

namespace System

theorem submissions_of_course (fuel : Nat) (s : System RunResult) :
    (s.course fuel).2.outline.submissions.length = s.outline.submissions.length := by
  induction fuel generalizing s with
  | zero => rfl
  | succ fuel ih =>
      rw [course]
      cases h : s.step? with
      | none => rfl
      | some s' => exact (ih s').trans (submissions_of_step h)

theorem Reaches.runs_of_undisturbed (h : s.Reaches config log s') (hquiet : Undisturbed reply log) :
    s'.outline.runs.length = s.outline.runs.length := by
  induction h with
  | refl => rfl
  | @move log more u v before move ih =>
      have hbefore := ih fun _ _ _ _ _ hm => hquiet _ _ _ _ _ (List.mem_append_left _ hm)
      rcases Residence.runs_of_advances move.advances with hsame |
        ⟨-, t, flow, parent, token, m, m', next, w, rfl, -⟩
      · exact hsame.trans hbefore
      · rcases hquiet _ _ _ _ _ (List.mem_append_right _ (List.mem_singleton_self _)) with
          hopens | ⟨run, group, bs, hjoin⟩
        · exact hopens.elim
        · cases hjoin

end System

theorem Session.written_eq {earlier : List Occurrence} (h : Session config (earlier ++ log) s)
    (hone : s.outline.runs.length = 1) : written log = entriesOf 0 log := by
  refine List.flatMap_congr fun x hx => ?_
  match x with
  | .errand | .ended _ => rfl
  | .poll ⟨t, e, none, before, after⟩ => rfl
  | .poll ⟨t, e, some a, before, after⟩ =>
      cases e with
      | note run entry =>
          have hrun := h.lt_of_concerns (List.mem_append_right _ hx) rfl
          obtain rfl : run = 0 := by omega
          rfl
      | _ => exact (ite_self _).symm

/-! ## Branches on their own -/

/-- Alone, a branch comes to this result and to no other. -/
def Branch.ComesTo (reply : Request → Outcome) (b : Branch) (r : Except Failure Json) : Prop :=
  (∃ entries, b.program.Alone reply entries r) ∧
    ∀ entries r', b.program.Alone reply entries r' → r' = r

section

variable {run : Nat} {policy : JoinPolicy} {group : Token} {bs : List Branch}
  {joined : Except Failure (List BranchOutcome) → Program t.Result} {after : List Occurrence}

/-- When nothing is disturbed, a join that waits for its branches is answered with what each of
them comes to alone. -/
theorem System.Reaches.branches_alone
    (ht : s.task? t = some (.active (.perform (.join run policy group bs) joined) .fresh))
    (hsteady : (Program.perform (.join run policy group bs) joined).Steady
      (fun _ => Effect.Undisturbed reply) t.role)
    (hr : s.Reaches config after s') (hd : deedsOf t after = []) (hquiet : Undisturbed reply after)
    (hno : .errand ∉ after) {answer : Except Failure (List BranchOutcome)} {m m' : Machine}
    {u : System RunResult}
    (move : s'.Moves config [.poll ⟨t, .join run policy group bs, some answer, m, m'⟩] u) :
    ∃ results : List (Except Failure Json), answer = .ok (results.map .ofExcept) ∧
      List.Forall₂ (Branch.ComesTo reply) bs results := by
  obtain rfl : policy = .waitAll := by
    rcases hsteady.quiet with ⟨a, ha⟩ | ⟨run, group, bs, hjoin⟩
    · exact ha.elim
    · cases hjoin
      rfl
  obtain ⟨-, next, w, hw, hpolls⟩ := move.polls_of_answer
  rcases hr.forks ht hd with hfresh | ⟨l, m₁, m₁', meanwhile, v, rfl, hv, ⟨hstarts, hv'⟩, hwait⟩
  · rw [hfresh] at hw
    cases hw
    obtain ⟨-, ⟨hanswer, rfl⟩ | ⟨-, hturn⟩⟩ := hpolls
    · cases hanswer
      exact ⟨[], rfl, .nil⟩
    · cases hturn
  · rw [hwait] at hw
    cases hw
    change s'.outline.Joins run .waitAll group _ _ _ at hpolls
    generalize m'.outline s'.main = o at hpolls
    cases hpolls with
    | failed fast => cases fast
    | completed _ all =>
        obtain ⟨results, rfl, hresults⟩ := Outline.results_of_outcomes all fun _ _ _ h => h
        have hlength : results.length = bs.length := by
          rw [← hresults.length_eq, List.length_range']
        have hquiet' : Undisturbed reply meanwhile := fun _ _ _ _ _ hm =>
          hquiet _ _ _ _ _ (List.mem_append_right _ (List.mem_cons_of_mem _ hm))
        obtain ⟨entries, hunwound⟩ := hv'.unwound hquiet' fun hm =>
          hno (List.mem_append_right _ (List.mem_cons_of_mem _ hm))
        refine ⟨results, rfl, List.forall₂_iff_get.mpr ⟨hlength.symm, fun i hi hi' => ?_⟩⟩
        obtain ⟨k, hk⟩ := hresults.get (by rwa [List.length_range']) hi'
        rw [List.get_eq_getElem, List.getElem_range', Nat.one_mul] at hk
        have hstart := hstarts i _ (List.getElem?_eq_getElem hi)
        have halone := hunwound.branch ((System.task?_outline _).trans hstart) hk
        refine ⟨⟨_, halone⟩, fun entries r' halone' => ?_⟩
        exact ((hsteady.branch (.of_undisturbed reply) (List.getElem_mem hi)).unique
          (.of_undisturbed reply) (halone'.course .branch) (halone.course .branch)).2

/-- When nothing is disturbed, a step that fans out into branches it waits for gets an envelope for
what each branch comes to alone, on its own fork of the scope. -/
theorem System.Reaches.envelopes_alone {ctx : Context} {id : String} {action : Action} {scope : Scope}
    {branches : Context → List Branch} {k : Except Failure Reached × Scope → Program t.Result}
    (hat : s.At t (((action.run id ctx).on scope).bind k))
    (hsteady : (((action.run id ctx).on scope).bind k).Steady
      (fun _ => Effect.Undisturbed reply) t.role)
    (hfan : action.FansOut scope policy branches) (hr : s.Reaches config after s')
    (hquiet : Undisturbed reply after) (hno : .errand ∉ after) {r : Except Failure Reached}
    {final : Scope} (hy : ((action.run id ctx).on scope).Yields (deedsOf t after) (r, final)) :
    ∃ group results, r = .ok (.value (.arr (results.map resultEnvelope))) ∧
      List.Forall₂ (Branch.ComesTo reply) (branches { ctx with token := group }) results := by
  obtain ⟨deeds, more, hdeeds, hfollows⟩ := hy
  rw [hfan.run_on] at hfollows hat hsteady
  rw [Program.bind_perform] at hat hsteady
  obtain ⟨-, hend⟩ | ⟨group, d₁, rfl, hjoin⟩ := hfollows.cons_of_perform
  · cases hend
  obtain ⟨-, hend⟩ | ⟨answer, d₂, rfl, hrest⟩ := hjoin.cons_of_perform
  · cases hend
  obtain ⟨l₁, m, m', l₂, rfl, -, hl₁, hl₂⟩ := deedsOf_split (show deedsOf t after = [] ++ _ from hdeeds)
  obtain ⟨u, v, hu, move, hv⟩ := hr.moment
  obtain ⟨l₃, m₁, m₁', later, rfl, -, hl₃, hl₄⟩ :=
    deedsOf_split (show deedsOf t l₂ = [] ++ _ from hl₂)
  obtain ⟨u', v', hu', move', -⟩ := hv.moment
  have hwithin : l₃ ++ .poll ⟨t, .join ctx.run policy group (branches { ctx with token := group }),
      some answer, m₁, m₁'⟩ :: later ⊆ l₁ ++ .poll ⟨t, .childToken ctx.token, some group, m, m'⟩ ::
        (l₃ ++ .poll ⟨t, .join ctx.run policy group (branches { ctx with token := group }),
          some answer, m₁, m₁'⟩ :: later) :=
    fun x hx => List.mem_append_right _ (List.mem_cons_of_mem _ hx)
  have hstart := move.goes_on (hu.stays hat hl₁).1
  obtain ⟨results, rfl, hcomes⟩ := hu'.branches_alone hstart
    (hsteady.next_of_expected (.of_undisturbed reply) (a := group) trivial) hl₃
    (fun _ _ _ _ _ hm => hquiet _ _ _ _ _ (hwithin (List.mem_append_left _ hm)))
    (fun hm => hno (hwithin (List.mem_append_left _ hm))) move'
  obtain ⟨-, hend⟩ | ⟨cancelled, d₃, rfl, hanswered⟩ := hrest.cons_of_perform
  · cases hend
  obtain ⟨m₂, m₂', hlooks⟩ : ∃ m₂ m₂', .poll ⟨t, .isCancelled ctx.token, some cancelled, m₂, m₂'⟩ ∈
      later := mem_of_deed (by simp [hl₄])
  have hcalm := hquiet _ _ _ _ _ (hwithin (List.mem_append_right _ (List.mem_cons_of_mem _ hlooks)))
  obtain rfl : cancelled = false := by
    rcases hcalm with hcalm | ⟨run, group, bs, hjoin⟩
    · exact hcalm
    · cases hjoin
  obtain ⟨-, hpure⟩ := Program.Follows.pure_iff.mp hanswered
  cases hpure
  refine ⟨group, results, ?_, hcomes⟩
  rw [if_neg Bool.false_ne_true, List.map_map]
  exact congrArg _ (congrArg _ (congrArg _ (List.map_congr_left fun r _ => envelope_ofExcept r)))

end

/-! ## Runs on their own -/

namespace Solo

variable {a a' : Solo} {fuel fuel' : Nat} {result result' : RunResult} {order order' : Nat}

/-- Nothing disturbs the run: its flow is timeless, there are no deadlines, nobody cancels it, and
what requests get depends on nothing but the requests. How long the replies take and how many
permits the run has is left open. -/
structure Quiet (reply : Request → Outcome) (a : Solo) : Prop where
  timeless : a.flow.Timeless
  runTimeout : a.config.runTimeout = none
  stepTimeout : a.config.stepTimeout = none
  uncancelled : a.cancelAfter = none
  replies : a.world.Replies reply
  snapshots : a.world.store.store.snapshots = []

def opened (a : Solo) : System RunResult := (a.start.course 2).2

def token (a : Solo) : Token := (Machine.new a.config a.world).newToken.1.child 1

theorem opens (h : a.cancelAfter = none) : ∃ s m m' parent,
    a.start.step? = some s ∧ a.start.occurrences = [] ∧ s.step? = some a.opened ∧
      s.occurrences = [.poll ⟨.main, .openRun a.flow.name parent, some (0, a.token), m, m'⟩] := by
  obtain ⟨config, world, flow, inputs, cancelAfter⟩ := a
  cases h
  exact ⟨_, _, _, _, rfl, rfl, rfl, rfl⟩

/-- When the run has been opened, only its main task is there. -/
theorem opened_fresh (h : a.cancelAfter = none) :
    a.opened.main = .active (afterOpening a.config a.flow a.inputs (0, a.token)) .fresh ∧
      a.opened.machine.branches = #[] ∧ a.opened.machine.submissions = #[] ∧
      a.opened.machine.still = ([], [], a.world) ∧ a.opened.machine.runs.size = 1 := by
  obtain ⟨config, world, flow, inputs, cancelAfter⟩ := a
  cases h
  exact ⟨rfl, rfl, rfl, rfl, rfl⟩

theorem commences (h : a.cancelAfter = none) (hs : a.world.store.store.snapshots = []) :
    ∃ earlier, Session.Commences a.config a.flow earlier a.opened .main
      ⟨0, a.token, a.config.stepTimeout⟩ a.inputs := by
  obtain ⟨s, m, m', parent, hstart, hnothing, hopens, hpoll⟩ := opens h
  obtain ⟨hmain, -⟩ := opened_fresh h
  have hsession : Session a.config [.errand] s := by
    have hfirst : Session a.config ([.errand] ++ a.start.occurrences) s :=
      (a.session 0 hs).reaches (.single (.step hstart))
    rwa [hnothing, List.append_nil] at hfirst
  have hmoves : s.Moves a.config _ a.opened := .step hopens
  rw [hpoll] at hmoves
  refine ⟨_, rfl, ⟨[.errand], s, parent, m, m', rfl, hsession, hmoves⟩, .pure, ?_⟩
  rw [Program.bind_pure_right, System.task?, hmain]

theorem exists_of_ended (h : a.cancelAfter = none)
    (hend : (a.start.course fuel).2.main = .ended result order) :
    ∃ n, fuel = 2 + n ∧ (a.opened.course n).2.main = .ended result order := by
  obtain ⟨config, world, flow, inputs, cancelAfter⟩ := a
  cases h
  match fuel with
  | 0 | 1 => cases hend
  | n + 2 =>
      refine ⟨n, Nat.add_comm n 2, ?_⟩
      rwa [Nat.add_comm, System.course_add] at hend

namespace Quiet

theorem serene (ha : a.Quiet reply) :
    a.opened.Serene (fun _ => Effect.Undisturbed reply) reply := by
  obtain ⟨hmain, hbranches, hsubmissions, hstill, -⟩ := opened_fresh ha.uncancelled
  have hactive {t : TaskId} {p : Program t.Result} {w : Wait}
      (ht : a.opened.task? t = some (.active p w)) :
      p.Steady (fun _ => Effect.Undisturbed reply) t.role ∧ w = .fresh := by
    cases t with
    | main =>
        rw [System.task?, hmain] at ht
        cases ht
        exact ⟨⟨_, afterOpening_twin (.of_undisturbed reply)
          (ha.timeless.alike (.of_undisturbed reply)) ha.runTimeout ha.runTimeout ha.stepTimeout
          ha.stepTimeout a.inputs _ _⟩, rfl⟩
    | branch n =>
        rw [System.task?, hbranches] at ht
        cases ht
    | submission n =>
        rw [System.task?, hsubmissions] at ht
        cases ht
  simp only [Machine.still, Prod.mk.injEq] at hstill
  obtain ⟨hcancelled, htimers, hworld⟩ := hstill
  refine ⟨⟨hcancelled, fun hx => ?_, hworld ▸ ha.replies⟩, fun ht => (hactive ht).1, fun ht => ?_⟩
  · rw [htimers] at hx
    cases hx
  · rw [(hactive ht).2]
    exact Effect.awaits_fresh reply _

/-- What lies between the beginning of the run and its end. -/
theorem lives (ha : a.Quiet reply) (hend : (a.start.course fuel).2.main = .ended result order) :
    ∃ n earlier during ending outputs v m later, (a.opened.course n).2.main = .ended result order ∧
      (a.opened.course n).1 =
        during ++ .poll ⟨.main, .closeRun 0 ending outputs, some result, v.machine, m⟩ :: later ∧
      Session.Lives a.config a.flow earlier during a.opened v .main ⟨0, a.token, a.config.stepTimeout⟩
        a.inputs ending outputs result := by
  obtain ⟨n, rfl, hended⟩ := exists_of_ended ha.uncancelled hend
  obtain ⟨earlier, hcommences⟩ := commences ha.uncancelled ha.snapshots
  obtain ⟨hmain, -⟩ := opened_fresh ha.uncancelled
  have hbegins : a.opened.task? .main = some (.active
      ((afterOpening a.config a.flow a.inputs (0, a.token)).bind .pure) .fresh) := by
    rw [Program.bind_pure_right, System.task?, hmain]
  have hfollows := System.follows_course ⟨_, congrArg some hmain⟩ hended
  obtain ⟨during, ending, outputs, v, m₁, later, hlog, hlives⟩ :=
    Session.lives_of_opened ⟨0, a.token, a.config.stepTimeout⟩ rfl
      hcommences.opening hbegins (System.reaches_course n a.opened)
      (List.append_nil _).symm hfollows
  exact ⟨n, _, during, ending, outputs, v, m₁, later, hended, hlog, hlives⟩

/-- The run comes to what its program comes to alone, and writes down the same. -/
theorem alone (ha : a.Quiet reply) (hend : (a.start.course fuel).2.main = .ended result order) :
    ∃ entries, (afterOpening a.config a.flow a.inputs (0, a.token)).Alone reply entries result ∧
      result.records.Perm (entries.filterMap Entry.record?) ∧
      result.handledErrors.Perm (entries.filterMap Entry.handled?) := by
  obtain ⟨n, earlier, during, ending, outputs, v, m, later, hended, hlog, hlives⟩ := ha.lives hend
  obtain ⟨hmain, hbranches, hsubmissions, -, hruns⟩ := opened_fresh ha.uncancelled
  have hreaches := @System.reaches_course a.config n a.opened
  have hquiet := (ha.serene.course hlives.session n).2
  obtain ⟨entries, hunwound⟩ := hreaches.unwound hquiet fun hm =>
    System.not_restarted_course n a.opened .main ⟨rfl, hm⟩
  have hrest := hunwound.rest (t := .main) (congrArg some hmain) (congrArg some hended)
  have hperm := hunwound.perm (Nat.le_of_eq (System.submissions_of_course n a.opened))
  have hcrew : a.opened.outline.crew = [.main] := by
    simp [Outline.crew, System.outline, Machine.outline, hbranches, hsubmissions]
  rw [hcrew, List.flatMap_singleton] at hperm
  have hone : (a.opened.course n).2.outline.runs.length = 1 := by
    rw [hreaches.runs_of_undisturbed hquiet]
    simpa [System.outline, Machine.outline] using hruns
  have hsession := hlives.session.reaches hreaches
  have hwritten : written (a.opened.course n).1 = entriesOf 0 during := by
    rw [hsession.written_eq hone, hlog, entriesOf_append]
    have hlater : entriesOf 0 (.poll ⟨.main, .closeRun 0 ending outputs, some result, v.machine, m⟩ ::
        later) = [] := by
      rw [hlog, ← List.append_assoc] at hsession
      rw [List.eq_nil_iff_forall_not_mem]
      intro entry hentry
      obtain ⟨t, m₁, m₂, hm⟩ := mem_entriesOf.mp hentry
      rcases List.mem_cons.mp hm with hcloses | hafter
      · cases hcloses
      · exact hsession.over.silent hafter rfl
    rw [hlater, List.append_nil]
  rw [hwritten] at hperm
  refine ⟨entries .main, hrest.of_fresh, ?_, ?_⟩
  · rw [hlives.result_eq]
    simp only [Journal.result, Journal.finish_records, Journal.write_records]
    exact hperm.symm.filterMap _
  · rw [hlives.result_eq]
    simp only [Journal.result, Journal.finish_handled, Journal.write_handled]
    exact hperm.symm.filterMap _

theorem serene_course (ha : a.Quiet reply) (n : Nat) :
    ∃ log, Session a.config log (a.opened.course n).2 ∧
      (a.opened.course n).2.Serene (fun _ => Effect.Undisturbed reply) reply := by
  have hopened : Session a.config _ a.opened := a.session 2 ha.snapshots
  exact ⟨_, hopened.reaches (System.reaches_course n a.opened), (ha.serene.course hopened n).1⟩

end Quiet

/-- Each step of the run that fans out gets an envelope for what each of its branches comes to
alone, on its own fork of the scope. -/
def Isolates (reply : Request → Outcome) (a : Solo) : Prop :=
  ∀ (n k : Nat) (t : TaskId) (ctx : Context) (id : String) (action : Action) (scope : Scope)
    (policy : JoinPolicy) (branches : Context → List Branch)
    (rest : Except Failure Reached × Scope → Program t.Result) (r : Except Failure Reached)
    (final : Scope), (a.start.course n).2.At t (((action.run id ctx).on scope).bind rest) →
      action.FansOut scope policy branches →
      ((action.run id ctx).on scope).Yields (deedsOf t ((a.start.course n).2.course k).1) (r, final) →
      ∃ group results, r = .ok (.value (.arr (results.map resultEnvelope))) ∧
        List.Forall₂ (Branch.ComesTo reply) (branches { ctx with token := group }) results

theorem Quiet.isolates (ha : a.Quiet reply) : a.Isolates reply := by
  intro n k t ctx id action scope policy branches rest r final hat hfan hy
  match n with
  | 0 | 1 =>
      obtain ⟨config, world, flow, inputs, cancelAfter⟩ := a
      cases ha.uncancelled
      rw [hfan.run_on] at hat
      obtain ⟨w, hw⟩ := hat
      cases t <;> cases hw
  | n + 2 =>
      rw [Nat.add_comm, System.course_add] at hat hy
      obtain ⟨log, hsession, hserene⟩ := ha.serene_course n
      have hsteady := hserene.steady hat.choose_spec
      exact System.Reaches.envelopes_alone hat hsteady hfan
        (@System.reaches_course a.config k _) (hserene.course hsession k).2
        (fun hm => System.not_restarted_course k _ .main ⟨rfl, hm⟩) hy

/-- Two undisturbed runs of a flow write the same and come to the same result, in another order. -/
theorem Quiet.agrees (ha : a.Quiet reply) (ha' : a'.Quiet reply) (hflow : a'.flow = a.flow)
    (hinputs : a'.inputs = a.inputs)
    (hend : (a.start.course fuel).2.main = .ended result order)
    (hend' : (a'.start.course fuel').2.main = .ended result' order') :
    result.status = result'.status ∧ result.outputs = result'.outputs ∧ result.error = result'.error ∧
      result.records.Perm result'.records := by
  obtain ⟨entries, halone, hrecords, hhandled⟩ := ha.alone hend
  obtain ⟨entries', halone', hrecords', hhandled'⟩ := ha'.alone hend'
  rw [hflow, hinputs] at halone'
  obtain ⟨rfl, hagrees⟩ := (afterOpening_twin (.of_undisturbed reply)
    (ha.timeless.alike (.of_undisturbed reply)) ha.runTimeout ha'.runTimeout ha.stepTimeout
    ha'.stepTimeout a.inputs _ _).unique (.of_undisturbed reply) (halone.course .owner)
      (halone'.course .owner)
  have hempty := (hhandled.trans hhandled'.symm).isEmpty_eq
  exact ⟨hagrees.status hempty, hagrees.outputs, hagrees.error, hrecords.trans hrecords'.symm⟩

end Solo

def Solo.varied (first second : Nat) (permits : UInt64) : Solo :=
  { Solo.forked with
    config := { maxConcurrency := permits }
    world := quietWorld [("slow", .delayed first (.value (.str "late"))),
      ("broken", .delayed second (.failure .stepExecution "no"))] }

def Solo.variedReply : Request → Outcome
  | .call .tool target inputs =>
    if target = "slow" then .ok (.str "late")
    else if target = "broken" then .failure "no"
    else .ok (.object [("target", .str target), ("inputs", inputs)])
  | .call _ target inputs => .ok (.object [("target", .str target), ("inputs", inputs)])
  | .record request => ((Store.empty []).perform request).1

theorem Solo.varied_quiet (first second : Nat) (permits : UInt64) :
    (varied first second permits).Quiet variedReply where
  timeless := by
    change Solo.forked.flow.Timeless
    decide +kernel
  runTimeout := rfl
  stepTimeout := rfl
  uncancelled := rfl
  replies := by
    constructor
    · intro route target inputs number
      cases route with
      | tool =>
          by_cases hslow : target = "slow"
          · subst hslow
            rfl
          · by_cases hbroken : target = "broken"
            · subst hbroken
              rfl
            · have hslow' : (target == "slow") = false := beq_eq_false_iff_ne.mpr hslow
              have hbroken' : (target == "broken") = false := beq_eq_false_iff_ne.mpr hbroken
              simp [varied, quietWorld, Machine.collaborator, Collaborator.reply, Collaborator.new,
                variedReply, List.lookup_cons, hslow, hbroken, hslow', hbroken', Reply.outcome]
      | _ => rfl
    · intro record filter made
      rfl
  snapshots := rfl

end FlowEngine
