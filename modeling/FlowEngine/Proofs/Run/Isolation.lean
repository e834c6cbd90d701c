import FlowEngine.Proofs.Run.Progress
import FlowEngine.Proofs.Run.Sharing
import FlowEngine.Proofs.Run.Termination
import FlowEngine.Proofs.Run.Undisturbed

/-!
# Submitted runs are isolated

When a shared session is left to itself, all jobs that were submitted end: a run that is open is never
stuck, and whoever waits for a slot gets one. Each of them has come to what the flow comes to alone,
because it is on the same course.
-/
namespace FlowEngine

open Execution

theorem Config.slots_pos {config : Config} (h : config.validate = .ok ()) :
    0 < config.maxConcurrentRuns.toNat := by
  refine Nat.pos_of_ne_zero fun hzero => ?_
  have hnone : config.maxConcurrentRuns = 0 := UInt64.toNat_inj.mp hzero
  simp only [validate, hnone, if_true] at h
  split at h <;> cases h

/-- A course of a submitted run is one of the run that it does when it has its slot. -/
theorem Program.Course.of_submitted {U : Role → Answers} {role : Role} {config : Config} {flow : Flow}
    {inputs : List (String × Json)} {token : Token} {entries : List Entry} {r : RunResult}
    (h : (submitted config flow inputs token).Course U role entries r) :
    (Execution.run config flow inputs token).Course U role entries r := by
  rw [submitted_eq] at h
  cases h with
  | deed _ rest =>
      obtain ⟨first, a, later, rfl, hfirst, hlater⟩ := rest.of_bind
      cases hlater with
      | deed _ hend =>
          cases hend
          simpa [Effect.entries] using hfirst

namespace Session

variable {config : Config} {world : World} {reply : Request → Outcome} {script : StoreScript}
  {jobs : List Job} {log : List Occurrence} {s s' : System RunResult} {p : Program RunResult}
  {stage : TaskId → Stage} {trail : (t : TaskId) → Trail t} {t : TaskId} {e : Effect}
  {next : e.Answer → Program t.Result} {w : Wait}

namespace Shares

variable (h : Shares config reply script p jobs log s stage trail) (hvalid : config.validate = .ok ())
  (hrest : s.step? = none)
include h hrest

omit h in
theorem asleep (t : TaskId) : ¬ s.machine.Awake t := by
  intro hawake
  have hsome := System.isSome_step? (Or.inl ⟨t, hawake⟩)
  rw [hrest] at hsome
  cases hsome

include hvalid

theorem not_inside (ht : s.task? t = some (.active (.perform e next) w)) (hrole : t.role = .owner)
    {run : Nat} {held : Option String} : stage t ≠ .inside run held := by
  intro hstage
  have ht' := (System.task?_outline t).trans ht
  have hpermits := (h.tranquil.staged.obeys hrole ht').1
  rw [hstage] at hpermits
  obtain ⟨place, hhoused⟩ := Residence.housed_of_session h.tranquil.session
  have hallows := (hhoused.obedient.active ht').1
  obtain ⟨home, hhome⟩ : ∃ home, (place t).home? = some home := by
    cases hplace : place t with
    | inside home | drained home => exact ⟨home, rfl⟩
    | outside | closed =>
        rw [hplace] at hallows
        cases e <;> first | exact hallows.elim | exact hpermits.elim
  have hrun : home.run < s.machine.runs.size := by
    simpa [System.outline, Machine.outline] using hhoused.holds.opened hhome
  have hopen : home.run ∉ closings log := fun hclosed =>
    (hhoused.closed _ hclosed).2 ⟨t, _, _, home, ht', hhome, rfl⟩
  obtain ⟨u, q, v, -, -, -, hsome⟩ := run_never_stuck h.tranquil.session hvalid hrun hopen
  rw [hrest] at hsome
  cases hsome

/-- When the machine rests, whoever goes on waits for a slot or for another run. -/
theorem queued_or_awaiting {q : Program t.Result} (ht : s.task? t = some (.active q w))
    (hrole : t.role = .owner) : stage t = .awaiting ∨
      stage t = .queued ∧ (w = .fresh ∨ w = .slot) := by
  have hobeys := h.tranquil.staged.obeys hrole ((System.task?_outline t).trans ht)
  rcases h.tranquil.session.suited t q w ht with
    ⟨hfresh, hawake | ⟨next, rfl⟩⟩ | ⟨e, next, rfl, hsuits⟩
  · exact absurd hawake (asleep hrest t)
  · exact Or.inr ⟨Stage.queued_of_acquires hobeys.1, Or.inl hfresh⟩
  · have hallows := hobeys.1
    cases hstage : stage t with
    | queued =>
        rw [hstage] at hallows
        obtain rfl := Stage.acquires_of_queued hallows
        exact Or.inr ⟨rfl, Or.inr hsuits⟩
    | inside run held => exact absurd hstage (h.not_inside hvalid hrest ht hrole)
    | awaiting => exact Or.inl rfl
    | _ =>
        rw [hstage] at hallows
        cases e <;> first | exact hallows.elim | exact hsuits.elim

theorem not_calling (t : TaskId) : s.slotStandings stage t ≠ some .calling := by
  intro hcalling
  cases t with
  | submission n =>
      obtain ⟨state, hs, hstanding⟩ := Option.bind_eq_some_iff.mp hcalling
      cases state with
      | ended r k =>
          have hdone : stage (.submission n) = .done r :=
            h.tranquil.staged.ends rfl ((System.task?_outline _).trans hs)
          rw [hdone] at hstanding
          cases hstanding
      | active q w =>
          rcases h.queued_or_awaiting hvalid hrest hs rfl with hstage | ⟨hstage, hw⟩
          · rw [hstage] at hstanding
            cases hstanding
          · rw [hstage] at hstanding
            rcases hw with hw | hw <;> rw [TaskState.wait, hw] at hstanding <;> cases hstanding
  | _ => cases hcalling

theorem not_queued (t : TaskId) : s.slotStandings stage t ≠ some .queued := by
  intro hqueued
  have hbooks := h.rationed.rations.books
  have hgranted : s.machine.slots.granted = [] :=
    List.eq_nil_iff_forall_not_mem.mpr fun u hu =>
      asleep hrest u (h.rationed.rations.granted hu)
  have hline := hbooks.queued.mpr hqueued
  rw [hgranted, List.append_nil] at hline
  have hfree := hbooks.full (List.ne_nil_of_mem hline)
  obtain ⟨calls, -, hcalls, hsum⟩ := hbooks.held
  have hempty : calls = [] := List.eq_nil_iff_forall_not_mem.mpr fun u hu =>
    h.not_calling hvalid hrest u ((hcalls u).mp hu)
  rw [hempty, hgranted, hfree, h.rationed.size] at hsum
  exact Nat.ne_of_lt (Config.slots_pos hvalid) hsum

theorem submission_ended {n : Nat} (hn : n < jobs.length) :
    ∃ r k, s.task? (.submission n) = some (.ended r k) := by
  rw [← h.submissions] at hn
  have hstate : s.outline.task? (.submission n) = some s.outline.submissions[n] :=
    List.getElem?_eq_getElem hn
  rw [System.task?_outline] at hstate
  cases hs : s.outline.submissions[n] with
  | ended r k => exact ⟨r, k, hs ▸ hstate⟩
  | active q w =>
      rw [hs] at hstate
      have hruns := h.rationed.runs (Option.isSome_of_eq_some hstate)
      rcases h.queued_or_awaiting hvalid hrest hstate rfl with hstage | ⟨hstage, rfl | rfl⟩
      · rw [hstage] at hruns
        exact hruns.elim
      · exact absurd (h.rationed.eager hstage hstate) (asleep hrest _)
      · refine absurd ?_ (h.not_queued hvalid hrest (.submission n))
        rw [System.Rationed.slotStandings_of_active hstate, hstage]
        rfl

theorem main_ended (hruns : (stage .main).Runs) : ∃ r k, s.main = .ended r k := by
  cases hs : s.main with
  | ended r k => exact ⟨r, k, rfl⟩
  | active q w =>
      rcases h.queued_or_awaiting (t := .main) hvalid hrest (congrArg some hs) rfl with
        hstage | ⟨hstage, -⟩
      · rw [hstage] at hruns
        exact hruns.elim
      · exact absurd hstage h.rationed.main

end Shares

/-! ## What runs come to -/

def CameTo (config : Config) (reply : Request → Outcome) (script : StoreScript) (job : Job)
    (result : RunResult) : Prop :=
  ∃ token entries, (Execution.run config job.flow job.inputs token).Course
    (Effect.Expected reply script) .owner entries result ∧
      entries.filterMap Entry.handled? = result.handledErrors

theorem CameTo.agrees {job : Job} {r r' : RunResult} (h : CameTo config reply script job r)
    (h' : CameTo config reply script job r') (hjob : job.flow.Isolable)
    (hrunTimeout : config.runTimeout = none) (hstepTimeout : config.stepTimeout = none) :
    r.status = r'.status ∧ r.outputs = r'.outputs ∧ r.error = r'.error := by
  obtain ⟨token, entries, hcourse, hhandled⟩ := h
  obtain ⟨token', entries', hcourse', hhandled'⟩ := h'
  obtain ⟨rfl, hagrees⟩ := (run_twin hjob hrunTimeout hstepTimeout job.inputs token token').unique
    (.of_expected reply script) hcourse hcourse'
  exact ⟨hagrees.status (congrArg List.isEmpty (hhandled.symm.trans hhandled')), hagrees.outputs,
    hagrees.error⟩

theorem Shares.cameTo (h : Shares config reply script p jobs log s stage trail) {n : Nat} {job : Job}
    (hjob : jobs[n]? = some job) {r : RunResult} {k : Nat}
    (hended : s.task? (.submission n) = some (.ended r k)) : CameTo config reply script job r := by
  have ht := (System.task?_outline _).trans hended
  have hcourse := h.tranquil.traced.leads ht
  obtain ⟨-, token, horigin⟩ := h.origin hjob
  have hdone : stage (.submission n) = .done r := h.tranquil.staged.ends rfl ht
  have hhandled : (trail (.submission n)).handled = r.handledErrors :=
    h.tranquil.staged.handled (by rw [hdone]; rfl)
  refine ⟨token, (trail (.submission n)).entries, Program.Course.of_submitted ?_, hhandled⟩
  exact horigin ▸ hcourse

theorem Shares.main_cameTo {job : Job} {token : Token}
    (h : Shares config reply script (Execution.run config job.flow job.inputs token) jobs log s stage trail)
    (hruns : (stage .main).Runs) {r : RunResult} {k : Nat} (hended : s.main = .ended r k) :
    CameTo config reply script job r := by
  have ht : s.outline.task? .main = some (.ended r k) := congrArg some hended
  have hcourse := h.tranquil.traced.leads ht
  have hclosed : stage .main = .closed r := by
    rcases h.tranquil.staged.ends (t := .main) rfl ht with hclosed | htold
    · exact hclosed
    · rw [htold] at hruns
      exact hruns.elim
  have hhandled : (trail .main).handled = r.handledErrors :=
    h.tranquil.staged.handled (by rw [hclosed]; rfl)
  exact ⟨token, (trail .main).entries, h.errand ▸ hcourse, hhandled⟩

end Session

/-! ## Runs alone -/

namespace Solo

variable {a : Solo} {reply : Request → Outcome}

theorem shares (hflow : a.flow.Isolable) (hrunTimeout : a.config.runTimeout = none)
    (hstepTimeout : a.config.stepTimeout = none) (hreplies : a.world.Replies reply)
    (hsnapshots : a.world.store.store.snapshots = []) (hcancel : a.cancelAfter = none) :
    ∃ stage trail, Session.Shares a.config reply a.world.store.script
      (Execution.run a.config a.flow a.inputs (Machine.new a.config a.world).newToken.1) [] [.errand]
      a.start stage trail ∧ stage .main = .admitted := by
  obtain ⟨stage, trail, hidle⟩ :=
    (Session.shares_new a.config hreplies hsnapshots).newToken ⟨⟨_, _, rfl⟩, rfl⟩
  have hstart := hidle.run hrunTimeout hstepTimeout ⟨⟨_, _, rfl⟩, rfl⟩ ⟨a.flow, a.inputs⟩ hflow
    (Machine.new a.config a.world).newToken.1
  obtain ⟨config, world, flow, inputs, cancelAfter⟩ := a
  cases hcancel
  exact hstart

theorem ends {config : Config} {world : World} (setting : Setting config world reply) {job : Job}
    (hjob : job.flow.Isolable) : ∃ fuel r k,
      ((Solo.mk config world job.flow job.inputs none).start.course fuel).2.main = .ended r k ∧
        Session.CameTo config reply world.store.script job r := by
  obtain ⟨stage, trail, h, hmain⟩ := shares (a := ⟨config, world, job.flow, job.inputs, none⟩) hjob
    setting.runTimeout setting.stepTimeout setting.replies setting.snapshots rfl
  obtain ⟨fuel, hrest⟩ := h.tranquil.session.comes_to_rest
  obtain ⟨stage', trail', h', hruns⟩ := h.course fuel
  have hruns' := hruns (by rw [hmain]; trivial)
  obtain ⟨r, k, hended⟩ := h'.main_ended setting.valid hrest hruns'
  exact ⟨fuel, r, k, hended, h'.main_cameTo hruns' hended⟩

end Solo

theorem TaskState.eq_ended {α : Type} {state : TaskState α} {r : α} {k : Nat}
    (h : state.result? = some (r, k)) : state = .ended r k := by
  cases state with
  | active p w => cases h
  | ended r' k' =>
      cases h
      rfl

namespace Session

def pair : List Job :=
  [{ flow :=
      { name := "safe"
        description := none
        steps := [.mk "block" (.transaction [Solo.calls "ship" "slow"] none) none none]
        onError := none } },
    { flow := Solo.forked.flow }]

def pairSubmitted : System RunResult :=
  pair.foldl (submitNext { maxConcurrentRuns := 1 })
    ⟨.new { maxConcurrentRuns := 1 } (Solo.varied 20 10 8).world, .ended default 0⟩

def rivals : Flow :=
  { name := "rivals"
    description := none
    steps := [.mk "fork" (.parallel
      [([.mk "left" (.transaction [Solo.calls "ship" "slow"] none) none none], none),
        ([.mk "right" (.transaction [Solo.calls "pay" "slow"] none) none none], none)]
      .waitAll) none none]
    onError := none }

def rivalsSubmitted : System RunResult :=
  [⟨rivals, []⟩, ⟨rivals, []⟩].foldl (submitNext {})
    ⟨.new {} (Solo.varied 20 10 8).world, .ended default 0⟩

def secondMessage? (r : RunResult) (id : String) : Option String := do
  (← (← (← (← (← r.output? id).asItems?)[1]?).field? "error").field? "message").asText?

end Session

end FlowEngine
