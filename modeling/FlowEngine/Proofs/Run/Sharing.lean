import FlowEngine.Proofs.Execution.Isolable
import FlowEngine.Proofs.Machine.Calm
import FlowEngine.Proofs.Run.Slots
import FlowEngine.Proofs.Run.Staging
import FlowEngine.Proofs.Run.Wakefulness
import FlowEngine.Proofs.Session.Course
import FlowEngine.Proofs.Transaction.Fate

/-!
# Sessions that are shared

In a shared session isolable flows are submitted, run and waited for in any order, at any time at
which the main task has nothing to do, and nobody cancels anything. Each task is answered as it would
be answered alone: its transactions begin while its run has no snapshot open, and give back snapshots
that were taken of the same rows. So the session stays serene, and each task is on a course of what
it began with.
-/
namespace FlowEngine

open Execution

/-- A flow that is to be run, with its inputs. -/
structure Job where
  flow : Flow
  inputs : List (String × Json) := []

namespace Session

variable {config : Config} {world : World} {jobs : List Job} {log : List Occurrence}
  {s s' : System RunResult}

/-- The systems that come about when isolable flows share a machine, with the jobs that were
submitted and what happened so far. -/
inductive Shared (config : Config) (world : World) :
    List Job → List Occurrence → System RunResult → Prop where
  | new : Shared config world [] [] ⟨.new config world, .ended default 0⟩
  | step {jobs : List Job} {log : List Occurrence} {s s' : System RunResult}
      (before : Shared config world jobs log s) (step : s.step? = some s') :
      Shared config world jobs (log ++ s.occurrences) s'
  | newToken {jobs : List Job} {log : List Occurrence} {s : System RunResult}
      (before : Shared config world jobs log s) (idle : s.Idle) :
      Shared config world jobs log { s with machine := s.machine.newToken.2 }
  | submit {jobs : List Job} {log : List Occurrence} {s : System RunResult}
      (before : Shared config world jobs log s) (idle : s.Idle) (job : Job) (token : Token)
      (isolable : job.flow.Isolable) : Shared config world (jobs ++ [job]) log
        { s with machine := (s.machine.submit (submitted config job.flow job.inputs token)).2 }
  | run {jobs : List Job} {log : List Occurrence} {s : System RunResult}
      (before : Shared config world jobs log s) (idle : s.Idle) (job : Job) (token : Token)
      (isolable : job.flow.Isolable) : Shared config world jobs (log ++ [.errand])
        (.start s.machine (Execution.run config job.flow job.inputs token))
  | await {jobs : List Job} {log : List Occurrence} {s : System RunResult}
      (before : Shared config world jobs log s) (idle : s.Idle) (submission : Nat) :
      Shared config world jobs (log ++ [.errand])
        (.start s.machine (Program.ask (.awaitRun submission)))

theorem Shared.session (h : Shared config world jobs log s)
    (hworld : world.store.store.snapshots = []) : Session config log s := by
  induction h with
  | new => exact ⟨_, .new world (.of_no_snapshots hworld), .refl⟩
  | step _ step ih => exact ih.reaches (.single (.step step))
  | newToken _ idle ih => simpa using ih.reaches (.single (.newToken idle))
  | submit _ idle job token _ ih =>
      simpa using ih.reaches (.single (.submit idle job.flow job.inputs token))
  | run _ idle job token _ ih => exact ih.reaches (.single (.start idle (.run job.flow job.inputs token)))
  | await _ idle submission ih => exact ih.reaches (.single (.start idle (.await submission)))

/-- A shared session stays one while it is left to itself. -/
theorem Shared.course (h : Shared config world jobs log s) (n : Nat) :
    Shared config world jobs (log ++ (s.course n).1) (s.course n).2 := by
  induction n generalizing log s with
  | zero => rwa [System.course, List.append_nil]
  | succ n ih =>
      rw [System.course]
      cases hs : s.step? with
      | none => rwa [List.append_nil]
      | some s' =>
          rw [← List.append_assoc]
          exact ih (.step h hs)

def submitNext (config : Config) (s : System RunResult) (job : Job) : System RunResult :=
  { s with machine := (s.machine.newToken.2.submit
      (submitted config job.flow job.inputs s.machine.newToken.1)).2 }

theorem Shared.submitNext (h : Shared config world jobs log s) (idle : s.Idle) {job : Job}
    (hjob : job.flow.Isolable) : Shared config world (jobs ++ [job]) log (submitNext config s job) :=
  .submit (.newToken h idle) idle job s.machine.newToken.1 hjob

theorem idle_submitNext (idle : s.Idle) (job : Job) : (submitNext config s job).Idle := by
  refine ⟨idle.1, Eq.trans ?_ idle.2⟩
  simp only [submitNext, Machine.submit, Machine.wake]
  split <;> rfl

theorem Shared.submitAll (h : Shared config world jobs log s) (idle : s.Idle) {more : List Job}
    (hmore : ∀ job ∈ more, job.flow.Isolable) :
    Shared config world (jobs ++ more) log (more.foldl (Session.submitNext config) s) := by
  induction more generalizing jobs s with
  | nil => rwa [List.append_nil]
  | cons job more ih =>
      rw [List.append_cons]
      exact ih (h.submitNext idle (hmore job (List.mem_cons_self ..))) (idle_submitNext idle job)
        fun other hother => hmore other (List.mem_cons_of_mem _ hother)

end Session

/-- A setting without deadlines, in which collaborators answer by what they are asked and no snapshot
is open. -/
structure Setting (config : Config) (world : World) (reply : Request → Outcome) : Prop where
  valid : config.validate = .ok ()
  runTimeout : config.runTimeout = none
  stepTimeout : config.stepTimeout = none
  replies : world.Replies reply
  snapshots : world.store.store.snapshots = []

end FlowEngine

namespace FlowEngine

open Execution

/-- A branch of a fan-out leaves slots alone and handles no failures. -/
theorem Effect.Expected.modest {reply : Request → Outcome} {script : StoreScript} {e : Effect}
    {a : e.Answer} (h : Effect.Expected reply script .branch e a) : e.Modest := by
  cases e with
  | note run entry =>
      cases entry with
      | handled f => exact h.elim
      | _ => trivial
  | beginTransaction ctx => exact h.elim
  | releaseTransaction run handle => exact h.elim
  | _ => trivial

theorem Effect.Expected.reads {reply : Request → Outcome} {script : StoreScript} {role : Role} {run : Nat}
    {token : Token} {request : Request} {a : Except Interruption Outcome}
    (h : Effect.Expected reply script role (.request run token request) a) : request.Reads := by
  cases role <;> exact h.1

theorem Effect.Modest.unhandled {e : Effect} (h : e.Modest) (f : Failure) : .handled f ∉ e.entries := by
  cases e with
  | note run entry =>
      cases entry with
      | handled f => exact h.elim
      | _ => simp [entries]
  | _ => simp [entries]

/-- A poll that writes no records keeps what transactions restore equal to what the store holds. -/
theorem Outline.Polls.unwritten {o o₁ : Outline} {e : Effect} {w : Wait} {turn : Turn e.Answer}
    (polls : o.Polls w o₁ e turn) (h : o.store.store.Unwritten)
    (hreads : ∀ run token request, e = .request run token request → request.Reads) :
    o₁.store.script = o.store.script ∧ o₁.store.store.Unwritten := by
  cases polls.stored with
  | same hs =>
      rw [hs]
      exact ⟨rfl, h⟩
  | @performed run token operation hs =>
      have hop : operation.op = .query := hreads _ _ _ rfl
      rw [hs]
      cases operation with
      | query record filter =>
          have hsame := World.Replies.store_of_query o.store record filter []
          obtain ⟨hstore, hscript, -⟩ := ScriptedStore.mk.inj hsame
          rw [hstore]
          exact ⟨hscript, h⟩
      | _ => cases hop
  | taken hs =>
      obtain ⟨-, hs⟩ := ScriptedStore.snapshot_eq_ok hs
      rw [hs]
      exact ⟨rfl, h.snapshot⟩
  | discarded hs =>
      obtain ⟨-, hs⟩ := ScriptedStore.discard_eq_ok hs
      rw [hs]
      exact ⟨rfl, h.erase rfl rfl⟩
  | restored hs =>
      obtain ⟨saved, hsaved, hs⟩ := ScriptedStore.restore_eq_ok hs
      rw [hs]
      exact ⟨rfl, h.erase rfl (h _ _ hsaved)⟩

theorem Outline.Advances.unwritten {o o' : Outline} {config : Config} {log : List Occurrence}
    (adv : o.Advances config log o') (h : o.store.store.Unwritten)
    (hreads : ∀ {t : TaskId} {run : Nat} {token : Token} {request : Request}
      {next : Except Interruption Outcome → Program t.Result} {w : Wait},
      o.task? t = some (.active (.perform (.request run token request) next) w) → request.Reads) :
    o'.store.script = o.store.script ∧ o'.store.store.Unwritten := by
  cases adv with
  | finish running active order =>
      rw [setTask_store]
      exact ⟨rfl, h⟩
  | answer running active start polls =>
      rw [setTask_store]
      refine polls.unwritten h ?_
      rintro run token request rfl
      exact hreads active
  | wait running active start polls =>
      rw [setTask_store]
      refine polls.unwritten h ?_
      rintro run token request rfl
      exact hreads active
  | _ => exact ⟨rfl, h⟩

theorem System.Serene.of_still {U : Role → Answers} {reply : Request → Outcome}
    {s s' : System RunResult} (hs : s.Serene U reply) (hstill : s'.machine.still = s.machine.still)
    (htasks : ∀ v, s'.task? v = s.task? v) : s'.Serene U reply :=
  ⟨hs.calm.of_still hstill, fun {v _ _} hv => hs.steady ((htasks v).symm.trans hv),
    fun {v _ _ _} hv => hs.awaits ((htasks v).symm.trans hv)⟩

/-- A serene system stays serene when a steady task begins. -/
theorem System.Serene.begins {U : Role → Answers} {reply : Request → Outcome} {s s' : System RunResult}
    {t : TaskId} {p : Program t.Result} (hs : s.Serene U reply)
    (hstill : s'.machine.still = s.machine.still) (hnew : s'.task? t = some (.active p .fresh))
    (hothers : ∀ v, v ≠ t → s'.task? v = s.task? v) (hp : p.Steady U t.role) :
    s'.Serene U reply := by
  refine ⟨hs.calm.of_still hstill, fun {v q w} hv => ?_, fun {v e next w} hv => ?_⟩
  · by_cases hvt : v = t
    · subst hvt
      cases hv.symm.trans hnew
      exact hp
    · exact hs.steady ((hothers v hvt).symm.trans hv)
  · by_cases hvt : v = t
    · subst hvt
      cases hv.symm.trans hnew
      exact e.awaits_fresh reply
    · exact hs.awaits ((hothers v hvt).symm.trans hv)

namespace Session

variable {config : Config} {world : World} {reply : Request → Outcome} {script : StoreScript}
  {log more : List Occurrence} {s s' : System RunResult} {stage stage' : TaskId → Stage}
  {trail trail' : (t : TaskId) → Trail t} {t : TaskId} {e : Effect}
  {next : e.Answer → Program t.Result} {w : Wait}

structure Tranquil (config : Config) (reply : Request → Outcome) (script : StoreScript)
    (log : List Occurrence) (s : System RunResult) (stage : TaskId → Stage)
    (trail : (t : TaskId) → Trail t) : Prop where
  session : Session config log s
  serene : s.Serene (Effect.Expected reply script) reply
  staged : s.outline.Staged stage trail
  traced : s.outline.Traced (Effect.Expected reply script) trail
  script : s.machine.world.store.script = script
  unwritten : s.machine.world.store.store.Unwritten

namespace Tranquil

variable (h : Tranquil config reply script log s stage trail)
include h

/-- A branch has no transactions, and handles no failures for its run. -/
theorem modest (ht : s.task? t = some (.active (.perform e next) w)) (hrole : t.role = .branch) :
    e.Modest := by
  rcases (h.serene.steady ht).quiet with ⟨a, ha⟩ | ⟨run, group, bs, rfl⟩
  · rw [hrole] at ha
    exact ha.modest
  · trivial

theorem reads {run : Nat} {token : Token} {request : Request}
    {next : Except Interruption Outcome → Program t.Result}
    (ht : s.task? t = some (.active (.perform (.request run token request) next) w)) :
    request.Reads := by
  rcases (h.serene.steady ht).quiet with ⟨a, ha⟩ | ⟨run, group, bs, hjoin⟩
  · exact ha.reads
  · cases hjoin

/-- What a transaction restores is what the store holds. -/
theorem saved (ht : s.task? t = some (.active (.perform e next) w)) {handle : String}
    (he : e = .discardSnapshot handle ∨ e = .restoreSnapshot handle) :
    s.machine.world.store.store.saved? handle = some s.machine.world.store.store.collections := by
  obtain ⟨place, hkept⟩ := Custody.kept_of_session h.session default
  have hallows := (hkept.obedient.active ((System.task?_outline t).trans ht)).1.2
  have hfine := hkept.holds.fine t
  have hreleased : ∃ b lost, (place t).2 = .released b lost ∧ handle = b.handle := by
    cases hplace : (place t).2 with
    | free =>
        rw [hplace] at hallows
        rcases he with rfl | rfl <;> exact hallows.elim
    | holding b lost =>
        rw [hplace] at hallows
        rcases he with rfl | rfl <;> exact hallows.elim
    | released b lost =>
        rw [hplace] at hallows
        rcases he with rfl | rfl
        · exact ⟨b, lost, rfl, hallows.1⟩
        · exact ⟨b, lost, rfl, hallows⟩
  obtain ⟨b, lost, hplace, rfl⟩ := hreleased
  have hsaved : s.machine.world.store.store.saved? b.handle = some b.saved :=
    hfine.saved (congrArg Custody.block? hplace)
  rw [hsaved, h.unwritten _ _ hsaved]

theorem expected (polls : s.Polls t e next w s') (move : s.Moves config [.poll ⟨t, e,
      (s.machine.poll t w e).turn.answer?, s.machine, (s.machine.poll t w e).machine⟩] s') :
    (s.machine.poll t w e).Expected reply (Effect.Expected reply script) t.role e := by
  have hcalm := h.serene.calm
  have hundisturbed (hquiet : (∃ a, e.Undisturbed reply a) ∨ ∃ run group bs, e = .join run .waitAll group bs)
      (hbranch : t.role = .branch → e.Modest) :
      (s.machine.poll t w e).Expected reply (Effect.Expected reply script) t.role e := by
    refine (hcalm.poll (h.serene.awaits polls.active) hquiet ?_ ?_).mono fun a ha => ha.imp_left fun ha =>
      (Regular.of_expected reply script).expected ha fun hrole f => (hbranch hrole).unhandled f
    · rintro run token request rfl
      exact h.session.lt_of_active polls.active rfl
    · rintro run ending outputs rfl
      exact h.session.status_of_closes move
  rcases (h.serene.steady polls.active).quiet with ⟨a, ha⟩ | hjoin
  · cases hrole : t.role with
    | branch =>
        rw [← hrole]
        have hmodest := h.modest polls.active hrole
        rw [hrole] at ha
        refine hundisturbed (Or.inl ⟨a, ?_⟩) fun _ => hmodest
        cases e with
        | note run entry => cases entry <;> trivial
        | _ => exact ha
    | owner =>
        have hallows := (h.staged.obeys hrole ((System.task?_outline t).trans polls.active)).1
        rw [hrole] at ha
        cases e with
        | beginTransaction ctx =>
            obtain ⟨held, hstage⟩ := Stage.inside_of_concerns hallows rfl
            rw [hstage] at hallows
            obtain rfl : held = none := hallows.2
            have hslot := (s.machine.slot_outline s.main ctx.run).symm.trans (h.staged.slot hstage).1
            rw [← h.script]
            exact (hcalm.beginTransaction hslot _).mono fun _ => Or.inl
        | releaseTransaction run handle =>
            obtain ⟨held, hstage⟩ := Stage.inside_of_concerns hallows rfl
            rw [hstage] at hallows
            obtain rfl : held = some handle := hallows.2
            have hslot := (s.machine.slot_outline s.main run).symm.trans (h.staged.slot hstage).1
            exact (hcalm.releaseTransaction (congrArg TransactionSlot.held hslot) _).mono fun _ => Or.inl
        | discardSnapshot handle =>
            rw [← h.script]
            refine (hcalm.discardSnapshot ?_ _).mono fun _ => Or.inl
            rw [h.saved polls.active (Or.inl rfl)]
            rfl
        | restoreSnapshot handle =>
            rw [← h.script]
            exact (hcalm.restoreSnapshot (h.saved polls.active (Or.inr rfl)) _).mono fun _ => Or.inl
        | acquireSlot => exact (hcalm.attends (e := .acquireSlot) trivial w).mono fun _ => Or.inl
        | releaseSlot => exact (hcalm.attends (e := .releaseSlot) trivial w).mono fun _ => Or.inl
        | openRun flow parent =>
            exact (hcalm.attends (e := .openRun flow parent) trivial w).mono fun _ => Or.inl
        | awaitRun number =>
            exact (hcalm.attends (e := .awaitRun number) trivial w).mono fun _ => Or.inl
        | _ =>
            rw [← hrole]
            exact hundisturbed (Or.inl ⟨a, ha⟩) fun hbranch => nomatch hrole.symm.trans hbranch
  · exact hundisturbed (Or.inr hjoin) (h.modest polls.active)

/-- A move that keeps the system serene leads all tasks on in their stages. -/
theorem moves (move : s.Moves config more s') (serene : s'.Serene (Effect.Expected reply script) reply)
    (hlog : AsExpected (Effect.Expected reply script) more) (first : TaskId → Stage)
    (hfirst : ∀ {t : TaskId} {p : Program t.Result}, t.role = .owner →
      s.task? t = none ∨ Restarted t more → s'.task? t = some (.active p .fresh) →
        (first t).First ∧ p.Obeys Stage.protocol (Stage.Ends t) (first t)) :
    ∃ stage' trail', Tranquil config reply script (log ++ more) s' stage' trail' ∧
      s.outline.Prolongs more s'.outline trail trail' ∧
      s.outline.Advanced more s'.outline first stage stage' := by
  obtain ⟨trail', htraced, hpro⟩ :=
    h.traced.advances (fun he => he.modest.unhandled) move.advances hlog
  obtain ⟨stage', hstaged, hadv⟩ := h.staged.advances move.advances hpro
    (fun ht => h.modest ((System.task?_outline _).symm.trans ht)) fun {t p} hrole hnew ht =>
      hfirst hrole (by rwa [← System.task?_outline]) ((System.task?_outline t).symm.trans ht)
  obtain ⟨hscript, hunwritten⟩ := move.advances.unwritten h.unwritten fun ht =>
    h.reads ((System.task?_outline _).symm.trans ht)
  exact ⟨stage', trail', ⟨h.session.reaches (.single move), serene, hstaged, htraced,
    hscript.trans h.script, hunwritten⟩, hpro, hadv⟩

/-- In a step no task begins but branches. -/
theorem step (hstep : s.step? = some s') (first : TaskId → Stage) :
    ∃ stage' trail', Tranquil config reply script (log ++ s.occurrences) s' stage' trail' ∧
      s.outline.Prolongs s.occurrences s'.outline trail trail' ∧
      s.outline.Advanced s.occurrences s'.outline first stage stage' := by
  have move : s.Moves config s.occurrences s' := .step hstep
  obtain ⟨serene, hlog⟩ := h.serene.step (.of_expected reply script) hstep fun polls hlog =>
    h.expected polls (hlog ▸ move)
  refine h.moves move serene hlog first fun {t p} hrole hnew ht => ?_
  rcases hnew with hnone | ⟨-, hm⟩
  · cases t with
    | submission n => cases ht.symm.trans (System.submission_of_step hstep hnone)
    | main => cases hnone
    | branch n => cases hrole
  · exact absurd hm s.errand_not_mem_occurrences

theorem begins (move : s.Moves config more s') (hmore : ∀ x, .poll x ∉ more)
    (hstill : s'.machine.still = s.machine.still) {p : Program t.Result} {u : Stage}
    (hrole : t.role = .owner) (hnew : s'.task? t = some (.active p .fresh))
    (hothers : ∀ v, v ≠ t → s'.task? v = s.task? v) (hrestarted : ∀ v, v ≠ t → ¬ Restarted v more)
    (hp : p.Steady (Effect.Expected reply script) .owner) (hu : u.First)
    (hobeys : p.Obeys Stage.protocol (Stage.Ends t) u) (first : TaskId → Stage) (hfirst : first t = u) :
    ∃ stage' trail', Tranquil config reply script (log ++ more) s' stage' trail' ∧
      s.outline.Prolongs more s'.outline trail trail' ∧
      s.outline.Advanced more s'.outline first stage stage' := by
  refine h.moves move (h.serene.begins hstill hnew hothers (hrole ▸ hp))
    (fun v e a before after hm => absurd hm (hmore _)) first fun {v q} _ hbegun hv => ?_
  by_cases hvt : v = t
  · subst hvt
    cases hv.symm.trans hnew
    exact hfirst ▸ ⟨hu, hobeys⟩
  · have hnone := hbegun.resolve_right (hrestarted v hvt)
    rw [hothers v hvt, hnone] at hv
    cases hv

end Tranquil

end Session
end FlowEngine

/-!
## The jobs of a shared session

In a shared session the task of each submission is on a course of the job that was submitted, and the
main task is on one of its last errand. So it is in the session of a flow that is run alone.
-/
namespace FlowEngine

open Execution

namespace System

variable {config : Config} {log : List Occurrence} {s s' : System RunResult}

/-- A move that polls nobody is one without a poll. -/
theorem Moves.unpolled (h : s.Moves config log s') (quiet : ∀ x, .poll x ∉ log) : s.Unpolled log s' := by
  rcases h.polled_or_unpolled with ⟨t, e, next, w, -, hlog⟩ | unpolled
  · exact absurd (hlog ▸ List.mem_singleton_self _) (quiet _)
  · exact unpolled

end System

namespace Session

variable {config : Config} {world : World} {reply : Request → Outcome} {script : StoreScript}
  {jobs : List Job} {log more : List Occurrence} {s s' : System RunResult} {p p' : Program RunResult}
  {stage stage' : TaskId → Stage} {trail trail' : (t : TaskId) → Trail t} {t : TaskId} {e : Effect}
  {next : e.Answer → Program t.Result} {w : Wait} {u : Stage}

structure Shares (config : Config) (reply : Request → Outcome) (script : StoreScript)
    (p : Program RunResult) (jobs : List Job) (log : List Occurrence) (s : System RunResult)
    (stage : TaskId → Stage) (trail : (t : TaskId) → Trail t) : Prop where
  tranquil : Tranquil config reply script log s stage trail
  rationed : s.Rationed config log stage
  errand : (trail .main).origin = p
  submissions : s.outline.submissions.length = jobs.length
  origin {n : Nat} {job : Job} : jobs[n]? = some job → job.flow.Isolable ∧
    ∃ token, (trail (.submission n)).origin = submitted config job.flow job.inputs token

namespace Shares

variable (h : Shares config reply script p jobs log s stage trail)
include h

theorem plain (ht : s.task? t = some (.active (.perform e next) w)) (hne : ∀ n, t ≠ .submission n) :
    e ≠ .acquireSlot ∧ e ≠ .releaseSlot := by
  cases t with
  | submission n => exact absurd rfl (hne n)
  | branch n =>
      rcases (h.tranquil.serene.steady ht).quiet with ⟨a, ha⟩ | ⟨run, group, bs, rfl⟩
      · constructor
        · rintro rfl
          exact ha.elim
        · rintro rfl
          exact ha.elim
      · exact ⟨nofun, nofun⟩
  | main =>
      obtain ⟨hallows, hnext⟩ :=
        h.tranquil.staged.obeys (t := .main) rfl ((System.task?_outline .main).trans ht)
      constructor
      · rintro rfl
        exact h.rationed.main (Stage.queued_of_acquires hallows)
      · rintro rfl
        obtain ⟨r, hclosed⟩ := Stage.closed_of_releases hallows
        have hdone : (next ()).Obeys Stage.protocol (Stage.Ends .main) (.done r) :=
          hnext () _ (by rw [hclosed]; rfl)
        cases hprogram : next () with
        | perform e' next' =>
            rw [hprogram] at hdone
            exact hdone.1
        | pure r' =>
            rw [hprogram] at hdone
            rcases hdone with hends | hends <;> cases hends

theorem suits (polls : s.Polls t e next w s') (w' : Wait)
    (hturn : (s.machine.poll t w e).turn = .waiting w') : e.Suits w' :=
  (Machine.rests_poll (h.tranquil.session.suited.suits polls.active) hturn).suits

/-- What is known about submitted jobs stays known. -/
theorem origin_kept (hpro : s.outline.Prolongs more s'.outline trail trail') {n : Nat} {job : Job}
    (hjob : jobs[n]? = some job) : job.flow.Isolable ∧
      ∃ token, (trail' (.submission n)).origin = submitted config job.flow job.inputs token := by
  obtain ⟨hflow, token, horigin⟩ := h.origin hjob
  have hlt : n < s.outline.submissions.length :=
    h.submissions ▸ (List.getElem?_eq_some_iff.mp hjob).1
  have hkept := (hpro.kept (t := .submission n) (by simpa [Outline.task?] using hlt)
    (by simp [Restarted])).1
  exact ⟨hflow, token, hkept.trans horigin⟩

/-- A step of a shared session. A main task that does a run goes on with it. -/
theorem step (hstep : s.step? = some s') : ∃ stage' trail',
    Shares config reply script p jobs (log ++ s.occurrences) s' stage' trail' ∧
      ((stage .main).Runs → (stage' .main).Runs) := by
  have move : s.Moves config s.occurrences s' := .step hstep
  obtain ⟨stage', trail', htranquil, hpro, hadv⟩ := h.tranquil.step hstep (Stage.first .told)
  have hlength := System.submissions_of_step hstep
  have hmain : ¬ Restarted .main s.occurrences := fun hr => s.errand_not_mem_occurrences hr.2
  refine ⟨stage', trail', ⟨htranquil, ?_, (hpro.kept (t := .main) rfl hmain).1.trans h.errand,
    hlength.trans h.submissions, h.origin_kept hpro⟩, fun hruns => hruns.path (hadv.led rfl hmain)⟩
  rcases move.polled_or_unpolled with ⟨t, e, next, w, polls, hlog⟩ | unpolled
  · rw [hlog] at hadv move ⊢
    exact h.rationed.polled h.tranquil.staged htranquil.staged hadv polls move (h.suits polls)
      (h.plain polls.active)
  · refine h.rationed.passed h.tranquil.staged hadv unpolled nofun move fun n hnone hsome => ?_
    rw [System.submission_of_step hstep hnone] at hsome
    cases hsome

omit h in
theorem course (h : Shares config reply script p jobs log s stage trail) (n : Nat) : ∃ stage' trail',
    Shares config reply script p jobs (log ++ (s.course n).1) (s.course n).2 stage' trail' ∧
      ((stage .main).Runs → (stage' .main).Runs) := by
  induction n generalizing s log stage trail with
  | zero =>
      rw [System.course, List.append_nil]
      exact ⟨stage, trail, h, id⟩
  | succ n ih =>
      cases hstep : s.step? with
      | none =>
          simp only [System.course, hstep, List.append_nil]
          exact ⟨stage, trail, h, id⟩
      | some s' =>
          obtain ⟨stage₁, trail₁, h₁, hruns₁⟩ := h.step hstep
          obtain ⟨stage₂, trail₂, h₂, hruns₂⟩ := ih h₁
          simp only [System.course, hstep]
          rw [← List.append_assoc]
          exact ⟨stage₂, trail₂, h₂, hruns₂ ∘ hruns₁⟩

end Shares

section

variable (h : Shares config reply script p jobs log s stage trail)
include h

theorem Shares.passes (move : s.Moves config more s') (hmore : ∀ x, .poll x ∉ more) (hu : u ≠ .queued)
    (htranquil : Tranquil config reply script (log ++ more) s' stage' trail')
    (hpro : s.outline.Prolongs more s'.outline trail trail')
    (hadv : s.outline.Advanced more s'.outline (Stage.first u) stage stage')
    (herrand : (trail' .main).origin = p')
    (hsubmissions : s'.outline.submissions.length = s.outline.submissions.length) :
    Shares config reply script p' jobs (log ++ more) s' stage' trail' := by
  refine ⟨htranquil, ?_, herrand, hsubmissions.trans h.submissions, h.origin_kept hpro⟩
  refine h.rationed.passed h.tranquil.staged hadv (move.unpolled hmore) hu move fun n hnone hsome => ?_
  rw [← System.task?_outline] at hnone hsome
  obtain ⟨state, hstate⟩ := Option.isSome_iff_exists.mp hsome
  have hlt := (List.getElem?_eq_some_iff.mp hstate).1
  rw [hsubmissions] at hlt
  exact absurd hlt (Nat.not_lt.mpr (List.getElem?_eq_none_iff.mp hnone))

theorem Shares.newToken (idle : s.Idle) : ∃ stage' trail', Shares config reply script p jobs log
    { s with machine := s.machine.newToken.2 } stage' trail' := by
  have move : s.Moves config [] { s with machine := s.machine.newToken.2 } := .newToken idle
  have htasks (v : TaskId) :
      ({ s with machine := s.machine.newToken.2 } : System RunResult).task? v = s.task? v := by
    cases v <;> rfl
  obtain ⟨stage', trail', htranquil, hpro, hadv⟩ := h.tranquil.moves move
    (h.tranquil.serene.of_still rfl htasks) (asExpected_nil _) (Stage.first .told)
    fun {v q} _ hbegun hv => by
      rw [htasks v, hbegun.resolve_right (restarted_nil v)] at hv
      cases hv
  have hmain := (hpro.kept (t := .main) rfl (restarted_nil _)).1.trans h.errand
  refine ⟨stage', trail', ?_⟩
  simpa using h.passes (u := .told) move (by simp) nofun htranquil hpro hadv hmain rfl

theorem Shares.start (idle : s.Idle) (errand : System.Errand config p') (hu : u = .admitted ∨ u = .awaiting)
    (hsteady : p'.Steady (Effect.Expected reply script) .owner)
    (hobeys : p'.Obeys Stage.protocol (Stage.Ends .main) u) : ∃ stage' trail',
      Shares config reply script p' jobs (log ++ [.errand]) (.start s.machine p') stage' trail' ∧
        stage' .main = u := by
  have move : s.Moves config [.errand] (.start s.machine p') := .start idle errand
  have hothers (v : TaskId) (hv : v ≠ .main) : (System.start s.machine p').task? v = s.task? v := by
    cases v with
    | main => exact absurd rfl hv
    | _ => rfl
  have hrestarted : Restarted .main [.errand] := ⟨rfl, List.mem_singleton_self _⟩
  obtain ⟨stage', trail', htranquil, hpro, hadv⟩ := h.tranquil.begins (t := .main) move (by simp) rfl
    rfl rfl hothers (fun v hv hr => hv hr.1) hsteady (Or.inr hu) hobeys (Stage.first u) rfl
  have hmain : trail' .main = .new p' := hpro.begun (t := .main) (Or.inr hrestarted) rfl
  have hne : u ≠ .queued := by
    rintro rfl
    rcases hu with hu | hu <;> cases hu
  exact ⟨stage', trail', h.passes move (by simp) hne htranquil hpro hadv (hmain ▸ rfl) rfl,
    hadv.begun rfl (Or.inr hrestarted) rfl⟩

theorem Shares.await (idle : s.Idle) (submission : Nat) : ∃ stage' trail',
    Shares config reply script (Program.ask (.awaitRun submission)) jobs (log ++ [.errand])
      (.start s.machine (Program.ask (.awaitRun submission))) stage' trail' ∧ stage' .main = .awaiting := by
  refine h.start (u := .awaiting) idle (.await submission) (Or.inr rfl) ⟨fun _ _ => True, ?_⟩ ⟨trivial, ?_⟩
  · have hanswer : ∃ r : RunResult, Effect.Expected reply script .owner (.awaitRun submission) r :=
      ⟨default, trivial⟩
    exact .deed rfl hanswer hanswer fun _ _ _ _ => .pure trivial
  · rintro a v rfl
    exact Or.inr rfl

section

variable (hrunTimeout : config.runTimeout = none) (hstepTimeout : config.stepTimeout = none)
  (idle : s.Idle) (job : Job) (hjob : job.flow.Isolable) (token : Token)
include hrunTimeout hstepTimeout idle hjob

theorem Shares.run : ∃ stage' trail',
    Shares config reply script (Execution.run config job.flow job.inputs token) jobs (log ++ [.errand])
      (.start s.machine (Execution.run config job.flow job.inputs token)) stage' trail' ∧
        stage' .main = .admitted :=
  h.start (u := .admitted) idle (.run job.flow job.inputs token) (Or.inl rfl)
    ⟨_, run_twin hjob hrunTimeout hstepTimeout job.inputs token token⟩
    ((Stage.run_obeys (Flow.unnested_of_valid hjob.valid) config job.inputs token).mono
      fun _ _ => Or.inl)

theorem Shares.submit : ∃ stage' trail', Shares config reply script p (jobs ++ [job]) log
    { s with machine := (s.machine.submit (submitted config job.flow job.inputs token)).2 }
    stage' trail' := by
  have move : s.Moves config [] _ := .submit idle job.flow job.inputs token
  have houtline := s.outline_submit (submitted config job.flow job.inputs token)
  generalize hs' : ({ s with machine := (s.machine.submit (submitted config job.flow job.inputs
    token)).2 } : System RunResult) = s' at move houtline ⊢
  have hnew : s'.task? (.submission s.outline.submissions.length) =
      some (.active (submitted config job.flow job.inputs token) .fresh) := by
    rw [← System.task?_outline, houtline]
    exact s.outline.task?_submit_self _
  have hothers (v : TaskId) (hv : v ≠ .submission s.outline.submissions.length) :
      s'.task? v = s.task? v := by
    rw [← System.task?_outline, houtline, s.outline.task?_submit_of_ne _ hv, System.task?_outline]
  have hstill : s'.machine.still = s.machine.still := hs' ▸ Machine.still_wake _ _
  obtain ⟨stage', trail', htranquil, hpro, hadv⟩ := h.tranquil.begins
    (t := .submission s.outline.submissions.length) (u := .queued) move (by simp) hstill rfl hnew hothers
    (fun v _ => restarted_nil v) ⟨_, submitted_twin hjob hrunTimeout hstepTimeout job.inputs token token⟩
    (Or.inl rfl) (Stage.submitted_obeys (Flow.unnested_of_valid hjob.valid) config job.inputs token)
    (Stage.first .told) rfl
  rw [List.append_nil] at htranquil
  refine ⟨stage', trail', htranquil, ?_, ?_, ?_, fun {n job'} hn => ?_⟩
  · have hawake (n : Nat) (hnone : s.task? (.submission n) = none)
        (hsome : (s'.task? (.submission n)).isSome) : s'.machine.Awake (.submission n) := by
      by_cases hn : n = s.outline.submissions.length
      · have hnumber : s.outline.submissions.length = s.machine.submissions.size := by
          simp [System.outline, Machine.outline]
        rw [hn, hnumber, ← hs']
        exact Machine.awake_wake _ _
      · rw [hothers _ fun he => hn (TaskId.submission.inj he), hnone] at hsome
        cases hsome
    simpa using h.rationed.passed h.tranquil.staged hadv (move.unpolled (by simp)) (by simp) move
      hawake
  · exact (hpro.kept (t := .main) rfl (restarted_nil _)).1.trans h.errand
  · rw [houtline, List.length_append, List.length_append, h.submissions]
    rfl
  · by_cases hlt : n < jobs.length
    · rw [List.getElem?_append_left hlt] at hn
      exact h.origin_kept hpro hn
    · rw [List.getElem?_append_right (Nat.le_of_not_lt hlt)] at hn
      have hone := (List.getElem?_eq_some_iff.mp hn).1
      obtain rfl := List.mem_singleton.mp (List.mem_of_getElem? hn)
      obtain rfl : n = s.outline.submissions.length := by
        rw [List.length_singleton] at hone
        rw [h.submissions]
        omega
      have hnone : s.outline.task? (.submission s.outline.submissions.length) = none := by
        simp [Outline.task?]
      have htrail := hpro.begun (Or.inl hnone) ((System.task?_outline _).trans hnew)
      exact ⟨hjob, token, congrArg Trail.origin htrail⟩

end

end

def noTrail : (t : TaskId) → Trail t
  | .main => .new (.pure default)
  | .branch _ => .new (.pure (.ok .null))
  | .submission _ => .new (.pure default)

theorem shares_new (config : Config) {world : World} (hreplies : world.Replies reply)
    (hsnapshots : world.store.store.snapshots = []) :
    Shares config reply world.store.script (.pure default) [] [] ⟨.new config world, .ended default 0⟩
      (fun _ => .told) noTrail where
  tranquil :=
    { session := ⟨_, .new world (.of_no_snapshots hsnapshots), .refl⟩
      serene :=
        { calm := ⟨rfl, nofun, hreplies⟩
          steady := fun {t p w} ht => by cases t <;> cases ht
          awaits := fun {t e next w} ht => by cases t <;> cases ht }
      staged :=
        { obeys := fun {t p w} _ ht => by cases t <;> cases ht
          ends := fun {t a k} hrole ht => by
            cases t with
            | main => exact Or.inr rfl
            | submission n => cases ht
            | branch n => cases hrole
          idle := fun _ => rfl
          slot := nofun
          handled := nofun
          sole := nofun }
      traced :=
        { leads := fun {t state} ht => by
            cases t with
            | main =>
                cases ht
                exact .pure default
            | _ => cases ht
          joining := fun {t run policy group bs next tasks} ht => by cases t <;> cases ht }
      script := rfl
      unwritten := .of_no_snapshots hsnapshots }
  rationed := by
    have hstands : System.slotStandings ⟨.new config world, .ended default 0⟩ (fun _ => .told) =
        fun _ => none := by
      funext t
      cases t <;> rfl
    have hrations : (Machine.new config world).Rations
        (System.slotStandings ⟨.new config world, .ended default 0⟩ fun _ => .told) := by
      rw [hstands]
      exact ⟨Gate.books_new _, nofun⟩
    exact ⟨hrations, rfl, nofun, nofun, nofun, fun _ => rfl, nofun⟩
  errand := rfl
  submissions := rfl
  origin := nofun

theorem Shared.shares (hrunTimeout : config.runTimeout = none) (hstepTimeout : config.stepTimeout = none)
    (hreplies : world.Replies reply) (hsnapshots : world.store.store.snapshots = [])
    (h : Shared config world jobs log s) :
    ∃ p stage trail, Shares config reply world.store.script p jobs log s stage trail := by
  induction h with
  | new => exact ⟨_, _, _, shares_new config hreplies hsnapshots⟩
  | step before hstep ih =>
      obtain ⟨p, stage, trail, ih⟩ := ih
      obtain ⟨stage', trail', h, -⟩ := ih.step hstep
      exact ⟨p, stage', trail', h⟩
  | newToken before idle ih =>
      obtain ⟨p, stage, trail, ih⟩ := ih
      exact ⟨p, ih.newToken idle⟩
  | submit before idle job token isolable ih =>
      obtain ⟨p, stage, trail, ih⟩ := ih
      exact ⟨p, ih.submit hrunTimeout hstepTimeout idle job isolable token⟩
  | run before idle job token isolable ih =>
      obtain ⟨p, stage, trail, ih⟩ := ih
      obtain ⟨stage', trail', h, -⟩ := ih.run hrunTimeout hstepTimeout idle job isolable token
      exact ⟨_, stage', trail', h⟩
  | await before idle submission ih =>
      obtain ⟨p, stage, trail, ih⟩ := ih
      obtain ⟨stage', trail', h, -⟩ := ih.await idle submission
      exact ⟨_, stage', trail', h⟩

end Session
end FlowEngine
