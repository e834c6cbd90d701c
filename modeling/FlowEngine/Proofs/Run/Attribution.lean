import FlowEngine.Proofs.Execution.Attribution
import FlowEngine.Proofs.Flow.WellFormed
import FlowEngine.Proofs.Run.Joins
import FlowEngine.Proofs.Run.Results

/-!
# The steps that runs fail in

The error of a run that failed or was cancelled names one of its steps, and what is written down
about that step says so. What is followed through a run is that its tasks keep to the origin of
failures: a join hands on what a branch has failed with, and the branch was a task of the same run.
-/
namespace FlowEngine

open Exec Execution

/-! ## Programs of runs -/

namespace Provenance

variable {w : Provenance} {config : Config} {flow : Flow} {ctx : Context} {α : Type}

def Returns (w : Provenance) (r : Except Failure Json) : Prop :=
  ∀ f, r = .error f → f.stepId = none ∨ w.Explained f

theorem branch_obeys {b : Branch} {scope : Scope} {body : List Step} {collect : Option Expr}
    (hb : b = .steps ctx scope body collect) (hrun : ctx.run = w.run)
    (fits : ∀ n ∈ Step.sequenceNodes body, w.Fits n) :
    b.program.Obeys w.protocol (fun _ => w.Returns) () := by
  subst hb
  rw [Branch.program_steps, Program.obeys_bind]
  refine (sequence fits hrun .null scope).mono fun _ p hp => ?_
  obtain ⟨r, final⟩ := p
  intro f hf
  cases r with
  | error g =>
      obtain rfl := Except.error.inj hf
      exact Or.inr (traced_none.mp (hp g rfl))
  | ok value =>
      cases collect with
      | none => cases hf
      | some e =>
          have hvalue : (Control.evaluate e final).mapError (fun fault => fault.toError.toFailure) =
              .error f := hf
          cases heval : Control.evaluate e final with
          | ok value =>
              rw [heval] at hvalue
              cases hvalue
          | error fault =>
              rw [heval] at hvalue
              obtain rfl := Except.error.inj hvalue
              exact Or.inl fault.bare.nameless

theorem stepId_cancellationError (limit : Option UInt64) (timedOut : Bool) (f : Failure) :
    (cancellationError limit timedOut f).stepId = f.stepId := by
  unfold cancellationError
  cases timedOut with
  | true => rfl
  | false =>
      cases f.isCancellation with
      | false => rfl
      | true =>
          cases hf : f.stepId with
          | none => simp [hf]
          | some id => simp [hf]

theorem settleAll_obeys : (settleAll ctx).Obeys w.protocol (fun _ _ => True) () :=
  ⟨trivial, fun _ _ _ => trivial⟩

section

variable (hflow : ∀ n ∈ flow.nodes, w.Fits n) (hhandler : w.verbatim → flow.onError = none)
include hflow hhandler

theorem endAfter_obeys (ctx : Context) (hrun : ctx.run = w.run) (limit : Option UInt64)
    (timedOut : Bool) {f : Failure} (hf : w.Explained f) (s : Scope) :
    (endAfter flow ctx limit timedOut f s).Obeys w.protocol (fun _ p => w.Accounts p.1) () := by
  have interrupted {f : Failure} (hf : w.Explained f) :
      w.Accounts (.cancelled (cancellationError limit timedOut f)) :=
    ⟨f, stepId_cancellationError limit timedOut f, hf⟩
  rw [endAfter_eq]
  refine ⟨trivial, fun (cancelled : Bool) _ _ => ?_⟩
  dsimp only
  split
  · exact interrupted hf
  · rename_i hcalm
    have hkind : f.isCancellation = false := by
      simp only [Bool.or_eq_true, not_or, Bool.not_eq_true] at hcalm
      exact hcalm.1
    rw [handleFailure_eq]
    cases hsteps : flow.onError with
    | none => exact ⟨hf, hkind⟩
    | some handler =>
        have hplain : ¬ w.verbatim := fun h => by
          rw [hhandler h] at hsteps
          cases hsteps
        have fits : ∀ n ∈ Step.sequenceNodes handler, w.Fits n := fun n hn =>
          hflow n (List.mem_append_right _ (by rwa [hsteps]))
        have hboundary : w.Raises none (boundary ctx flow.name (runSequence handler ctx .null) f) :=
          .boundary hplain (sequence fits hrun .null) flow.name hf
        refine Program.obeys_bind.mpr ((hboundary s).mono fun _ p hp => ?_)
        obtain ⟨r, s'⟩ := p
        cases r with
        | ok handled => exact ⟨trivial, fun _ _ _ => trivial⟩
        | error escaped =>
            have hescaped := traced_none.mp (hp escaped rfl)
            cases hkind : escaped.isCancellation with
            | true =>
                simp only [afterHandler, hkind, if_true]
                exact interrupted hescaped
            | false =>
                simp only [afterHandler, hkind, Bool.false_eq_true, if_false]
                exact ⟨hescaped, hkind⟩

/-- The program of a run of such steps closes the run with a failure that is explained. -/
theorem afterOpening_obeys (config : Config) (inputs : List (String × Json)) {opened : Nat × Token}
    (hrun : opened.1 = w.run) :
    (afterOpening config flow inputs opened).Obeys w.protocol (fun _ _ => True) () := by
  have hstart : (startRunDeadline opened.2 config.runTimeout).Obeys w.protocol
      (fun _ _ => True) () := by
    unfold startRunDeadline
    split
    · trivial
    · exact ⟨trivial, fun _ _ _ => trivial⟩
  refine Program.obeys_bind.mpr (hstart.mono fun _ deadline _ => ?_)
  have fits : ∀ n ∈ Step.sequenceNodes flow.steps, w.Fits n := fun n hn =>
    hflow n (List.mem_append_left _ hn)
  have hsteps : w.Raises none (runSequence flow.steps ⟨opened.1, opened.2, config.stepTimeout⟩ .null) :=
    sequence fits hrun .null
  refine Program.obeys_bind.mpr ((hsteps _).mono fun _ p hp => ?_)
  obtain ⟨r, s⟩ := p
  rw [conclude_eq_ended]
  refine Program.obeys_bind.mpr ((settleAll_obeys).mono fun _ _ _ => ?_)
  have hstop : (stopRunDeadline deadline).Obeys w.protocol (fun _ _ => True) () := by
    unfold stopRunDeadline
    split
    · trivial
    · exact ⟨trivial, fun _ _ _ => trivial⟩
  refine Program.obeys_bind.mpr (hstop.mono fun _ timedOut _ => ?_)
  have hended : (ended config flow ⟨opened.1, opened.2, config.stepTimeout⟩ timedOut s r).Obeys
      w.protocol (fun _ p => w.Accounts p.1) () := by
    cases r with
    | ok value => trivial
    | error f =>
        exact endAfter_obeys hflow hhandler ⟨opened.1, opened.2, config.stepTimeout⟩ hrun
          config.runTimeout timedOut (traced_none.mp (hp f rfl)) s
  refine Program.obeys_bind.mpr (hended.mono fun _ ending haccounts => ?_)
  refine Program.obeys_bind.mpr ((settleAll_obeys).mono fun _ _ _ => ?_)
  exact ⟨fun _ => haccounts, fun _ _ _ => trivial⟩

end

theorem path_of_admits {deeds : List Deed} (h : ∀ d ∈ deeds, w.Admits d.effect d.answer) :
    w.protocol.Path () deeds () := by
  induction deeds with
  | nil => exact .start ()
  | cons d rest ih =>
      exact .deed (t := ()) (h d List.mem_cons_self) (ih fun d hd => h d (List.mem_cons_of_mem _ hd))

end Provenance

/-! ## Answers -/

theorem ScriptedStore.bare_of_snapshot {store : ScriptedStore} {e : EngineError}
    (h : store.snapshot = .error e) : e.Bare := by
  unfold snapshot at h
  split at h
  · cases h
    exact ⟨rfl, rfl⟩
  · cases h

theorem Store.Fault.bare (fault : Store.Fault) : fault.toError.Bare := by
  cases fault <;> exact ⟨rfl, rfl⟩

theorem ScriptedStore.bare_of_restore {store : ScriptedStore} {handle : String}
    {e : EngineError} (h : store.restore handle = .error e) : e.Bare := by
  unfold restore at h
  split at h
  · cases h
    exact ⟨rfl, rfl⟩
  · split at h
    · cases h
    · cases h
      exact Store.Fault.bare _

theorem ScriptedStore.bare_of_discard {store : ScriptedStore} {handle : String}
    {e : EngineError} (h : store.discard handle = .error e) : e.Bare := by
  unfold discard at h
  split at h
  · cases h
    exact ⟨rfl, rfl⟩
  · split at h
    · cases h
    · cases h
      exact Store.Fault.bare _

theorem TransactionSlot.bare_of_begin {slot : TransactionSlot} {store : ScriptedStore}
    {e : EngineError} (h : slot.begin store = .error e) : e.Bare := by
  unfold begin at h
  split at h
  · cases h
    exact ⟨rfl, rfl⟩
  · cases hs : store.snapshot with
    | ok p =>
        rw [hs] at h
        cases h
    | error e' =>
        rw [hs] at h
        cases h
        exact ScriptedStore.bare_of_snapshot hs

theorem TransactionSlot.bare_of_release {slot : TransactionSlot} {handle : String}
    {e : EngineError} (h : slot.release handle = .error e) : e.Bare := by
  unfold release at h
  split at h
  · cases h
  · cases h
    exact ⟨rfl, rfl⟩

namespace Outline

variable {o o₁ : Outline} {wait : Wait} {e : EngineError}

theorem Polls.bare_of_begin {ctx : Context}
    (h : o.Polls wait o₁ (.beginTransaction ctx) (.answered (.error e))) : e.Bare := by
  simp only [Polls] at h
  split at h
  · obtain ⟨h, -⟩ := h
    cases h
  · rename_i hbegin
    obtain ⟨h, -⟩ := h
    cases h
    exact TransactionSlot.bare_of_begin hbegin

theorem Polls.bare_of_release {run : Nat} {handle : String}
    (h : o.Polls wait o₁ (.releaseTransaction run handle) (.answered (.error e))) : e.Bare := by
  simp only [Polls] at h
  split at h
  · obtain ⟨h, -⟩ := h
    cases h
  · rename_i hrelease
    obtain ⟨h, -⟩ := h
    cases h
    exact TransactionSlot.bare_of_release hrelease

theorem Stores.error_eq {r : Except EngineError ScriptedStore}
    (h : o.Stores r (.answered (.error e)) o₁) : r = .error e := by
  unfold Stores at h
  split at h
  · obtain ⟨h, -⟩ := h
    cases h
  · obtain ⟨h, -⟩ := h
    cases h
    rfl

end Outline

/-! ## Sessions -/

variable {config : Config} {flow : Flow} {log : List Occurrence} {s s' : System RunResult}

theorem Forked.starting {run n : Nat} {group : Token} (h : Forked log run group n) :
    (run, n) ∈ startings log := by
  obtain ⟨t, policy, bs, m, m', hm, hn⟩ := h
  exact mem_startings.mpr ⟨t, policy, group, bs, m, m', hm, hn⟩

namespace Provenance

variable {w : Provenance}

/-- What a branch of the run is at keeps to the origin of failures. -/
def Keeps (w : Provenance) : TaskState (Except Failure Json) → Prop
  | .active p _ => p.Obeys w.protocol (fun _ => w.Returns) ()
  | .ended r _ => w.Returns r

structure Upheld (w : Provenance) (log : List Occurrence) (s : System RunResult) : Prop where
  admitted {t : TaskId} {e : Effect} {a : e.Answer} {m m' : Machine} :
    .poll ⟨t, e, some a, m, m'⟩ ∈ log → w.Admits e a
  branch {n : Nat} {state : TaskState (Except Failure Json)} : (w.run, n) ∈ startings log →
    s.task? (.branch n) = some state → w.Keeps state

theorem admits_of_answer {t : TaskId} {e : Effect} {a : e.Answer} {m m' : Machine}
    (hsession : Session config log s) (move : s.Moves config [.poll ⟨t, e, some a, m, m'⟩] s')
    (hwritten : ∀ r, e = .note w.run (.record r) → w.Written r)
    (hended : ∀ n r order, (w.run, n) ∈ startings log →
      s.task? (.branch n) = some (.ended r order) → w.Returns r) : w.Admits e a := by
  obtain ⟨-, next, wait, -, hpolls⟩ := move.polls_of_answer
  cases e with
  | note run entry =>
      cases entry with
      | record r =>
          rintro rfl
          exact hwritten r rfl
      | _ => trivial
  | join run policy group bs =>
      rintro rfl f rfl
      rcases hsession.outcome_of_join move with ⟨f, n, order, hf, hforked, hstate⟩ | ⟨_, hjoined, -⟩
      · cases hf
        exact hended n _ order hforked.starting hstate f rfl
      · cases hjoined
  | beginTransaction ctx =>
      rintro e rfl
      exact hpolls.bare_of_begin
  | releaseTransaction run handle =>
      rintro e rfl
      exact hpolls.bare_of_release
  | discardSnapshot handle =>
      rintro e rfl
      exact ScriptedStore.bare_of_discard (Outline.Stores.error_eq hpolls)
  | restoreSnapshot handle =>
      rintro e rfl
      exact ScriptedStore.bare_of_restore (Outline.Stores.error_eq hpolls)
  | _ => trivial

/-- A branch keeps to the origin of failures in a move in which all answers are admitted. -/
theorem Keeps.advances {o o' : Outline} {more : List Occurrence} {n : Nat}
    {state state' : TaskState (Except Failure Json)} (h : w.Keeps state)
    (adv : o.Advances config more o') (hs : o.task? (.branch n) = some state)
    (hs' : o'.task? (.branch n) = some state')
    (hadmitted : ∀ d ∈ deedsOf (.branch n) more, w.Admits d.effect d.answer) : w.Keeps state' := by
  cases state with
  | ended r order =>
      obtain ⟨-, hstill | hr⟩ := adv.ended hs
      · rw [hstill] at hs'
        cases hs'
        exact h
      · exact absurd hr (System.not_restarted_branch n more)
  | active p wait =>
      replace h : p.Obeys w.protocol (fun _ => w.Returns) () := h
      obtain ⟨q, hq, ⟨wait', hnow⟩ | ⟨r, k, rfl, hnow⟩⟩ := adv.follows hs
      · rw [hnow] at hs'
        cases hs'
        exact h.follow hq (path_of_admits hadmitted)
      · rw [hnow] at hs'
        cases hs'
        exact h.follow hq (path_of_admits hadmitted)

section

variable {earlier during : List Occurrence} {u v : System RunResult} {t : TaskId} {ctx : Context}
  {inputs : List (String × Json)} {ending : Ending} {outputs : List (String × Json)}
  {result : RunResult}
  (h : Session.Lives config flow earlier during u v t ctx inputs ending outputs result)
  (hflow : ∀ n ∈ flow.nodes, w.Fits n) (hhandler : w.verbatim → flow.onError = none)
  (hrun : ctx.run = w.run)
include h hflow hhandler hrun

/-- Whoever works for the run performs what its origin of failures allows. -/
theorem Upheld.allows {l k : List Occurrence} (hu : w.Upheld l s) (hlog : during = l ++ k)
    (hr : u.Reaches config l s) {t' : TaskId} {e : Effect} {next : e.Answer → Program t'.Result}
    {wait : Wait} (ht : s.task? t' = some (.active (.perform e next) wait))
    (hworks : t' = t ∨ ∃ n, t' = .branch n ∧ (ctx.run, n) ∈ startings l) :
    w.protocol.allows () e := by
  rcases hworks with rfl | ⟨n, rfl, hn⟩
  · obtain ⟨e', next', rest, hfollows, wait', hat⟩ := h.goes_on hlog hr
    cases ht.symm.trans hat
    have hmain : (afterOpening config flow inputs (ctx.run, ctx.token)).Obeys w.protocol
        (fun _ _ => True) () := afterOpening_obeys hflow hhandler config inputs hrun
    have hadmitted : ∀ d ∈ deedsOf t' l, w.Admits d.effect d.answer := by
      rintro ⟨e, a⟩ hd
      obtain ⟨m, m', hm⟩ := mem_of_deed hd
      exact hu.admitted hm
    exact (hmain.follow hfollows (path_of_admits hadmitted)).1
  · rw [hrun] at hn
    exact (hu.branch hn ht).1

theorem Upheld.step {l more k : List Occurrence} (hu : w.Upheld l s)
    (hlog : during = l ++ (more ++ k)) (hr : u.Reaches config l s) (move : s.Moves config more s')
    (hwritten : ∀ r, .record r ∈ entriesOf ctx.run during → w.Written r) :
    w.Upheld (l ++ more) s' := by
  have hsession := h.session.reaches hr
  have hadmitted {t' : TaskId} {e : Effect} {a : e.Answer} {m m' : Machine}
      (hm : .poll ⟨t', e, some a, m, m'⟩ ∈ more) : w.Admits e a := by
    obtain rfl := move.advances.eq_singleton_of_mem hm
    refine admits_of_answer hsession move ?_ fun n r order hn hended => ?_
    · rintro r rfl
      apply hwritten
      rw [hrun, mem_entriesOf, hlog]
      exact ⟨t', m, m', List.mem_append_right _ (List.mem_append_left _ hm)⟩
    · exact hu.branch (hrun ▸ h.commences.started (hrun.symm ▸ hn)) hended
  refine ⟨fun hm => ?_, fun {n state} hn hs' => ?_⟩
  · exact (List.mem_append.mp hm).elim hu.admitted hadmitted
  · rw [startings_append, List.mem_append] at hn
    rcases hn with hold | hnew
    · obtain ⟨state₀, hs⟩ := h.exists_branch hr (hrun.symm ▸ hold)
      refine (hu.branch hold hs).advances move.advances ((System.task?_outline _).trans hs)
        ((System.task?_outline _).trans hs') ?_
      rintro ⟨e, a⟩ hd
      obtain ⟨m, m', hm⟩ := mem_of_deed hd
      exact hadmitted hm
    · obtain ⟨t', policy, group, bs, m, m', hm, hge, -⟩ := mem_startings.mp hnew
      obtain rfl := move.advances.eq_singleton_of_mem hm
      obtain ⟨rfl, ⟨next, wait, active⟩, b, hb, rfl⟩ := move.born_of_join hge hs'
      have hallows := hu.allows h hflow hhandler hrun hlog hr active
        (h.worker hr move (congrArg some hrun.symm))
      obtain ⟨ctx', scope, body, collect, hb, hrun', fits⟩ := hallows rfl b hb
      exact branch_obeys hb hrun' fits

/-- The failure that a run is closed with is explained by what was written down for it. -/
theorem accounts_of_lives (hwritten : ∀ r, .record r ∈ entriesOf ctx.run during → w.Written r) :
    w.Accounts ending := by
  have hupheld : ∀ {l : List Occurrence} {s : System RunResult}, u.Reaches config l s →
      ∀ k, during = l ++ k → w.Upheld l s := by
    intro l s hr
    induction hr with
    | refl => exact fun _ _ => ⟨fun hm => absurd hm List.not_mem_nil, by rintro n state ⟨⟩⟩
    | @move l more s s' before move ih =>
        intro k hlog
        rw [List.append_assoc] at hlog
        exact (ih _ hlog).step h hflow hhandler hrun hlog before move hwritten
  obtain ⟨m, m', v', hclose⟩ := h.closes
  obtain ⟨-, next, wait, hactive, -⟩ := hclose.polls_of_answer
  exact (hupheld h.reaches [] (List.append_nil _).symm).allows h hflow hhandler hrun
    (List.append_nil _).symm h.reaches hactive (Or.inl rfl) hrun

end

def ofRun (flow : Flow) (run : Nat) (entries : List Entry) : Provenance where
  run
  Fits n := n ∈ flow.nodes
  Written r := .record r ∈ entries
  verbatim := (∀ n ∈ flow.nodes, n.Transparent) ∧ flow.onError = none
  transparent h := h.1

end Provenance

/-! ## Results -/

namespace Session.Lives

variable {earlier during : List Occurrence} {u v : System RunResult} {t : TaskId} {ctx : Context}
  {inputs : List (String × Json)} {ending : Ending} {outputs : List (String × Json)}
  {result : RunResult}
  (h : Session.Lives config flow earlier during u v t ctx inputs ending outputs result)
include h

theorem mem_records {r : StepRecord} :
    r ∈ result.records ↔ .record r ∈ entriesOf ctx.run during := by
  rw [h.records_eq, List.mem_filterMap]
  constructor
  · rintro ⟨entry, hentry, hr⟩
    cases entry with
    | record r =>
        cases hr
        exact hentry
    | _ => cases hr
  · exact fun hr => ⟨_, hr, rfl⟩

theorem status_eq : result.status = ((Journal.start flow.name).write
    (entriesOf ctx.run during)).finalStatus ending := by
  rw [h.result_eq]
  exact Journal.finish_status ((Journal.start flow.name).write_status (entriesOf ctx.run during)) ending

theorem ending_of_failed (hfailed : result.status = .failed) :
    ∃ f, ending = .failed f ∧ result.error = some f := by
  rw [h.status_eq] at hfailed
  rw [h.result_eq]
  cases ending with
  | completed =>
      simp only [Journal.finalStatus] at hfailed
      split at hfailed <;> cases hfailed
  | failed f => exact ⟨f, rfl, rfl⟩
  | cancelled f => cases hfailed

theorem ending_of_cancelled (hcancelled : result.status = .cancelled) :
    ∃ f, ending = .cancelled f ∧ result.error = some f := by
  rw [h.status_eq] at hcancelled
  rw [h.result_eq]
  cases ending with
  | completed =>
      simp only [Journal.finalStatus] at hcancelled
      split at hcancelled <;> cases hcancelled
  | failed f => cases hcancelled
  | cancelled f => exact ⟨f, rfl, rfl⟩

end Session.Lives

/-- A record with one of these statuses is about the step of a flow that an error names. -/
def RunResult.Blames (result : RunResult) (flow : Flow) (f : Failure)
    (statuses : List StepStatus) : Prop :=
  ∃ n ∈ flow.nodes, f.stepId = some n.id ∧
    ∃ r ∈ result.records, r.stepId = n.id ∧ r.status ∈ statuses

/-- The error of a run that failed names a step of the flow that has failed, and that of a run that
was cancelled names a step that was cancelled, was skipped or has failed. When no step is tried again
and nothing is undone or handled, with deadlines or without, the error of a run that failed is the
error that was written down about such a step. -/
theorem failures_attributed {config : Config} {flow : Flow} {before after : List Occurrence}
    {result : RunResult} (h : Session.Gives config flow before after result) :
    (result.status = .failed → ∃ f, result.error = some f ∧ result.Blames flow f [.failed]) ∧
    (result.status = .cancelled → ∃ f, result.error = some f ∧
      result.Blames flow f [.cancelled, .skipped, .failed]) ∧
    ((∀ n ∈ flow.nodes, n.Transparent) → flow.onError = none → result.status = .failed →
      ∃ f, result.error = some f ∧ ∃ n ∈ flow.nodes, f.stepId = some n.id ∧
        ∃ r ∈ result.records, r.stepId = n.id ∧ r.status = .failed ∧ r.error = some f) := by
  obtain ⟨t, l, parent, ctx, m₁, m₁', during, ending, outputs, m₂, later, u, v, inputs, -, hlives⟩ :=
    h.lives
  have haccounts := Provenance.accounts_of_lives
    (w := .ofRun flow ctx.run (entriesOf ctx.run during)) hlives (fun _ hn => hn) And.right rfl
    fun _ hr => hr
  refine ⟨fun hfailed => ?_, fun hcancelled => ?_, fun htransparent hhandler hfailed => ?_⟩
  · obtain ⟨f, rfl, herror⟩ := hlives.ending_of_failed hfailed
    obtain ⟨⟨n, r, hn, hr, hid, hexplains⟩, hkind⟩ := haccounts
    refine ⟨f, herror, n, hn, hid ▸ hexplains.step, r, hlives.mem_records.mpr hr, hid, ?_⟩
    rw [hexplains.failed hkind]
    exact List.mem_singleton_self _
  · obtain ⟨f, rfl, herror⟩ := hlives.ending_of_cancelled hcancelled
    obtain ⟨g, hstep, n, r, hn, hr, hid, hexplains⟩ := haccounts
    refine ⟨f, herror, n, hn, ?_, r, hlives.mem_records.mpr hr, hid, ?_⟩
    · rw [hstep, hexplains.step, hid]
    · cases hkind : g.isCancellation with
      | false => simp [hexplains.failed hkind]
      | true => rcases hexplains.cancelled hkind with hstatus | hstatus <;> simp [hstatus]
  · obtain ⟨f, rfl, herror⟩ := hlives.ending_of_failed hfailed
    obtain ⟨⟨n, r, hn, hr, hid, hexplains⟩, hkind⟩ := haccounts
    exact ⟨f, herror, n, hn, hid ▸ hexplains.step, r, hlives.mem_records.mpr hr, hid,
      hexplains.failed hkind, hexplains.verbatim ⟨htransparent, hhandler⟩⟩

def Solo.toppled : Solo where
  world := quietWorld [("slow", .delayed 50 .echo), ("broken", .delayed 10 (.failure .stepExecution "no"))]
  flow :=
    { name := "orders"
      description := none
      steps := [.mk "fork" (.parallel
        [([calls "ship" "slow"], none), ([calls "pay" "broken"], none)] .failFast) none none]
      onError := none }

theorem Solo.toppled_transparent : ∀ n ∈ Solo.toppled.flow.nodes, n.Transparent := by
  have hnodes : Solo.toppled.flow.nodes = [.mk "fork" (.parallel
      [([calls "ship" "slow"], none), ([calls "pay" "broken"], none)] .failFast) none none,
    calls "ship" "slow", calls "pay" "broken"] := rfl
  rw [hnodes]
  simp [Step.Transparent, Step.retry, Step.action, calls]

/-- The error of the run is what was written down about the branch that failed; a run that is cancelled
inside of a transaction ends with an error of one of its steps, too. -/
theorem failures_attributed_toppled :
    (∃ before after result f, Session.Gives Solo.toppled.config Solo.toppled.flow before after result ∧
      result.status = .failed ∧ f.stepId = some "pay" ∧ result.Blames Solo.toppled.flow f [.failed] ∧
      result.error = some f ∧ ∃ r ∈ result.records, r.status = .failed ∧ r.error = some f) ∧
    ∃ before after result f,
      Session.Gives Solo.interrupted.config Solo.interrupted.flow before after result ∧
      result.status = .cancelled ∧ result.error = some f ∧
      result.Blames Solo.interrupted.flow f [.cancelled, .skipped, .failed] := by
  constructor
  · obtain ⟨result, hgives, hp⟩ := Solo.toppled.exists_gives 200 rfl
      (p := fun r => decide (r.status = .failed) && decide (r.error.bind Failure.stepId = some "pay"))
      (by decide +kernel)
    obtain ⟨hstatus, hstep⟩ := Bool.and_eq_true_iff.mp hp
    have hfailed : result.status = .failed := of_decide_eq_true hstatus
    obtain ⟨hblames, -, hverbatim⟩ := failures_attributed hgives
    obtain ⟨f, herror, hf⟩ := hblames hfailed
    obtain ⟨f', herror', n, hn, hn', r, hr, -, hrecord⟩ :=
      hverbatim Solo.toppled_transparent rfl hfailed
    cases herror.symm.trans herror'
    have hpay : result.error.bind Failure.stepId = some "pay" := of_decide_eq_true hstep
    rw [herror] at hpay
    exact ⟨_, _, result, f, hgives, hfailed, hpay, hf, herror, r, hr, hrecord⟩
  · obtain ⟨result, hgives, hp⟩ := Solo.interrupted.exists_gives 200 rfl
      (p := fun r => decide (r.status = .cancelled)) (by decide +kernel)
    have hcancelled : result.status = .cancelled := of_decide_eq_true hp
    obtain ⟨f, herror, hf⟩ := (failures_attributed hgives).2.1 hcancelled
    exact ⟨_, _, result, f, hgives, hcancelled, herror, hf⟩

end FlowEngine

/-!
## Which steps a run writes down

Every program of a step writes down the step itself, and a fan-out starts branches of steps that
belong to the same run. So whatever is written down for a run is about the steps of its flow; if the
flow is valid, the id says which one.
-/
namespace FlowEngine

open Exec Execution

variable {run : Nat} {Fits : Step → Prop} {config : Config} {flow : Flow}

/-- An effect that writes down only fitting steps of a run, and starts only branches of them. -/
def Effect.Recording (run : Nat) (Fits : Step → Prop) : Effect → Prop
  | .note number (.record r) => number = run → ∃ n, Fits n ∧ n.id = r.stepId ∧ n.kind = r.kind
  | .join number _ _ bs => number = run → ∀ b ∈ bs, ∃ ctx scope body collect,
      b = .steps ctx scope body collect ∧ ∀ n ∈ Step.sequenceNodes body, Fits n
  | _ => True

theorem Effect.recording_met (run : Nat) (Fits : Step → Prop) :
    Effect.Met (Effect.Recording run Fits) Fits where
  silent {e} he := by
    cases e with
    | join => exact he.elim
    | note number entry =>
        cases entry with
        | record r => exact he.elim
        | _ => trivial
    | _ => trivial
  record {s} fits number status attempts error := fun _ => ⟨s, fits, rfl, rfl⟩
  join _ _ ctx bs hbs := fun _ b hb => by
    obtain ⟨scope, body, collect, rfl, hbody⟩ := hbs b hb
    exact ⟨ctx, scope, body, collect, rfl, hbody⟩

/-- What is written down for a run is about the steps of its flow. -/
theorem Session.Lives.exists_node {earlier during : List Occurrence} {u v : System RunResult}
    {t : TaskId} {ctx : Context} {inputs : List (String × Json)} {ending : Ending}
    {outputs : List (String × Json)} {result : RunResult}
    (h : Session.Lives config flow earlier during u v t ctx inputs ending outputs result)
    {r : StepRecord} (hr : r ∈ result.records) :
    ∃ n ∈ flow.nodes, n.id = r.stepId ∧ n.kind = r.kind := by
  have hmet := Effect.recording_met ctx.run (· ∈ flow.nodes)
  have hmain : (afterOpening config flow inputs (ctx.run, ctx.token)).Performs
      (Effect.Recording ctx.run (· ∈ flow.nodes)) :=
    performs_afterOpening hmet (fun _ hn => hn) config inputs _
  have hbranch (policy : JoinPolicy) (group : Token) (bs : List Branch)
      (hjoin : Effect.Recording ctx.run (· ∈ flow.nodes) (.join ctx.run policy group bs)) (b : Branch)
      (hb : b ∈ bs) : b.program.Performs (Effect.Recording ctx.run (· ∈ flow.nodes)) := by
    obtain ⟨ctx', scope, body, collect, rfl, hbody⟩ := hjoin rfl b hb
    exact performs_branch hmet hbody
  obtain ⟨t', m, m', hm⟩ := mem_entriesOf.mp (h.mem_records.mp hr)
  obtain ⟨l, s, s', before, move⟩ := h.reaches.moment_of_mem hm
  exact h.commences.performs_of_poll hmain hbranch before move rfl rfl

namespace Flow

/-- The check of a flow accepts the well-formed flows and no others. A well-formed flow has as many
steps as ids, and each record of each of its runs is about the one step that has its id. -/
theorem validate_accepts_wellFormed (config : Config) (flow : Flow) :
    (flow.validate = .ok () ↔ flow.WellFormed) ∧
    (flow.WellFormed → flow.stepCount = (flow.nodes.map Step.id).toFinset.card) ∧
    (flow.WellFormed → ∀ before after result, Session.Gives config flow before after result →
      ∀ r ∈ result.records, ∃ n ∈ flow.nodes, n.id = r.stepId ∧ n.kind = r.kind ∧
        ∀ m ∈ flow.nodes, m.id = r.stepId → m = n) := by
  refine ⟨wellFormed_iff.symm, WellFormed.stepCount_eq, fun h before after result hgives r hr => ?_⟩
  obtain ⟨t, l, parent, ctx, m₁, m₁', during, ending, outputs, m₂, later, u, v, inputs, -, hlives⟩ :=
    hgives.lives
  obtain ⟨n, hn, hid, hkind⟩ := hlives.exists_node hr
  exact ⟨n, hn, hid, hkind, fun m hm hmid => h.eq_of_id_eq hn hm (hmid.trans hid.symm)⟩

/-- A flow with a branch that is abandoned and a handler is well-formed, its steps are counted, and
what its run writes down is about them. -/
theorem validate_accepts_abandoned : Solo.abandoned.flow.WellFormed ∧
    Solo.abandoned.flow.stepCount = (Solo.abandoned.flow.nodes.map Step.id).toFinset.card ∧
    ∃ before after result,
      Session.Gives Solo.abandoned.config Solo.abandoned.flow before after result ∧
        result.records ≠ [] ∧ ∀ r ∈ result.records, ∃ n ∈ Solo.abandoned.flow.nodes,
          n.id = r.stepId ∧ n.kind = r.kind ∧
            ∀ m ∈ Solo.abandoned.flow.nodes, m.id = r.stepId → m = n := by
  obtain ⟨haccepts, hcount, hrecords⟩ :=
    validate_accepts_wellFormed Solo.abandoned.config Solo.abandoned.flow
  have hvalid : Solo.abandoned.flow.WellFormed := haccepts.mp rfl
  obtain ⟨result, hgives, hp⟩ := Solo.abandoned.exists_gives 200 rfl
    (p := fun r => !r.records.isEmpty) (by decide +kernel)
  exact ⟨hvalid, hcount hvalid, _, _, result, hgives, by simpa using hp, hrecords hvalid _ _ _ hgives⟩

end Flow
end FlowEngine
