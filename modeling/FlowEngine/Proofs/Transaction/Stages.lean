import FlowEngine.Proofs.Flow.Checks
import FlowEngine.Proofs.Session.Hosting
import FlowEngine.Proofs.Transaction.Accounts

/-!
# The stages of a run

The task of a run waits for a slot if the run was submitted, opens the run, closes it, and gives the
slot back. While the run is open the task writes for it only, and it takes a snapshot only while it
has none in hand: the body of a transaction has no transactions in it, and the slot of the snapshot
is released before a handler begins.
-/
namespace FlowEngine

open Exec Execution

inductive Stage where
  | queued
  | admitted
  | inside (run : Nat) (held : Option String)
  | closed (result : RunResult)
  | done (result : RunResult)
  /-- The task does no run of its own but waits for another one. -/
  | awaiting
  | told

namespace Stage

def Permits (run : Nat) (held : Option String) : Effect → Prop
  | .note number _ | .closeRun number _ _ => number = run
  | .beginTransaction ctx => ctx.run = run ∧ held = none
  | .releaseTransaction number handle => number = run ∧ held = some handle
  | .openRun _ _ | .acquireSlot | .releaseSlot | .awaitRun _ => False
  | _ => True

def after : Stage → (e : Effect) → e.Answer → Stage
  | queued, .acquireSlot, _ => admitted
  | admitted, .openRun _ _, opened => inside opened.1 none
  | inside run _, .beginTransaction _, .ok handle => inside run (some handle)
  | inside run _, .releaseTransaction _ _, _ => inside run none
  | inside _ _, .closeRun _ _ _, result => closed result
  | closed result, .releaseSlot, _ => done result
  | awaiting, .awaitRun _, _ => told
  | stage, _, _ => stage

def protocol : Protocol Stage where
  allows
    | queued, .acquireSlot | admitted, .openRun _ _ | closed _, .releaseSlot
    | awaiting, .awaitRun _ => True
    | inside run held, e => Permits run held e
    | _, _ => False
  moves
    | u, .childToken t, a, v => (∃ n, a = t.child n) ∧ v = u
    | u, e, a, v => v = u.after e a

def discipline : Discipline Stage where
  protocol := protocol
  root := admitted
  born _ := told
  final _ := True

variable {ctx : Context} {steps : List Step} {run : Nat} {held : Option String}

theorem eq_of_moves {u v : Stage} {e : Effect} {a : e.Answer} (h : protocol.moves u e a v) :
    v = u.after e a := by
  cases e with
  | childToken t =>
      obtain ⟨-, rfl⟩ := h
      cases v <;> rfl
  | _ => exact h

theorem plain {e : Effect} (he : Plain ctx e) : protocol.allows (inside ctx.run held) e ∧
    ∀ a v, protocol.moves (inside ctx.run held) e a v → v = inside ctx.run held := by
  refine ⟨by cases he <;> trivial, fun a v hmove => ?_⟩
  rw [eq_of_moves hmove]
  cases he <;> rfl

theorem tolerates : Tolerates protocol (fun i ctx u => u = inside ctx.run i) fun _ _ _ => False where
  plain he hu := by
    subst hu
    exact (plain he).imp id fun h a v hmove => Or.inl (h a v hmove)
  starts {i ctx u v} step hu hmove := by
    subst hu
    obtain rfl : v = inside ctx.run i := hmove
    exact ⟨trivial, fun a w h => h⟩
  futile _ hu := hu.elim
  child hu hmove := by
    subst hu
    exact hmove.1
  narrow _ hu := hu
  widen _ _ hv := hv
  widenFutile _ _ hv := hv

/-- Steps that are no transactions leave what the task has in hand as it is. -/
theorem keeps_of_noTransaction (h : ∀ n ∈ Step.sequenceNodes steps, n.NoTransaction) (ctx : Context)
    (last : Json) (held : Option String) :
    (runSequence steps ctx last).Keeps protocol (· = inside ctx.run held) fun _ => False :=
  (tolerates.coherent fun fits hs => absurd hs (fits _ _)).sequence steps h ctx ctx last held

/-- What the task has in hand during the body of a transaction is given back at its end. -/
theorem obeys_enclose {handle : String} {body : Exec Json} {handler : Option (Exec Json)} (id : String)
    (hb : body.Keeps protocol (· = inside ctx.run (some handle)) fun _ => False)
    (hh : ∀ x ∈ handler, x.Keeps protocol (· = inside ctx.run none) fun _ => False) :
    (enclose ctx id handle body handler).Obeys protocol (fun v _ => v = inside ctx.run none)
      (inside ctx.run (some handle)) := by
  have hallows : protocol.allows (inside ctx.run (some handle))
      (.releaseTransaction ctx.run handle) := ⟨rfl, rfl⟩
  refine obeys_bind (obeys_outcome (obeys_inFrame ((hb _ rfl).mono ?_)))
  rintro v r (rfl | ⟨⟨⟩, -⟩)
  cases r with
  | ok output =>
      have hcommit : (commit ctx handle).Obeys protocol (fun v _ => v = inside ctx.run none)
          (inside ctx.run (some handle)) := by
        refine obeys_bind (obeys_ask.mpr ⟨hallows, fun released v hmove => ?_⟩)
        obtain rfl : v = inside ctx.run none := hmove
        cases released with
        | error e => exact obeys_bind (obeys_orFail.mpr rfl)
        | ok _ =>
            exact obeys_bind (obeys_orFail.mpr (obeys_bind (obeys_ask.mpr
              ⟨trivial, fun discarded v hmove => obeys_orFail.mpr hmove⟩)))
      refine obeys_bind (hcommit.mono fun v r hv => ?_)
      cases r with
      | error f => exact hv
      | ok _ => exact obeys_pure.mpr hv
  | error f =>
      refine obeys_bind (obeys_bind (obeys_ask.mpr ⟨trivial, fun settled v hmove => ?_⟩))
      obtain rfl : v = inside ctx.run (some handle) := hmove
      refine obeys_pure.mpr (obeys_bind (obeys_bind (obeys_ask.mpr
        ⟨hallows, fun released v hmove => ?_⟩)))
      obtain rfl : v = inside ctx.run none := hmove
      cases released with
      | error e => exact obeys_pure.mpr (obeys_throw.mpr rfl)
      | ok _ =>
          refine obeys_bind (obeys_ask.mpr ⟨trivial, fun restored v hmove => ?_⟩)
          obtain rfl : v = inside ctx.run none := hmove
          cases restored with
          | error e => exact obeys_pure.mpr (obeys_throw.mpr rfl)
          | ok _ =>
              refine obeys_pure.mpr (obeys_bind (obeys_ask.mpr ⟨rfl, fun _ v hmove => ?_⟩))
              obtain rfl : v = inside ctx.run none := hmove
              exact (tolerates.recover (fun _ h => h) hh id _).obeys (fun _ h => h) rfl

/-- Steps without nested transactions begin and end with nothing in hand. -/
theorem keeps_of_unnested (h : ∀ n ∈ Step.sequenceNodes steps, n.Unnested) (ctx : Context)
    (last : Json) :
    (runSequence steps ctx last).Keeps protocol (· = inside ctx.run none) fun _ => False := by
  have T : Tolerates protocol (fun (_ : Unit) (ctx : Context) u => u = inside ctx.run none)
      fun _ _ _ => False :=
    { plain := tolerates.plain (i := none), starts := tolerates.starts (i := none)
      futile := fun _ hu => hu.elim, child := tolerates.child (i := none), narrow := fun _ hu => hu
      widen := fun _ _ hv => hv, widenFutile := fun _ _ hv => hv }
  refine (T.coherent fun {s ctx body onError} fits hs _ hh _ => ?_).sequence steps h ctx ctx last ()
  rintro u rfl
  refine obeys_bind (obeys_bind (obeys_ask.mpr ⟨trivial, fun settled v hmove => ?_⟩))
  obtain rfl : v = inside ctx.run none := hmove
  refine obeys_pure.mpr (obeys_bind (obeys_ask.mpr ⟨⟨rfl, rfl⟩, fun begun v hmove => ?_⟩))
  cases begun with
  | error e =>
      obtain rfl : v = inside ctx.run none := hmove
      exact obeys_bind (obeys_orFail.mpr (Or.inl rfl))
  | ok handle =>
      obtain rfl : v = inside ctx.run (some handle) := hmove
      refine obeys_bind (obeys_orFail.mpr ?_)
      exact (obeys_enclose s.id (keeps_of_noTransaction (fits _ _ hs) ctx .null _)
        fun x hx => hh x hx ()).mono fun _ _ => Or.inl

theorem frames : discipline.Frames (fun ctx u => u = inside ctx.run none)
    (fun ctx u => u = inside ctx.run none) fun u result => u = closed result where
  plain he hu := by
    subst hu
    exact plain he
  opens _ _ := ⟨trivial, fun _ _ h _ => h⟩
  settles hu := by
    obtain rfl | rfl := hu <;> exact ⟨trivial, fun _ _ h => h⟩
  stops _ hu := by
    subst hu
    exact ⟨trivial, fun _ _ h => h⟩
  looks hu := by
    subst hu
    exact ⟨trivial, fun _ _ h => h⟩
  closes _ _ hu := by
    subst hu
    exact ⟨rfl, fun _ _ h => h⟩

/-- A run without nested transactions goes from stage to stage until it is closed with its result. -/
theorem run_obeys {flow : Flow} (hflow : ∀ n ∈ flow.nodes, n.Unnested) (config : Config)
    (inputs : List (String × Json)) (parent : Token) :
    (Execution.run config flow inputs parent).Obeys protocol (fun u result => u = closed result)
      admitted := by
  have hkeeps {steps : List Step} (hsteps : ∀ n ∈ Step.sequenceNodes steps, n ∈ flow.nodes) :
      discipline.KeepsSteps (fun ctx u => u = inside ctx.run none) steps :=
    fun ctx last => keeps_of_unnested (fun n hn => hflow n (hsteps n hn)) ctx last
  exact frames.run (fun handler hhandler => hkeeps fun n hn => List.mem_append_right _
    (by rwa [Option.mem_def.mp hhandler])) (hkeeps fun n hn => List.mem_append_left _ hn) config
    inputs parent

theorem submitted_obeys {flow : Flow} (hflow : ∀ n ∈ flow.nodes, n.Unnested) (config : Config)
    (inputs : List (String × Json)) (parent : Token) :
    (submitted config flow inputs parent).Obeys protocol (fun u result => u = done result)
      queued := by
  rw [submitted_eq]
  refine ⟨trivial, fun _ u hmove => ?_⟩
  obtain rfl : u = admitted := hmove
  refine Program.obeys_bind.mpr ((run_obeys hflow config inputs parent).mono fun u result hu => ?_)
  subst hu
  exact ⟨trivial, fun _ u hmove => hmove⟩

/-! ## The slot of a run -/

variable {o o₁ : Outline} {w : Wait} {e : Effect}

theorem slot_of_ne {turn : Turn e.Answer} (polls : o.Polls w o₁ e turn)
    (hbegin : ∀ ctx, e = .beginTransaction ctx → ctx.run ≠ run)
    (hrelease : ∀ number handle, e = .releaseTransaction number handle → number ≠ run) :
    o₁.slot run = o.slot run := by
  cases e with
  | beginTransaction ctx =>
      have hne : run ≠ ctx.run := Ne.symm (hbegin ctx rfl)
      simp only [Outline.Polls] at polls
      split at polls
      · obtain ⟨-, rfl⟩ := polls
        exact Outline.slot_modifyRun_of_ne _ _ hne
      · obtain ⟨-, rfl⟩ := polls
        rfl
  | releaseTransaction number handle =>
      have hne : run ≠ number := Ne.symm (hrelease number handle rfl)
      simp only [Outline.Polls] at polls
      split at polls
      · obtain ⟨-, rfl⟩ := polls
        exact Outline.slot_modifyRun_of_ne _ _ hne
      · obtain ⟨-, rfl⟩ := polls
        rfl
  | discardSnapshot handle => exact (Custody.settled_polls polls (Or.inl rfl)).2.2.2 run
  | restoreSnapshot handle => exact (Custody.settled_polls polls (Or.inr rfl)).2.2.2 run
  | _ => exact (polls.ledger fun hs => hs).2.2 run

theorem slot_of_waiting {w' : Wait} (polls : o.Polls w o₁ e (.waiting w')) (run : Nat) :
    o₁.slot run = o.slot run := by
  have hwaits := polls.waits
  cases e with
  | beginTransaction | releaseTransaction | discardSnapshot | restoreSnapshot => exact hwaits.elim
  | _ => exact (polls.ledger fun hs => hs).2.2 run

/-- The machine answers so that the task of a run goes on to the next stage. -/
theorem moves_after {a : e.Answer} (polls : o.Polls w o₁ e (.answered a)) (u : Stage) :
    protocol.moves u e a (u.after e a) := by
  cases e with
  | childToken t =>
      obtain ⟨⟨n, h⟩, -⟩ := polls
      exact ⟨⟨n, Turn.answered.inj h⟩, by cases u <;> rfl⟩
  | _ => exact rfl

/-- The slot of an open run names what the task of the run has in hand. -/
theorem slot_of_answer {a : e.Answer} {run' : Nat} {held' : Option String}
    (polls : o.Polls w o₁ e (.answered a)) (hpermits : Permits run held e)
    (hslot : o.slot run = ⟨held⟩) (hrun : run < o.runs.length)
    (hafter : (inside run held).after e a = inside run' held') :
    run' = run ∧ o₁.slot run = ⟨held'⟩ := by
  have still (hsame : (inside run held).after e a = inside run held)
      (ho : o₁.slot run = o.slot run) : run' = run ∧ o₁.slot run = ⟨held'⟩ := by
    cases hsame.symm.trans hafter
    exact ⟨rfl, ho.trans hslot⟩
  cases e with
  | beginTransaction ctx =>
      obtain ⟨rfl, rfl⟩ := hpermits
      simp only [Outline.Polls, hslot, TransactionSlot.begin] at polls
      cases hsnapshot : o.store.snapshot with
      | error failure =>
          rw [hsnapshot] at polls
          obtain ⟨hturn, rfl⟩ := polls
          cases hturn
          exact still rfl rfl
      | ok taken =>
          rw [hsnapshot] at polls
          obtain ⟨hturn, rfl⟩ := polls
          cases hturn
          cases hafter
          exact ⟨rfl, Outline.slot_modifyRun_self _ (f := fun r => { r with slot := ⟨some taken.1⟩ })
            (fun _ => rfl) hrun⟩
  | releaseTransaction number handle =>
      obtain ⟨rfl, rfl⟩ := hpermits
      simp only [Outline.Polls, hslot, TransactionSlot.release, if_true] at polls
      obtain ⟨-, rfl⟩ := polls
      cases hafter
      exact ⟨rfl, Outline.slot_modifyRun_self _ (f := fun r => { r with slot := .empty })
        (fun _ => rfl) hrun⟩
  | discardSnapshot handle => exact still rfl ((Custody.settled_polls polls (Or.inl rfl)).2.2.2 run)
  | restoreSnapshot handle => exact still rfl ((Custody.settled_polls polls (Or.inr rfl)).2.2.2 run)
  | closeRun => cases hafter
  | _ => exact still rfl ((polls.ledger fun hs => hs).2.2 run)

end Stage
end FlowEngine
