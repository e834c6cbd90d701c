import FlowEngine.Proofs.Execution.Flow
import FlowEngine.Proofs.Execution.Keeping
import FlowEngine.Proofs.Session.Discipline

/-!
# Runs and branches under a discipline

A discipline frames runs when it lets a task open a run, settle its branches and
close it. If the steps of a run keep an invariant of its places, then the program of the run obeys
the discipline. It hosts runs when all steps do so: then the programs of runs, submitted or not,
and those of branches obey it.
-/
namespace FlowEngine

open Exec Execution

variable {σ : Type}

namespace Discipline

def KeepsSteps (D : Discipline σ) (J : Context → σ → Prop) (steps : List Step) : Prop :=
  ∀ ctx last, (runSequence steps ctx last).Keeps D.protocol (J ctx) fun _ => False

/-- How the places of a discipline go through a run around its steps: `J` holds at the places inside
of it, `ready` at those where it may be closed and `done` after that, with the result of the run. -/
structure Frames (D : Discipline σ) (J ready : Context → σ → Prop) (done : σ → RunResult → Prop) :
    Prop where
  plain {ctx : Context} {u : σ} {e : Effect} : Plain ctx e → J ctx u →
    D.protocol.allows u e ∧ ∀ a v, D.protocol.moves u e a v → J ctx v
  opens (flow : String) (parent : Token) : D.protocol.allows D.root (.openRun flow parent) ∧
    ∀ a u, D.protocol.moves D.root (.openRun flow parent) a u → ∀ limit, J ⟨a.1, a.2, limit⟩ u
  settles {ctx : Context} {u : σ} : J ctx u ∨ ready ctx u →
    D.protocol.allows u (.settle ctx.run none) ∧
      ∀ a v, D.protocol.moves u (.settle ctx.run none) a v → ready ctx v
  stops {ctx : Context} {u : σ} (deadline : Nat) : ready ctx u →
    D.protocol.allows u (.stopDeadline deadline) ∧
      ∀ a v, D.protocol.moves u (.stopDeadline deadline) a v → J ctx v
  looks {ctx : Context} {u : σ} : ready ctx u →
    D.protocol.allows u (.isCancelled ctx.token) ∧
      ∀ a v, D.protocol.moves u (.isCancelled ctx.token) a v → J ctx v
  closes {ctx : Context} {u : σ} (ending : Ending) (outputs : List (String × Json)) :
    ready ctx u → D.protocol.allows u (.closeRun ctx.run ending outputs) ∧
      ∀ a v, D.protocol.moves u (.closeRun ctx.run ending outputs) a v → done v a

namespace Frames

variable {D : Discipline σ} {J ready : Context → σ → Prop} {done : σ → RunResult → Prop}
  (H : D.Frames J ready done) {ctx : Context} {u : σ}
include H

theorem settleAll (hu : J ctx u ∨ ready ctx u) :
    (settleAll ctx).Obeys D.protocol (fun v _ => ready ctx v) u := by
  obtain ⟨hallows, hmoves⟩ := H.settles hu
  exact ⟨hallows, hmoves⟩

theorem startRunDeadline (limit : Option UInt64) (hu : J ctx u) :
    (startRunDeadline ctx.token limit).Obeys D.protocol (fun v _ => J ctx v) u := by
  cases limit with
  | none => exact hu
  | some limit => exact H.plain (.startDeadline _ _) hu

theorem stopRunDeadline (deadline : Option Nat) (hu : ready ctx u) :
    (stopRunDeadline deadline).Obeys D.protocol (fun v _ => J ctx v ∨ ready ctx v) u := by
  cases deadline with
  | none => exact Or.inr hu
  | some deadline =>
      obtain ⟨hallows, hmoves⟩ := H.stops deadline hu
      exact ⟨hallows, fun a v hmove => Or.inl (hmoves a v hmove)⟩

theorem boundary {handler : List Step} (hh : D.KeepsSteps J handler) (name : String) (f : Failure) :
    (boundary ctx name (runSequence handler ctx .null) f).Keeps D.protocol (J ctx)
      fun _ => False := by
  unfold Execution.boundary
  split
  · intro u hu
    obtain ⟨hallows, hmoves⟩ := H.plain (.note (.boundary name f)) hu
    refine obeys_bind (obeys_ask.mpr ⟨hallows, fun a v hmove => ?_⟩)
    refine ((hh ctx .null).inFrame _).outcome_bind
      (fun result => keeps_ofResult _) (fun _ _ h => h.elim) v (hmoves a v hmove)
  · exact keeps_throw _

section

variable {flow : Flow} (hhandler : ∀ handler ∈ flow.onError, D.KeepsSteps J handler)
include hhandler

theorem handleFailure (limit : Option UInt64) (timedOut : Bool) (f : Failure) (s : Scope)
    (hu : J ctx u) :
    (handleFailure flow ctx limit timedOut f s).Obeys D.protocol (fun v _ => J ctx v) u := by
  rw [handleFailure_eq]
  cases hflow : flow.onError with
  | none => exact hu
  | some handler =>
      refine Program.obeys_bind.mpr (((H.boundary (hhandler handler hflow) flow.name f).obeys
        (fun _ h => h) hu s).mono fun v p hv => ?_)
      obtain ⟨r, s'⟩ := p
      cases r with
      | ok handled => exact H.plain (.note _) hv
      | error escaped => exact hv

theorem endAfter (limit : Option UInt64) (timedOut : Bool) (f : Failure) (s : Scope)
    (hu : J ctx u ∨ ready ctx u) :
    (endAfter flow ctx limit timedOut f s).Obeys D.protocol (fun v _ => J ctx v) u := by
  have hlook : D.protocol.allows u (.isCancelled ctx.token) ∧
      ∀ a v, D.protocol.moves u (.isCancelled ctx.token) a v → J ctx v := by
    rcases hu with hu | hu
    · exact H.plain .isCancelled hu
    · exact H.looks hu
  rw [endAfter_eq]
  refine ⟨hlook.1, fun cancelled v hmove => ?_⟩
  have hv := hlook.2 cancelled v hmove
  change (if (f.isCancellation || cancelled) = true then _ else _ :
    Program (Ending × Scope)).Obeys D.protocol (fun v _ => J ctx v) v
  split
  · exact hv
  · exact H.handleFailure hhandler limit timedOut f s hv

theorem conclude (config : Config) (deadline : Option Nat) (p : Except Failure Json × Scope)
    (hu : J ctx u) :
    (conclude config flow ctx deadline p).Obeys D.protocol done u := by
  obtain ⟨result, s⟩ := p
  rw [conclude_eq_ended]
  refine Program.obeys_bind.mpr ((H.settleAll (Or.inl hu)).mono fun v _ hv => ?_)
  refine Program.obeys_bind.mpr ((H.stopRunDeadline deadline hv).mono fun v timedOut hv => ?_)
  have hended : (ended config flow ctx timedOut s result).Obeys D.protocol
      (fun v _ => J ctx v ∨ ready ctx v) v := by
    cases result with
    | ok value => exact hv
    | error f =>
        exact (H.endAfter hhandler config.runTimeout timedOut f s hv).mono fun _ _ => Or.inl
  refine Program.obeys_bind.mpr (hended.mono fun v ended hv => ?_)
  refine Program.obeys_bind.mpr ((H.settleAll hv).mono fun v _ hv => ?_)
  exact H.closes ended.1 ended.2.flow hv

/-- The program of a run obeys a discipline if its steps and those of its handler keep to it. -/
theorem run (hsteps : D.KeepsSteps J flow.steps) (config : Config) (inputs : List (String × Json))
    (parent : Token) : (run config flow inputs parent).Obeys D.protocol done D.root := by
  rw [run_eq]
  obtain ⟨hallows, hmoves⟩ := H.opens flow.name parent
  refine ⟨hallows, fun opened u hmove => ?_⟩
  have hu := hmoves opened u hmove config.stepTimeout
  refine Program.obeys_bind.mpr ((H.startRunDeadline config.runTimeout hu).mono
    fun v deadline hv => ?_)
  refine Program.obeys_bind.mpr (((hsteps _ .null).obeys (fun _ h => h) hv _).mono
    fun v p hv => ?_)
  exact H.conclude hhandler config deadline p hv

end

end Frames

/-- A discipline hosts runs if every step keeps to it, and if it lets runs be submitted and waited
for. -/
structure Hosts (D : Discipline σ) (J ready : Context → σ → Prop) (done : σ → RunResult → Prop) :
    Prop extends Frames D J ready done where
  sequence (steps : List Step) : D.KeepsSteps J steps
  acquires : D.protocol.allows D.root .acquireSlot ∧
    ∀ a v, D.protocol.moves D.root .acquireSlot a v → v = D.root
  releases {u : σ} {result : RunResult} : done u result → D.protocol.allows u .releaseSlot ∧
    ∀ a v, D.protocol.moves u .releaseSlot a v → done v result
  ends {u : σ} {result : RunResult} : done u result → D.final u
  awaits (submission : Nat) : D.protocol.allows D.root (.awaitRun submission) ∧
    ∀ a v, D.protocol.moves D.root (.awaitRun submission) a v → D.final v

namespace Hosts

variable {D : Discipline σ} {J ready : Context → σ → Prop} {done : σ → RunResult → Prop}
  (H : D.Hosts J ready done) {ctx : Context} {u : σ}
include H

theorem run (config : Config) (flow : Flow) (inputs : List (String × Json)) (parent : Token) :
    (run config flow inputs parent).Obeys D.protocol done D.root :=
  H.toFrames.run (fun handler _ => H.sequence handler) (H.sequence flow.steps) config inputs parent

theorem submitted (config : Config) (flow : Flow) (inputs : List (String × Json))
    (parent : Token) : D.Obeys (submitted config flow inputs parent) D.root := by
  rw [submitted_eq]
  refine ⟨H.acquires.1, fun a u hmove => ?_⟩
  rw [H.acquires.2 a u hmove]
  refine Program.obeys_bind.mpr ((H.run config flow inputs parent).mono fun v result hv => ?_)
  obtain ⟨hallows, hmoves⟩ := H.releases hv
  exact ⟨hallows, fun a v hmove => H.ends (hmoves a v hmove)⟩

theorem errand {config : Config} {p : Program RunResult} (h : System.Errand config p) :
    D.Obeys p D.root := by
  cases h with
  | run flow inputs token => exact (H.run config flow inputs token).mono fun _ _ => H.ends
  | await submission => exact H.awaits submission

end Hosts
end Discipline

theorem Branch.obeys_of_keeps {P : Protocol σ} {I J : σ → Prop} {u : σ} {ctx : Context}
    {body : List Step} (h : (runSequence body ctx .null).Keeps P I J) (hJ : ∀ u, ¬ J u)
    (scope : Scope) (collect : Option Expr) (hu : I u) :
    (Branch.steps ctx scope body collect).program.Obeys P (fun v _ => I v) u := by
  refine Program.obeys_bind.mpr ((h.obeys hJ hu scope).mono fun v p hv => ?_)
  obtain ⟨r, s⟩ := p
  cases r <;> cases collect <;> exact hv

end FlowEngine
