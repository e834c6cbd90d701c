import FlowEngine.Proofs.Execution.Twins
import FlowEngine.Proofs.Flow.Checks

/-!
# Isolable steps

A step is isolable if it waits for all that it starts, without deadlines and without a change of the
rows, and if the branches that it starts have no transactions in them. In any two runs such a step
does the same, also when its transactions take different snapshots.
-/
namespace FlowEngine

open Exec Execution

def Step.Isolable (s : Step) : Prop :=
  s.Patient ∧ (s.action.policy?.isSome → ∀ n ∈ Step.actionNodes s.action, n.NoTransaction)

structure Flow.Isolable (flow : Flow) : Prop where
  valid : flow.validate = .ok ()
  steps : ∀ s ∈ flow.nodes, s.Isolable

instance : DecidablePred Step.NoTransaction := fun ⟨_, action, _, _⟩ =>
  match action with
  | .transaction body onError => .isFalse fun h => h body onError rfl
  | .call _ _ | .record _ _ | .script _ _ | .assign _ _ _ | .conditional _ _ | .choose _ _ _
  | .guard _ _ | .repeatTimes _ _ _ | .repeatForEach _ _ _ _ | .forEach _ _ _ _ _ | .parallel _ _ =>
    .isTrue nofun

instance : DecidablePred Step.Isolable := fun s => inferInstanceAs (Decidable (s.Patient ∧
  (s.action.policy?.isSome → ∀ n ∈ Step.actionNodes s.action, n.NoTransaction)))

theorem Step.Patient.timeless {s : Step} (h : s.Patient) (hs : s.NoTransaction) : s.Timeless := by
  refine ⟨h.1, ?_⟩
  have ha := h.2
  cases haction : s.action with
  | record | forEach | parallel =>
      rw [haction] at ha
      exact ha
  | transaction body onError => exact absurd haction (hs body onError)
  | _ => trivial

namespace Exec.Twins

variable {reply : Request → Outcome} {script : StoreScript} {ctx ctx' : Context}

theorem settle {U : Role → Answers} (hU : Regular reply U) (role : Role) :
    Twins U role (settle ctx) (settle ctx') :=
  ask_bind hU rfl nofun ⟨.ok 0, trivial⟩ ⟨.ok 0, trivial⟩ fun _ _ _ _ => value _

theorem commit (handle handle' : String) : Twins (Effect.Expected reply script) .owner
    (commit ctx handle) (commit ctx' handle') := by
  refine expect rfl ⟨.ok (), rfl⟩ ⟨.ok (), rfl⟩ ?_
  rintro _ _ rfl rfl
  refine bind (value ()) fun _ => expect rfl ⟨_, rfl⟩ ⟨_, rfl⟩ ?_
  rintro _ _ rfl rfl
  exact ofResult _

theorem rollback (handle handle' : String) : Twins (Effect.Expected reply script) .owner
    (rollback ctx handle) (rollback ctx' handle') := by
  refine expect rfl ⟨.ok (), rfl⟩ ⟨.ok (), rfl⟩ ?_
  rintro _ _ rfl rfl
  refine expect rfl ⟨_, rfl⟩ ⟨_, rfl⟩ ?_
  rintro _ _ rfl rfl
  exact value _

variable {handler handler' : Option (Exec Json)}
  (hh : Option.Rel (Twins (Effect.Expected reply script) .owner) handler handler') (id : String)
include hh

theorem recover (f : Failure) : Twins (Effect.Expected reply script) .owner
    (recover ctx id handler f) (recover ctx' id handler' f) := by
  cases hh with
  | none => exact fails f
  | some h =>
      refine bind (h.boundary (.of_expected reply script) id f) fun handled => ?_
      exact expect rfl ⟨(), trivial⟩ ⟨(), trivial⟩ fun _ _ _ _ => value _

theorem undo (handle handle' : String) (f : Failure) : Twins (Effect.Expected reply script) .owner
    (undo ctx id handle handler f) (undo ctx' id handle' handler' f) := by
  refine bind (settle (.of_expected reply script) .owner) fun _ => bind (rollback handle handle') ?_
  rintro (e | _)
  · exact fails _
  · exact note (.of_expected reply script) nofun (recover hh id _)

theorem enclose {body body' : Exec Json} (hb : Twins (Effect.Expected reply script) .owner body body')
    (handle handle' : String) : Twins (Effect.Expected reply script) .owner
      (enclose ctx id handle body handler) (enclose ctx' id handle' body' handler') := by
  refine bind (hb.inFrame _).outcome ?_
  rintro (f | output)
  · exact undo hh id handle handle' f
  · exact bind (commit handle handle') fun _ => value _

theorem transaction {body body' : Exec Json}
    (hb : Twins (Effect.Expected reply script) .owner body body') :
    Twins (Effect.Expected reply script) .owner (transaction ctx id body handler)
      (transaction ctx' id body' handler') := by
  refine bind (settle (.of_expected reply script) .owner) fun _ => ?_
  have hanswer : ∃ begun, script.Opens begun := by
    cases htext : script.snapshotError with
    | none => exact ⟨.ok "", htext⟩
    | some text => exact ⟨.error (.store text), text, htext, rfl⟩
  refine expect rfl hanswer hanswer fun begun begun' h h' => ?_
  cases begun with
  | ok handle =>
      cases begun' with
      | ok handle' => exact enclose hh id hb handle handle'
      | error e =>
          obtain ⟨text, htext, -⟩ := h'
          cases htext.symm.trans h
  | error e =>
      obtain ⟨text, htext, rfl⟩ := h
      cases begun' with
      | ok handle' => cases htext.symm.trans h'
      | error e' =>
          obtain ⟨text', htext', rfl⟩ := h'
          cases htext.symm.trans htext'
          exact fails _

end Exec.Twins

/-- In scopes without a deadline for attempts, isolable steps are twins. -/
theorem Flow.Isolable.alike {flow : Flow} (h : flow.Isolable) (reply : Request → Outcome)
    (script : StoreScript) : flow.Alike (Effect.Expected reply script) := by
  intro steps ctx ctx' hnodes hctx hctx'
  refine (Step.coherent_twins (.of_expected reply script) .owner And.left
    (fun {s policy body} fits hpolicy hbody _ ctx ctx' hlimit hlimit' => ?_)
    fun _ _ hb hh => .transaction hh _ hb).sequence steps (fun n hn => h.steps n (hnodes n hn)) ctx ctx'
      .null hctx hctx'
  have hbranches := fits.2 (Option.isSome_of_eq_some hpolicy)
  exact Step.Timeless.twins (.of_expected reply script)
    (fun n hn => (hbody n hn).2.1.timeless (hbranches n (hbody n hn).1)) .branch hlimit hlimit'

namespace Execution

variable {config : Config} {flow : Flow} {reply : Request → Outcome} {script : StoreScript}
  (hflow : flow.Isolable) (hrun : config.runTimeout = none) (hstep : config.stepTimeout = none)
  (inputs : List (String × Json)) (parent parent' : Token)
include hflow hrun hstep

theorem run_twin : Program.Twin (Effect.Expected reply script) .owner RunResult.Agrees
    (run config flow inputs parent) (run config flow inputs parent') := by
  rw [run_eq_perform, run_eq_perform]
  exact .deed rfl ⟨(0, parent), trivial⟩ ⟨(0, parent), trivial⟩ fun opened opened' _ _ =>
    afterOpening_twin (.of_expected reply script) (hflow.alike reply script) hrun hrun hstep hstep inputs
      opened opened'

/-- So do two submitted ones, however long they wait for their slots. -/
theorem submitted_twin : Program.Twin (Effect.Expected reply script) .owner RunResult.Agrees
    (submitted config flow inputs parent) (submitted config flow inputs parent') := by
  rw [submitted_eq, submitted_eq]
  refine .deed rfl ⟨(), trivial⟩ ⟨(), trivial⟩ fun _ _ _ _ =>
    (run_twin hflow hrun hstep inputs parent parent').bind fun r r' hr => ?_
  exact .deed rfl ⟨(), trivial⟩ ⟨(), trivial⟩ fun _ _ _ _ => .pure hr

end Execution
end FlowEngine
