import FlowEngine.Proofs.Execution.Effectwise
import FlowEngine.Proofs.Program.History
import FlowEngine.Proofs.Scope.Frames

/-!
# Steps and the scope chain

However a sequence of steps ends, it leaves the scope chain as it found it: the frames that it
opened are closed, names were only added to the innermost frame, and what inner frames shadow
was not touched.
-/
namespace FlowEngine

open Exec Execution

namespace Scope

theorem Update.keeps {g : Scope → Scope} (h : Update g) {s : Scope} (hs : s.Rooted) :
    s.Keeps (g s) := by
  cases h with
  | assign name value => exact s.keeps_assign name value
  | declare bindings => exact keeps_declareAll bindings s
  | target target declare value =>
      unfold assignTo
      cases target with
      | field name => exact keeps_setStateField name value hs
      | binding name =>
          cases declare with
          | true => exact s.keeps_declareLocal name value
          | false => exact s.keeps_assign name value

/-- The scope chains that come about in runs: those of the inputs of a flow, with frames opened
and bindings declared in them, as sequences of steps leave them. -/
inductive Arises : Scope → Prop where
  | start (inputs : List (String × Json)) : Arises (ofBindings inputs)
  | enter {s : Scope} (h : Arises s) (kind : ScopeKind) (bindings : List Control.Binding) :
      Arises (Control.declareAll bindings (s.push kind))
  | update {s : Scope} (h : Arises s) {g : Scope → Scope} (hg : Update g) : Arises (g s)
  | record {s : Scope} (h : Arises s) (id : String) (output : Json) : Arises (s.recordOutput id output)
  | leave {s : Scope} (h : Arises s) : Arises s.leave

theorem Arises.rooted {s : Scope} (h : s.Arises) : s.Rooted := by
  induction h with
  | start inputs => exact rooted_ofBindings inputs
  | enter h kind bindings ih => exact rooted_enter kind bindings ih
  | update h hg ih => exact (hg.keeps ih).rooted ih
  | record h id output ih => exact (keeps_recordOutput id output ih).rooted ih
  | leave h ih => exact ⟨ih.state, ih.step⟩

end Scope

namespace Exec

variable {α β : Type}

def KeepsScope (x : Exec α) : Prop :=
  ∀ s : Scope, s.Arises → (x.on s).Ends fun p => s.Keeps p.2 ∧ p.2.Arises

namespace KeepsScope

theorem ofResult (r : Except Failure α) : (ofResult r).KeepsScope := by
  intro s hs
  rw [on_ofResult]
  exact ⟨.refl s, hs⟩

theorem pure (a : α) : (Pure.pure a : Exec α).KeepsScope := ofResult (.ok a)

theorem throw (f : Failure) : (MonadExcept.throw f : Exec α).KeepsScope := ofResult (.error f)

theorem bind {x : Exec α} {f : α → Exec β} (hx : x.KeepsScope) (hf : ∀ a, (f a).KeepsScope) :
    (x >>= f).KeepsScope := by
  intro s hs
  rw [on_bind]
  refine (hx s hs).bind ?_
  rintro ⟨r, s'⟩ ⟨hkeeps, hs'⟩
  cases r with
  | error f => exact ⟨hkeeps, hs'⟩
  | ok a => exact (hf a s' hs').mono fun p hp => ⟨hkeeps.trans hp.1, hp.2⟩

theorem ask (e : Effect) : (Exec.ask e).KeepsScope := fun s hs _ => ⟨.refl s, hs⟩

theorem ask_bind {e : Effect} {f : e.Answer → Exec α} (hf : ∀ a, (f a).KeepsScope) :
    (Exec.ask e >>= f).KeepsScope := (ask e).bind hf

theorem decided_bind {d : Scope → Except Control.Fault α} {f : α → Exec β}
    (hf : ∀ s a, d s = .ok a → (f a).KeepsScope) : (Exec.decided d >>= f).KeepsScope := by
  intro s hs
  rw [on_bind, on_decided, Program.bind_pure_left]
  cases hd : d s with
  | error fault => exact ⟨.refl s, hs⟩
  | ok a => exact hf s a hd s hs

theorem modify {g : Scope → Scope} (hg : ∀ s : Scope, s.Arises → s.Keeps (g s) ∧ (g s).Arises) :
    (modify g : Exec Unit).KeepsScope := hg

theorem outcome {x : Exec α} (hx : x.KeepsScope) : x.outcome.KeepsScope := by
  intro s hs
  rw [on_outcome]
  exact (hx s hs).bind fun p hp => hp

theorem inFrame {x : Exec α} (hx : x.KeepsScope) {enter : Scope → Scope}
    (henter : Scope.Entry enter) : (inFrame enter x).KeepsScope := by
  obtain ⟨kind, bindings⟩ := henter
  intro s hs
  rw [on_inFrame]
  refine (hx _ (hs.enter kind bindings)).bind fun p hp => ?_
  obtain ⟨f, hf⟩ := s.frames_enter kind bindings
  exact ⟨hp.1.leave hf, hp.2.leave⟩

end KeepsScope
end Exec

namespace Scope.Keeps

open KeepsScope

theorem withDeadline {ctx : Context} {attempt : Context → Exec Reached}
    (ha : ∀ ctx, (attempt ctx).KeepsScope) (id : String) (limit : Millis) :
    (withDeadline ctx id (some limit) attempt).KeepsScope := by
  refine ask_bind fun _ => ask_bind fun _ => (ha _).outcome.bind fun r => ask_bind fun _ => ?_
  cases r with
  | ok a => exact .pure a
  | error f =>
      refine ask_bind fun _ => ?_
      split
      · exact .throw _
      · exact .throw _

theorem effectwise : Effectwise fun _ x => x.KeepsScope where
  result r := .ofResult r
  alter hg := .modify fun _ hs => ⟨hg.keeps hs.rooted, hs.update hg⟩
  record id output := .modify fun _ hs =>
    ⟨keeps_recordOutput id output hs.rooted, hs.record id output⟩
  bind hx hf := hx.bind hf
  decide hf := decided_bind hf
  inFrame henter hb := hb.inFrame henter
  outcome hx := hx.outcome
  ask _ := .ask _
  join _ _ _ _ := .ask _
  deadline id limit ha := withDeadline ha id limit

end Scope.Keeps

/-- A sequence of steps closes every frame that it opens. It adds names to the innermost frame
only, and writes no binding that is shadowed, but for the flow-wide objects. -/
theorem sequence_keeps_scope {steps : List Step} {ctx : Context} {last : Json} {s s' : Scope}
    {r : Except Failure Json} {deeds : List Deed} (hs : s.Arises)
    (h : ((runSequence steps ctx last).on s).Follows deeds (.pure (r, s'))) : s.Keeps s' :=
  ((Scope.Keeps.effectwise.compositional.sequence steps ctx last s hs).of_follows h).1

/-- A step assigns to a name that is bound in two frames, and writes the inner one. -/
theorem sequence_keeps_scope_assigned : ∃ (steps : List Step) (ctx : Context) (s s' : Scope)
    (r : Except Failure Json) (deeds : List Deed), s.Arises ∧
      ((runSequence steps ctx .null).on s).Follows deeds (.pure (r, s')) ∧
      s'.lookup? "x" = some (.str "new") ∧ Fields.get? "x" s'.flow = some (.str "outer") ∧
      s.Keeps s' := by
  let steps := [Step.mk "set" (.assign "x" (.literal (.str "new")) false) none none]
  let ctx : Context := ⟨0, .root 0, none⟩
  let s := Control.declareAll [("x", .str "inner")]
    ((Scope.ofBindings [("x", .str "outer")]).push .step)
  let written := s.assign "x" (.str "new")
  have hs : s.Arises := Scope.Arises.enter (.start _) .step _
  have h : ((runSequence steps ctx .null).on s).Follows
      [⟨.isCancelled ctx.token, false⟩, ⟨.startSpan ctx "set", .ok ()⟩,
        ⟨.note 0 (.record ⟨"set", "set-variable", .completed, 1, none⟩), ()⟩,
        ⟨.endSpan ctx "set" .completed, .ok ()⟩]
      (.pure (.ok (.str "new"), written.recordOutput "set" (.str "new"))) :=
    .deed (.deed (.deed (.deed (.start _))))
  exact ⟨steps, ctx, s, _, _, _, hs, h, rfl, rfl, sequence_keeps_scope hs h⟩

end FlowEngine
