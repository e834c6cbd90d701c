import FlowEngine.Proofs.Execution.Effectwise
import FlowEngine.Proofs.Execution.Flow
import FlowEngine.Proofs.Machine.Signals
import FlowEngine.Proofs.Session.Log

/-!
# Deadlines

A task stops no deadline that was not started: the numbers of deadlines come from the answers
to those who started them.
-/
namespace FlowEngine

open Exec Execution

namespace Program

variable {α β : Type}

/-- Whatever the answers are, a program stops no deadlines but known ones and those that it has
started itself. -/
def Redeems (known : Nat → Prop) : Program α → Prop
  | pure _ => True
  | perform e next => (∀ d, e = .stopDeadline d → known d) ∧
      ∀ a, (next a).Redeems fun d => known d ∨ e.Starts a d

theorem Redeems.mono {known more : Nat → Prop} {p : Program α} (h : p.Redeems known)
    (hmore : ∀ d, known d → more d) : p.Redeems more := by
  induction p generalizing known more with
  | pure a => trivial
  | perform e next ih =>
      exact ⟨fun d hd => hmore d (h.1 d hd), fun a => ih a (h.2 a) fun d => Or.imp_left (hmore d)⟩

theorem Redeems.bind {known : Nat → Prop} {p : Program α} {f : α → Program β} (hp : p.Redeems known)
    (hf : ∀ a, (f a).Redeems known) : (p.bind f).Redeems known := by
  induction p generalizing known with
  | pure a => exact hf a
  | perform e next ih =>
      exact ⟨hp.1, fun a => ih a (hp.2 a) fun b => (hf b).mono fun d => Or.inl⟩

/-- What is left of a program stops known deadlines and those that were started on the way. -/
theorem Redeems.follow {known more : Nat → Prop} {p q : Program α} {h : List Deed}
    (hp : p.Redeems known) (hf : p.Follows h q) (hknown : ∀ d, known d → more d)
    (hstarted : ∀ x ∈ h, ∀ d, x.effect.Starts x.answer d → more d) : q.Redeems more := by
  induction hf generalizing known with
  | start p => exact hp.mono hknown
  | deed tail ih =>
      refine ih (hp.2 _) (fun d hd => hd.elim (hknown d) ?_) fun x hx =>
        hstarted x (List.mem_cons_of_mem _ hx)
      exact hstarted _ List.mem_cons_self d

end Program

namespace Exec

variable {α β : Type} {known : Nat → Prop}

/-- Wherever it starts, a program stops no deadlines but known ones and its own. -/
def Redeems (known : Nat → Prop) (x : Exec α) : Prop := ∀ s, (x.on s).Redeems known

namespace Redeems

theorem ofResult (r : Except Failure α) : (ofResult r).Redeems known := by
  intro s
  rw [on_ofResult]
  trivial

theorem pure (a : α) : (Pure.pure a : Exec α).Redeems known := ofResult (.ok a)

theorem throw (f : Failure) : (MonadExcept.throw f : Exec α).Redeems known := ofResult (.error f)

theorem bind {x : Exec α} {f : α → Exec β} (hx : x.Redeems known) (hf : ∀ a, (f a).Redeems known) :
    (x >>= f).Redeems known := by
  intro s
  rw [on_bind]
  refine (hx s).bind fun p => ?_
  obtain ⟨r, s'⟩ := p
  cases r with
  | error f => trivial
  | ok a => exact hf a s'

theorem ask_bind {e : Effect} {f : e.Answer → Exec α} (he : ∀ d, e = .stopDeadline d → known d)
    (hf : ∀ a, (f a).Redeems fun d => known d ∨ e.Starts a d) :
    (Exec.ask e >>= f).Redeems known := by
  intro s
  rw [on_bind]
  exact ⟨he, fun a => hf a s⟩

theorem outcome {x : Exec α} (hx : x.Redeems known) : x.outcome.Redeems known := by
  intro s
  rw [on_outcome]
  exact (hx s).bind fun _ => trivial

theorem withDeadline {ctx : Context} {attempt : Context → Exec Reached}
    (ha : ∀ ctx known, (attempt ctx).Redeems known) (id : String) (limit : Millis) :
    (withDeadline ctx id (some limit) attempt).Redeems known := by
  refine ask_bind nofun fun token => ask_bind nofun fun deadline => ?_
  refine (ha _ _).outcome.bind fun result => ask_bind ?_ fun passed => ?_
  · rintro d ⟨⟩
    exact Or.inr rfl
  · cases result with
    | ok a => exact .pure a
    | error f =>
        refine ask_bind nofun fun outer => ?_
        split
        · exact .throw _
        · exact .throw _

theorem effectwise : Effectwise fun _ x => ∀ known, x.Redeems known where
  result r _ := ofResult r
  alter _ _ _ := trivial
  record _ _ _ _ := trivial
  bind hx hf known := (hx known).bind fun a => hf a known
  decide {β γ d f} hf known := by
    intro s
    rw [on_bind, on_decided, Program.bind_pure_left]
    cases hd : d s with
    | error fault => trivial
    | ok a => exact hf s a hd known s
  inFrame {β enter body} _ hb known := by
    intro s
    rw [on_inFrame]
    exact (hb known (enter s)).bind fun _ => trivial
  outcome hx known := (hx known).outcome
  ask he known s := by
    refine ⟨?_, fun _ => trivial⟩
    rintro d rfl
    exact he.elim
  join run policy group bs known s := ⟨nofun, fun _ => trivial⟩
  deadline id limit ha _ := withDeadline ha id limit

theorem sequence (steps : List Step) (ctx : Context) (last : Json) :
    (runSequence steps ctx last).Redeems known :=
  effectwise.compositional.sequence steps ctx last known

end Redeems
end Exec

/-! ## Runs -/

namespace Execution

variable {known : Nat → Prop}

theorem redeems_settleAll (ctx : Context) : (settleAll ctx).Redeems known := ⟨nofun, fun _ => trivial⟩

theorem redeems_endAfter (flow : Flow) (ctx : Context) (limit : Option UInt64) (timedOut : Bool)
    (f : Failure) (s : Scope) : (endAfter flow ctx limit timedOut f s).Redeems known := by
  rw [endAfter_eq]
  refine ⟨nofun, fun (cancelled : Bool) => ?_⟩
  dsimp only
  split
  · trivial
  · rw [handleFailure_eq]
    cases flow.onError with
    | none => trivial
    | some handler =>
        have hhandler (known : Nat → Prop) :
            (boundary ctx flow.name (runSequence handler ctx .null) f).Redeems known :=
          Redeems.effectwise.boundary (fun known => Redeems.sequence handler ctx .null) flow.name f known
        refine (hhandler _ s).bind fun p => ?_
        obtain ⟨r, s'⟩ := p
        cases r with
        | ok handled => exact ⟨nofun, fun _ => trivial⟩
        | error escaped => trivial

theorem redeems_conclude (config : Config) (flow : Flow) (ctx : Context) {deadline : Option Nat}
    (hdeadline : ∀ d, deadline = some d → known d) (p : Except Failure Json × Scope) :
    (conclude config flow ctx deadline p).Redeems known := by
  obtain ⟨result, s⟩ := p
  rw [conclude_eq]
  refine (redeems_settleAll ctx).bind fun _ => Program.Redeems.bind ?_ fun timedOut => ?_
  · cases deadline with
    | none => trivial
    | some d => exact ⟨by rintro _ ⟨⟩; exact hdeadline d rfl, fun _ => trivial⟩
  · refine Program.Redeems.bind ?_ fun ended => ?_
    · cases result with
      | ok value => trivial
      | error f => exact redeems_endAfter flow ctx config.runTimeout timedOut f s
    · exact (redeems_settleAll ctx).bind fun _ => ⟨nofun, fun _ => trivial⟩

theorem redeems_run (config : Config) (flow : Flow) (inputs : List (String × Json))
    (parent : Token) : (run config flow inputs parent).Redeems known := by
  rw [run_eq]
  refine ⟨nofun, fun opened => ?_⟩
  have hrest (deadline : Option Nat) (known : Nat → Prop) (hd : ∀ d, deadline = some d → known d) :
      (((runSequence flow.steps ⟨opened.1, opened.2, config.stepTimeout⟩ .null).on
        (Scope.ofBindings inputs)).bind
          (conclude config flow ⟨opened.1, opened.2, config.stepTimeout⟩ deadline)).Redeems known :=
    (Redeems.sequence flow.steps _ .null _).bind fun p => redeems_conclude config flow _ hd p
  cases config.runTimeout with
  | none => exact hrest none _ nofun
  | some limit =>
      refine ⟨nofun, fun deadline => hrest (some deadline) _ ?_⟩
      rintro d ⟨⟩
      exact Or.inr rfl

end Execution

theorem Begins.redeems {config : Config} {t : TaskId} {p : Program t.Result} {known : Nat → Prop}
    (h : Begins config t p) : p.Redeems known := by
  cases h with
  | errand errand =>
      cases errand with
      | run flow inputs token => exact redeems_run config flow inputs token
      | await submission => exact ⟨nofun, fun _ => trivial⟩
  | submission number flow inputs token =>
      rw [submitted_eq]
      refine ⟨nofun, fun _ => (redeems_run config flow inputs token).bind fun _ => ?_⟩
      exact ⟨nofun, fun _ => trivial⟩
  | branch number b =>
      cases b with
      | steps ctx scope body collect =>
          refine (Redeems.sequence body ctx .null scope).bind fun p => ?_
          obtain ⟨r, s⟩ := p
          cases r <;> cases collect <;> trivial
      | timed observed delay result =>
          refine ⟨nofun, fun (waited : Bool) => ?_⟩
          cases waited <;> trivial

def DeadlinesOf (t : TaskId) (log : List Occurrence) (deadline : Nat) : Prop :=
  ∃ e a m m', .poll ⟨t, e, some a, m, m'⟩ ∈ log ∧ e.Starts a deadline

theorem DeadlinesOf.append {t : TaskId} {log : List Occurrence} {d : Nat} (h : DeadlinesOf t log d)
    (more : List Occurrence) : DeadlinesOf t (log ++ more) d := by
  obtain ⟨e, a, m, m', hm, hd⟩ := h
  exact ⟨e, a, m, m', List.mem_append_left _ hm, hd⟩

def Deadlines (log : List Occurrence) (deadline : Nat) : Prop :=
  ∃ t e a m m', .poll ⟨t, e, some a, m, m'⟩ ∈ log ∧ e.Starts a deadline

/-- All that a task stops are deadlines that it has started itself. -/
theorem Session.redeems_own {config : Config} {log : List Occurrence} {s : System RunResult}
    (h : Session config log s) {t : TaskId} {p : Program t.Result} (ht : s.At t p) :
    p.Redeems (DeadlinesOf t log) := by
  refine h.comes_to (P := fun log p => p.Redeems (DeadlinesOf t log)) Begins.redeems
    (fun {log more o o' p q w} adv hp hredeems hf => ?_) ht
  refine hredeems.follow hf (fun d hd => hd.append more) fun x hx d hd => ?_
  obtain ⟨m, m', hm⟩ := mem_of_deed hx
  exact ⟨x.effect, x.answer, m, m', List.mem_append_right _ hm, hd⟩

/-- All that a task stops are deadlines that were started. -/
theorem Session.redeems {config : Config} {log : List Occurrence} {s : System RunResult}
    (h : Session config log s) {t : TaskId} {p : Program t.Result} (ht : s.At t p) :
    p.Redeems (Deadlines log) :=
  (h.redeems_own ht).mono fun _ hd => ⟨t, hd⟩

end FlowEngine
