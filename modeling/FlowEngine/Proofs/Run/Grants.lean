import FlowEngine.Proofs.Execution.Effectwise
import FlowEngine.Proofs.Execution.Flow
import FlowEngine.Proofs.Session.Log
import FlowEngine.Proofs.Session.Polled

/-!
# Tokens that tasks were granted

A task cancels a token, at once or later, only if the last answer that it got has granted it the
token. So a token is given to one deadline or one join at most.
-/
namespace FlowEngine

open Exec Execution

inductive Grant where
  | run (token : Token)
  | part (token : Token)

def Grant.token : Grant → Token
  | run token | part token => token

def Effect.grants : (e : Effect) → e.Answer → Option Grant
  | .childToken _, token => some (.part token)
  | .openRun _ _, opened => some (.run opened.2)
  | _, _ => none

def Effect.cancels : Effect → Option Token
  | .startDeadline token _ | .join _ _ token _ => some token
  | _ => none

/-- The state is what the last answer has granted. A deadline may be given any token that was just
granted, and a join one for a part of a run. -/
def granting : Protocol (Option Grant) where
  allows held e := match e with
    | .startDeadline token _ => ∃ g, held = some g ∧ g.token = token
    | .join _ _ token _ => held = some (.part token)
    | _ => True
  moves _ e answer held := held = e.grants answer

theorem granting_allows {held : Option Grant} {e : Effect} (h : e.cancels = none) :
    granting.allows held e := by
  cases e <;> trivial

namespace Program

variable {α β : Type}

/-- Whatever was granted before, a program only cancels what it is granted. -/
def Careful (p : Program α) : Prop := ∀ held, p.Obeys granting (fun _ _ => True) held

theorem Careful.pure (a : α) : (pure a).Careful := fun _ => trivial

theorem Careful.granted {held : Option Grant} {e : Effect} {next : e.Answer → Program α}
    (he : granting.allows held e) (hnext : ∀ a, (next a).Careful) :
    (Program.perform e next).Obeys granting (fun _ _ => True) held :=
  ⟨he, fun a granted _ => hnext a granted⟩

theorem Careful.perform {e : Effect} {next : e.Answer → Program α} (he : e.cancels = none)
    (hnext : ∀ a, (next a).Careful) : (perform e next).Careful :=
  fun _ => Careful.granted (granting_allows he) hnext

theorem Careful.bind {p : Program α} {f : α → Program β} (hp : p.Careful)
    (hf : ∀ a, (f a).Careful) : (p.bind f).Careful :=
  fun held => obeys_bind.mpr ((hp held).mono fun granted a _ => hf a granted)

end Program

namespace Exec

variable {α β : Type}

/-- Wherever it starts, a program only cancels what it is granted. -/
def Careful (x : Exec α) : Prop := ∀ s, (x.on s).Careful

namespace Careful

theorem ofResult (r : Except Failure α) : (ofResult r).Careful := by
  intro s
  rw [on_ofResult]
  exact .pure _

theorem bind {x : Exec α} {f : α → Exec β} (hx : x.Careful) (hf : ∀ a, (f a).Careful) :
    (x >>= f).Careful := by
  intro s
  rw [on_bind]
  refine (hx s).bind fun p => ?_
  obtain ⟨r, s'⟩ := p
  cases r with
  | error f => exact .pure _
  | ok a => exact hf a s'

theorem outcome {x : Exec α} (hx : x.Careful) : x.outcome.Careful := by
  intro s
  rw [on_outcome]
  exact (hx s).bind fun _ => .pure _

theorem ask {e : Effect} (he : e.cancels = none) : (ask e).Careful :=
  fun _ => .perform he fun _ => .pure _

theorem ask_bind {e : Effect} {f : e.Answer → Exec α} (he : e.cancels = none)
    (hf : ∀ a, (f a).Careful) : (Exec.ask e >>= f).Careful :=
  (ask he).bind hf

theorem grant {e : Effect} {f : e.Answer → Exec α} (he : e.cancels = none)
    (hf : ∀ a s, ((f a).on s).Obeys granting (fun _ _ => True) (e.grants a)) :
    (Exec.ask e >>= f).Careful := by
  intro s held
  rw [on_bind]
  refine ⟨granting_allows he, ?_⟩
  rintro a _ rfl
  exact hf a s

/-- A program that was just granted a token may cancel it. -/
theorem spend {e : Effect} {f : e.Answer → Exec α} {held : Option Grant}
    (he : granting.allows held e) (hf : ∀ a, (f a).Careful) (s : Scope) :
    ((Exec.ask e >>= f).on s).Obeys granting (fun _ _ => True) held := by
  rw [on_bind]
  exact Program.Careful.granted he fun a => hf a s

/-- An attempt under a deadline cancels the token that it was granted for that. -/
theorem withDeadline {ctx : Context} {attempt : Context → Exec Reached}
    (ha : ∀ ctx, (attempt ctx).Careful) (id : String) (limit : Millis) :
    (withDeadline ctx id (some limit) attempt).Careful := by
  refine grant rfl fun token s => spend (by exact ⟨_, rfl, rfl⟩) (fun deadline => ?_) s
  refine (ha _).outcome.bind fun result => ask_bind rfl fun (passed : Bool) => ?_
  cases result with
  | ok a => exact ofResult (.ok a)
  | error f =>
      refine ask_bind rfl fun (outer : Bool) => ?_
      split
      · exact ofResult (.error _)
      · exact ofResult (.error _)

theorem fanOut {ctx : Context} {branches : Context → Scope → Except Control.Fault (List Branch)}
    (id : String) (policy : JoinPolicy) : (fanOut ctx id policy branches).Careful := by
  refine grant rfl fun token s => ?_
  rw [on_bind, on_decided, Program.bind_pure_left]
  cases branches { ctx with token } s with
  | error fault => trivial
  | ok bs =>
      refine spend (by exact rfl) (fun joined => ?_) s
      refine (ofResult joined).bind fun _ => ask_bind rfl fun (cancelled : Bool) => ?_
      cases cancelled with
      | true => exact ofResult (.error _)
      | false => exact ofResult (.ok _)

theorem routine : Routine fun _ x => x.Careful where
  result r := ofResult r
  alter _ _ := .pure _
  record _ _ _ := .pure _
  bind hx hf := hx.bind hf
  decide {β γ d f} hf s := by
    rw [on_bind, on_decided, Program.bind_pure_left]
    cases hd : d s with
    | error fault => exact .pure _
    | ok a => exact hf s a hd s
  inFrame {β enter body} _ hb s := by
    rw [on_inFrame]
    exact (hb (enter s)).bind fun _ => .pure _
  outcome hx := hx.outcome
  ask {e} he := ask (by cases e <;> first | rfl | exact he.elim)
  deadline id limit ha := withDeadline ha id limit

theorem sequence (steps : List Step) (ctx : Context) (last : Json) :
    (runSequence steps ctx last).Careful :=
  (routine.compositional fun id policy => fanOut id policy).sequence steps ctx last

end Careful
end Exec

/-! ## Runs -/

namespace Execution

theorem careful_settleAll (ctx : Context) : (settleAll ctx).Careful :=
  .perform rfl fun _ => .pure _

theorem careful_endAfter (flow : Flow) (ctx : Context) (limit : Option UInt64) (timedOut : Bool)
    (f : Failure) (s : Scope) : (endAfter flow ctx limit timedOut f s).Careful := by
  rw [endAfter_eq]
  refine .perform rfl fun (cancelled : Bool) => ?_
  split
  · exact .pure _
  · rw [handleFailure_eq]
    cases flow.onError with
    | none => exact .pure _
    | some handler =>
        have hhandler : (boundary ctx flow.name (runSequence handler ctx .null) f).Careful :=
          Careful.routine.boundary (Careful.sequence handler ctx .null) flow.name f
        refine (hhandler s).bind fun p => ?_
        obtain ⟨r, s'⟩ := p
        cases r with
        | ok handled => exact .perform rfl fun _ => .pure _
        | error escaped => exact .pure _

theorem careful_conclude (config : Config) (flow : Flow) (ctx : Context) (deadline : Option Nat)
    (p : Except Failure Json × Scope) : (conclude config flow ctx deadline p).Careful := by
  obtain ⟨result, s⟩ := p
  rw [conclude_eq]
  refine (careful_settleAll ctx).bind fun _ => Program.Careful.bind ?_ fun timedOut => ?_
  · cases deadline with
    | none => exact .pure _
    | some d => exact .perform rfl fun _ => .pure _
  · refine Program.Careful.bind ?_ fun ended => ?_
    · cases result with
      | ok value => exact .pure _
      | error f => exact careful_endAfter flow ctx config.runTimeout timedOut f s
    · exact (careful_settleAll ctx).bind fun _ => .perform rfl fun _ => .pure _

theorem careful_run (config : Config) (flow : Flow) (inputs : List (String × Json))
    (parent : Token) : (run config flow inputs parent).Careful := by
  rw [run_eq]
  refine fun held => ⟨trivial, ?_⟩
  rintro opened _ rfl
  have hrest (deadline : Option Nat) :
      (((runSequence flow.steps ⟨opened.1, opened.2, config.stepTimeout⟩ .null).on
        (Scope.ofBindings inputs)).bind
          (conclude config flow ⟨opened.1, opened.2, config.stepTimeout⟩ deadline)).Careful :=
    (Careful.sequence flow.steps _ .null _).bind fun p => careful_conclude config flow _ deadline p
  cases config.runTimeout with
  | none => exact hrest none _
  | some limit => exact Program.Careful.granted ⟨_, rfl, rfl⟩ fun deadline => hrest (some deadline)

end Execution

theorem Begins.careful {config : Config} {t : TaskId} {p : Program t.Result} (h : Begins config t p) :
    p.Careful := by
  cases h with
  | errand errand =>
      cases errand with
      | run flow inputs token => exact careful_run config flow inputs token
      | await submission => exact .perform rfl fun _ => .pure _
  | submission number flow inputs token =>
      rw [submitted_eq]
      refine .perform rfl fun _ => (careful_run config flow inputs token).bind fun _ => ?_
      exact .perform rfl fun _ => .pure _
  | branch number b =>
      cases b with
      | steps ctx scope body collect =>
          refine (Careful.sequence body ctx .null scope).bind fun p => ?_
          obtain ⟨r, s⟩ := p
          cases r <;> cases collect <;> exact .pure _
      | timed observed delay result =>
          refine .perform rfl fun (waited : Bool) => ?_
          cases waited <;> exact .pure _

/-! ## Sessions -/

def Occurrence.hands (t : TaskId) (held : Option Grant) : Occurrence → Option Grant
  | .poll ⟨task, e, some a, _, _⟩ => if task = t then e.grants a else held
  | _ => held

def held (t : TaskId) (log : List Occurrence) : Option Grant :=
  log.foldl (Occurrence.hands t) none

theorem held_append (t : TaskId) (log more : List Occurrence) :
    held t (log ++ more) = more.foldl (Occurrence.hands t) (held t log) := by
  simp only [held, List.foldl_append]

theorem path_hands {t : TaskId} {log : List Occurrence} (h : ¬ Restarted t log)
    (g : Option Grant) : granting.Path g (deedsOf t log) (log.foldl (Occurrence.hands t) g) := by
  induction log generalizing g with
  | nil => exact .start g
  | cons x rest ih =>
      have hrest : ¬ Restarted t rest := fun hr => h ⟨hr.1, List.mem_cons_of_mem _ hr.2⟩
      cases x with
      | errand =>
          have ht : t ≠ .main := fun ht => h ⟨ht, List.mem_cons_self⟩
          simp only [deedsOf, if_neg ht]
          exact ih hrest g
      | ended u => exact ih hrest g
      | poll x =>
          obtain ⟨u, e, a, before, after⟩ := x
          cases a with
          | none => exact ih hrest g
          | some a =>
              rw [List.foldl_cons]
              by_cases hu : u = t
              · simp only [deedsOf, if_pos hu, Occurrence.hands]
                exact .deed rfl (ih hrest _)
              · simp only [deedsOf, if_neg hu, Occurrence.hands]
                exact ih hrest g

variable {config : Config} {log : List Occurrence} {s s' : System RunResult}

/-- What a task comes to cancels nothing but what it was granted last. -/
theorem Session.careful (h : Session config log s) {t : TaskId} {p : Program t.Result}
    (ht : s.At t p) : p.Obeys granting (fun _ _ => True) (held t log) := by
  refine h.comes_to (P := fun log p => p.Obeys granting (fun _ _ => True) (held t log))
    (fun hbegins => hbegins.careful _) (fun {log more o o' p q w} adv hp hobeys hf => ?_) ht
  rw [held_append]
  exact hobeys.follow hf (path_hands (adv.not_restarted hp) _)

/-- A task that is to perform an effect was granted last what the effect needs. -/
theorem Session.allows (h : Session config log s) {t : TaskId} {e : Effect}
    {next : e.Answer → Program t.Result} {w : Wait}
    (ht : s.task? t = some (.active (.perform e next) w)) : granting.allows (held t log) e :=
  (h.careful ⟨w, ht⟩).1

end FlowEngine
