import FlowEngine.Proofs.Execution.Flow
import FlowEngine.Proofs.Execution.Coherent
import FlowEngine.Proofs.Session.Log

/-!
# Where snapshots are taken

Only transaction steps take snapshots: whatever a task of a session comes to, when it
is about to take one then it goes on with the body of a transaction.
-/
namespace FlowEngine

open Exec Execution

variable {α β : Type}

namespace Exec

def Throughout (Q : Program.Trait) (x : Exec α) : Prop := ∀ s, (x.on s).Throughout Q

variable {Q : Program.Trait}

theorem throughout_ofResult (r : Except Failure α) : (ofResult r).Throughout Q := by
  intro s
  rw [on_ofResult]
  exact Program.throughout_pure

theorem throughout_pure (a : α) : (pure a : Exec α).Throughout Q := throughout_ofResult (.ok a)

theorem throughout_throw (f : Failure) : (throw f : Exec α).Throughout Q :=
  throughout_ofResult (.error f)

theorem throughout_modify (g : Scope → Scope) : (modify g : Exec Unit).Throughout Q := by
  intro s
  rw [on_modify]
  exact Program.throughout_pure

theorem Throughout.bind (hQ : Q.Stable) {x : Exec α} {f : α → Exec β} (hx : x.Throughout Q)
    (hf : ∀ a, (f a).Throughout Q) : (x >>= f).Throughout Q := by
  intro s
  rw [on_bind]
  apply (hx s).bind hQ
  rintro ⟨r, s'⟩
  cases r with
  | ok a => exact hf a s'
  | error f => exact Program.throughout_pure

theorem Throughout.outcome_bind (hQ : Q.Stable) {x : Exec α} {g : Except Failure α → Exec β}
    (hx : x.Throughout Q) (hg : ∀ r, (g r).Throughout Q) : (x.outcome >>= g).Throughout Q := by
  refine Throughout.bind hQ (fun s => ?_) hg
  rw [on_outcome]
  exact (hx s).bind hQ fun _ => Program.throughout_pure

theorem Throughout.inFrame (hQ : Q.Stable) {x : Exec α} (hx : x.Throughout Q)
    (enter : Scope → Scope) : (inFrame enter x).Throughout Q := by
  intro s
  rw [on_inFrame]
  exact (hx (enter s)).bind hQ fun _ => Program.throughout_pure

theorem throughout_decided_bind {d : Scope → Except Control.Fault α} {f : α → Exec β}
    (hf : ∀ s a, d s = .ok a → (f a).Throughout Q) : (decided d >>= f).Throughout Q := by
  intro s
  rw [on_bind, on_decided, Program.bind_pure_left]
  cases hd : d s with
  | ok a => exact hf s a hd s
  | error e => exact Program.throughout_pure

end Exec

def Execution.opened (ctx : Context) (id : String) (body : List Step)
    (onError : Option (List Step)) (begun : Except EngineError String) : Exec Reached := do
  enclose ctx id (← orFail begun) (runSequence body ctx .null) (optionProgram onError ctx)

def Opens : Program.Trait
  | α, .beginTransaction ctx, next => ∃ id body onError s,
      ∃ k : Except Failure Reached × Scope → Program α,
        next = fun begun => ((opened ctx id body onError begun).on s).bind k
  | _, _, _ => True

namespace Opens

theorem stable : Program.Trait.Stable Opens := by
  intro α β e next f h
  cases e with
  | beginTransaction ctx =>
      obtain ⟨id, body, onError, s, k, rfl⟩ := h
      refine ⟨id, body, onError, s, fun p => (k p).bind f, ?_⟩
      funext begun
      rw [Program.bind_assoc]
  | _ => trivial

variable {ctx : Context}

/-- Effects other than that of taking a snapshot may be followed by anything. -/
theorem ask_bind {e : Effect} {f : e.Answer → Exec α} (he : ∀ ctx, e ≠ .beginTransaction ctx)
    (hf : ∀ a, (f a).Throughout Opens) : (Exec.ask e >>= f).Throughout Opens := by
  intro s
  rw [on_bind, on_ask, Program.bind_perform, Program.throughout_perform]
  refine ⟨?_, fun a => hf a s⟩
  cases e with
  | beginTransaction ctx => exact absurd rfl (he ctx)
  | _ => trivial

theorem send (id : String) (request : Request) : (send ctx id request).Throughout Opens := by
  refine ask_bind (by simp) fun cancelled => ?_
  split
  · exact throughout_throw _
  · refine ask_bind (by simp) fun answer => ?_
    split
    · exact throughout_pure _
    · exact throughout_throw _

theorem afterAttempt {again : Option (Exec (Nat × Except Failure α))}
    (h : ∀ x ∈ again, x.Throughout Opens) (id : String) (policy : Option RetryPolicy) (number : Nat)
    (r : Except Failure α) : (afterAttempt ctx id policy number again r).Throughout Opens := by
  unfold Execution.afterAttempt
  split
  · exact throughout_pure _
  · split
    · exact throughout_pure _
    · exact throughout_pure _
    · refine ask_bind (by simp) fun waited => ?_
      split
      · exact h _ rfl
      · exact throughout_pure _

theorem attempts {attempt : Exec α} (ha : attempt.Throughout Opens) (id : String)
    (policy : Option RetryPolicy) (further number : Nat) :
    (attempts ctx id policy attempt further number).Throughout Opens := by
  induction further generalizing number with
  | zero => exact ha.outcome_bind stable fun r => afterAttempt (by simp) id policy number r
  | succ further ih =>
      refine ha.outcome_bind stable fun r => afterAttempt ?_ id policy number r
      rintro x ⟨⟩
      exact ih (number + 1)

theorem node {attempt : Exec Reached} (ha : attempt.Throughout Opens) (id kind : String)
    (retry : Option RetryPolicy) : (node ctx id kind retry attempt).Throughout Opens := by
  refine ask_bind (by simp) fun cancelled => ?_
  split
  · exact ask_bind (by simp) fun _ => throughout_throw _
  · refine ask_bind (by simp) fun _ => ?_
    refine (attempts ha id retry _ 1).bind stable fun outcome => ?_
    refine ask_bind (by simp) fun _ => ask_bind (by simp) fun _ => ?_
    split
    · exact (throughout_modify _).bind stable fun _ => throughout_pure _
    · exact throughout_throw _

theorem withDeadline {attempt : Context → Exec Reached}
    (ha : ∀ ctx, (attempt ctx).Throughout Opens) (id : String) (limit : Option Millis) :
    (withDeadline ctx id limit attempt).Throughout Opens := by
  unfold Execution.withDeadline
  cases limit with
  | none => exact ha ctx
  | some limit =>
      refine ask_bind (by simp) fun token => ask_bind (by simp) fun deadline => ?_
      refine (ha _).outcome_bind stable fun result => ask_bind (by simp) fun passed => ?_
      cases result with
      | ok a => exact throughout_pure _
      | error f =>
          refine ask_bind (by simp) fun outer => ?_
          split
          · exact throughout_throw _
          · exact throughout_throw _

theorem fanOut {branches : Context → Scope → Except Control.Fault (List Branch)} (id : String)
    (policy : JoinPolicy) : (fanOut ctx id policy branches).Throughout Opens := by
  refine ask_bind (by simp) fun group => throughout_decided_bind fun s bs _ => ?_
  refine ask_bind (by simp) fun joined => ?_
  refine (throughout_ofResult joined).bind stable fun outcomes => ?_
  refine ask_bind (by simp) fun cancelled => ?_
  split
  · exact throughout_throw _
  · exact throughout_pure _

theorem boundary {handler : Exec Json} (hh : handler.Throughout Opens) (name : String)
    (f : Failure) : (boundary ctx name handler f).Throughout Opens := by
  unfold Execution.boundary
  split
  · refine ask_bind (by simp) fun _ => ?_
    exact (hh.inFrame stable _).outcome_bind stable fun result => throughout_ofResult _
  · exact throughout_throw _

theorem settle : (settle ctx).Throughout Opens := ask_bind (by simp) fun _ => throughout_pure _

theorem undo {handler : Option (Exec Json)} (hh : ∀ x ∈ handler, x.Throughout Opens)
    (id handle : String) (f : Failure) : (undo ctx id handle handler f).Throughout Opens := by
  refine settle.bind stable fun _ => Throughout.bind stable ?_ fun restored => ?_
  · refine ask_bind (by simp) fun released => ?_
    split
    · exact throughout_pure _
    · exact ask_bind (by simp) fun restored => throughout_pure _
  · split
    · exact throughout_throw _
    · refine ask_bind (by simp) fun _ => ?_
      unfold Execution.recover
      split
      · exact throughout_throw _
      · refine (boundary (hh _ rfl) id _).bind stable fun handled => ?_
        exact ask_bind (by simp) fun _ => throughout_pure _

theorem enclose {body : Exec Json} {handler : Option (Exec Json)} (hb : body.Throughout Opens)
    (hh : ∀ x ∈ handler, x.Throughout Opens) (id handle : String) :
    (enclose ctx id handle body handler).Throughout Opens := by
  refine (hb.inFrame stable _).outcome_bind stable fun result => ?_
  split
  · refine Throughout.bind stable ?_ fun _ => throughout_pure _
    refine ask_bind (by simp) fun released => (throughout_ofResult _).bind stable fun _ => ?_
    exact ask_bind (by simp) fun discarded => throughout_ofResult _
  · exact undo hh id handle _

theorem compositional : Compositional fun _ _ x => x.Throughout Opens where
  result r := throughout_ofResult r
  alter _ := throughout_modify _
  bind hx hf := hx.bind stable hf
  decide hf := throughout_decided_bind hf
  inFrame _ hb := hb.inFrame stable _
  send := send
  node id kind retry ha := node ha id kind retry
  deadline id limit ha := withDeadline ha id limit
  fanOut id policy _ := fanOut id policy
  transaction {ctx} body onError id hb hh := by
    refine settle.bind stable fun _ s => ?_
    refine ⟨⟨id, body, onError, s, .pure, ?_⟩, fun begun => ?_⟩
    · funext begun
      rw [Program.bind_pure_right]
      rfl
    · exact (throughout_ofResult _).bind stable (fun handle => enclose hb hh id handle) s

theorem perform {e : Effect} {next : e.Answer → Program α}
    (he : ∀ ctx, e ≠ .beginTransaction ctx) (hn : ∀ a, (next a).Throughout Opens) :
    (Program.perform e next).Throughout Opens := by
  refine ⟨?_, hn⟩
  cases e with
  | beginTransaction ctx => exact absurd rfl (he ctx)
  | _ => trivial

theorem conclude (config : Config) (flow : Flow) (deadline : Option Nat)
    (p : Except Failure Json × Scope) :
    (conclude config flow ctx deadline p).Throughout Opens := by
  have ask (e : Effect) (he : ∀ ctx, e ≠ .beginTransaction ctx) :
      (Program.ask e).Throughout Opens := perform he fun _ => Program.throughout_pure
  obtain ⟨result, s⟩ := p
  rw [conclude_eq]
  refine (ask (.settle ctx.run none) (by simp)).bind stable fun _ => ?_
  refine Program.Throughout.bind stable ?_ fun timedOut => ?_
  · cases deadline with
    | none => exact Program.throughout_pure
    | some deadline => exact ask _ (by simp)
  · refine Program.Throughout.bind stable ?_ fun ended => ?_
    · cases result with
      | ok value => exact Program.throughout_pure
      | error f =>
          dsimp only
          rw [endAfter_eq]
          refine perform (by simp) fun (cancelled : Bool) => ?_
          change (if (f.isCancellation || cancelled) = true then _ else _ :
            Program (Ending × Scope)).Throughout Opens
          split
          · exact Program.throughout_pure
          · rw [handleFailure_eq]
            split
            · exact Program.throughout_pure
            · refine (boundary (compositional.sequence _ ctx .null) flow.name f s).bind stable ?_
              rintro ⟨r, s'⟩
              cases r with
              | ok handled => exact perform (by simp) fun _ => Program.throughout_pure
              | error escaped => exact Program.throughout_pure
    · exact (ask (.settle ctx.run none) (by simp)).bind stable fun _ => ask _ (by simp)

theorem run (config : Config) (flow : Flow) (inputs : List (String × Json)) (parent : Token) :
    (run config flow inputs parent).Throughout Opens := by
  rw [run_eq]
  refine perform (by simp) fun opened => Program.Throughout.bind stable ?_ fun deadline => ?_
  · cases config.runTimeout with
    | none => exact Program.throughout_pure
    | some limit => exact perform (by simp) fun _ => Program.throughout_pure
  · exact (compositional.sequence flow.steps _ .null _).bind stable fun p =>
      conclude config flow deadline p

theorem begins {config : Config} {t : TaskId} {p : Program t.Result} (h : Begins config t p) :
    p.Throughout Opens := by
  cases h with
  | errand errand =>
      cases errand with
      | run flow inputs token => exact run config flow inputs token
      | await submission => exact perform (by simp) fun _ => Program.throughout_pure
  | submission number flow inputs token =>
      rw [submitted_eq]
      refine perform (by simp) fun _ => (run config flow inputs token).bind stable fun result => ?_
      exact perform (by simp) fun _ => Program.throughout_pure
  | branch number b =>
      cases b with
      | steps ctx scope body collect =>
          refine (compositional.sequence body ctx .null scope).bind stable ?_
          rintro ⟨r, s⟩
          cases r <;> cases collect <;> exact Program.throughout_pure
      | timed observed delay result =>
          refine perform (by simp) fun (waited : Bool) => ?_
          cases waited <;> exact Program.throughout_pure

end Opens

/-- A task that is about to take a snapshot goes on with the body of a transaction. -/
theorem Session.opens {config : Config} {log : List Occurrence} {s : System RunResult}
    (h : Session config log s) {t : TaskId} {ctx : Context}
    {next : Except EngineError String → Program t.Result}
    (ht : s.At t (.perform (.beginTransaction ctx) next)) : ∃ id body onError scope,
      ∃ k : Except Failure Reached × Scope → Program t.Result,
        next = fun begun => ((opened ctx id body onError begun).on scope).bind k :=
  (h.throughout (Q := Opens) Opens.begins ht).1

end FlowEngine
