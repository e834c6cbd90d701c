import FlowEngine.Proofs.Execution.Coherent
import FlowEngine.Proofs.Execution.Flow
import FlowEngine.Proofs.Program.History

/-!
# The effects that a run may perform

Whatever the answers are, the joins that a run comes to are those of its own steps that fan out, and
what it writes down about steps is about its own. So a condition on effects that only joins and
records can break holds of all effects of a run as soon as its own steps meet it.
-/
namespace FlowEngine

open Exec Execution

/-- An effect that neither starts branches nor writes a step down. -/
def Effect.Silent : Effect → Prop
  | .join _ _ _ _ | .note _ (.record _) => False
  | _ => True

/-- Fitting steps meet a condition on effects, whatever run they belong to: it is met when they are
written down, and when they fan out into branches of fitting steps. -/
structure Effect.Met (φ : Effect → Prop) (Fits : Step → Prop) : Prop where
  silent {e : Effect} : e.Silent → φ e
  record {s : Step} : Fits s → ∀ run status number error,
    φ (.note run (.record ⟨s.id, s.kind, status, number, error⟩))
  join {s : Step} {policy : JoinPolicy} : Fits s → s.action.policy? = some policy →
    ∀ ctx bs, (∀ b ∈ bs, ∃ scope body collect, b = .steps ctx scope body collect ∧
      ∀ n ∈ Step.sequenceNodes body, Fits n) → φ (.join ctx.run policy ctx.token bs)

namespace Program

variable {α β : Type} {φ : Effect → Prop}

def Performs (φ : Effect → Prop) (p : Program α) : Prop := p.Throughout fun e _ => φ e

theorem Performs.bind {p : Program α} {f : α → Program β} (hp : p.Performs φ)
    (hf : ∀ a, (f a).Performs φ) : (p.bind f).Performs φ :=
  Throughout.bind (fun _ _ _ h => h) hp hf

/-- The effect that a program is about to perform meets the condition. -/
theorem Performs.next {p : Program α} {d : List Deed} {e : Effect} {next : e.Answer → Program α}
    (hp : p.Performs φ) (h : p.Follows d (.perform e next)) : φ e :=
  (throughout_perform.mp (hp.follow h)).1

end Program

namespace Exec

variable {α β : Type} {φ : Effect → Prop} {Fits : Step → Prop} {ctx : Context}

def Performs (φ : Effect → Prop) (x : Exec α) : Prop := ∀ s, (x.on s).Performs φ

namespace Performs

theorem ofResult (r : Except Failure α) : (ofResult r).Performs φ := by
  intro s
  rw [on_ofResult]
  exact Program.throughout_pure

theorem value (a : α) : (pure a : Exec α).Performs φ := ofResult (.ok a)

theorem fail (f : Failure) : (throw f : Exec α).Performs φ := ofResult (.error f)

theorem alter (g : Scope → Scope) : (modify g : Exec Unit).Performs φ :=
  fun _ => Program.throughout_pure

theorem bind {x : Exec α} {f : α → Exec β} (hx : x.Performs φ) (hf : ∀ a, (f a).Performs φ) :
    (x >>= f).Performs φ := by
  intro s
  rw [on_bind]
  apply (hx s).bind
  rintro ⟨r, s'⟩
  cases r with
  | ok a => exact hf a s'
  | error f => exact Program.throughout_pure

theorem decide {d : Scope → Except Control.Fault α} {f : α → Exec β}
    (hf : ∀ s a, d s = .ok a → (f a).Performs φ) : (decided d >>= f).Performs φ := by
  intro s
  rw [on_bind, on_decided, Program.bind_pure_left]
  cases hd : d s with
  | error fault => exact Program.throughout_pure
  | ok a => exact hf s a hd s

theorem outcome {x : Exec α} (hx : x.Performs φ) : x.outcome.Performs φ := by
  intro s
  rw [on_outcome]
  exact (hx s).bind fun _ => Program.throughout_pure

theorem inFrame {x : Exec α} (hx : x.Performs φ) (enter : Scope → Scope) :
    (inFrame enter x).Performs φ := by
  intro s
  rw [on_inFrame]
  exact (hx (enter s)).bind fun _ => Program.throughout_pure

theorem ask {e : Effect} (he : φ e) : (ask e).Performs φ := fun _ => ⟨he, fun _ => trivial⟩

theorem ask_bind {e : Effect} {f : e.Answer → Exec α} (he : φ e) (hf : ∀ a, (f a).Performs φ) :
    (Exec.ask e >>= f).Performs φ :=
  (ask he).bind hf

section

variable (hφ : Effect.Met φ Fits)
include hφ

theorem send (id : String) (request : Request) : (send ctx id request).Performs φ := by
  refine ask_bind (hφ.silent trivial) fun (cancelled : Bool) => ?_
  cases cancelled with
  | true => exact fail _
  | false =>
      refine ask_bind (hφ.silent trivial) fun answer => ?_
      cases answer with
      | ok outcome => exact value outcome
      | error moment => exact fail _

theorem afterAttempt {again : Option (Exec (Nat × Except Failure α))}
    (hagain : ∀ x ∈ again, x.Performs φ) (id : String) (policy : Option RetryPolicy) (number : Nat)
    (r : Except Failure α) : (afterAttempt ctx id policy number again r).Performs φ := by
  unfold Execution.afterAttempt
  cases r with
  | ok a => exact value _
  | error f =>
      dsimp only
      split
      · exact value _
      · exact value _
      · refine ask_bind (hφ.silent trivial) fun (waited : Bool) => ?_
        cases waited with
        | true => exact hagain _ rfl
        | false => exact value _

theorem attempts {attempt : Exec α} (ha : attempt.Performs φ) (id : String)
    (policy : Option RetryPolicy) (further number : Nat) :
    (attempts ctx id policy attempt further number).Performs φ := by
  induction further generalizing number with
  | zero => exact ha.outcome.bind fun r => afterAttempt hφ (by simp) id policy number r
  | succ further ih =>
      refine ha.outcome.bind fun r => afterAttempt hφ ?_ id policy number r
      rintro x ⟨⟩
      exact ih (number + 1)

theorem node {s : Step} {attempt : Exec Reached} (fits : Fits s) (ha : attempt.Performs φ) :
    (node ctx s.id s.kind s.retry attempt).Performs φ := by
  refine ask_bind (hφ.silent trivial) fun (cancelled : Bool) => ?_
  cases cancelled with
  | true => exact ask_bind (hφ.record fits _ _ _ _) fun _ => fail _
  | false =>
      refine ask_bind (hφ.silent trivial) fun _ => (attempts hφ ha s.id s.retry _ 1).bind fun p => ?_
      refine ask_bind (hφ.record fits _ _ _ _) fun _ => ask_bind (hφ.silent trivial) fun _ => ?_
      cases p.2 with
      | error f => exact fail _
      | ok reached => exact (alter _).bind fun _ => value _

theorem withDeadline {attempt : Context → Exec Reached} (ha : ∀ ctx, (attempt ctx).Performs φ)
    (id : String) (limit : Option Millis) : (withDeadline ctx id limit attempt).Performs φ := by
  cases limit with
  | none => exact ha ctx
  | some limit =>
      refine ask_bind (hφ.silent trivial) fun _ => ask_bind (hφ.silent trivial) fun _ => ?_
      refine (ha _).outcome.bind fun r => ask_bind (hφ.silent trivial) fun _ => ?_
      cases r with
      | ok a => exact value a
      | error f =>
          refine ask_bind (hφ.silent trivial) fun _ => ?_
          split
          · exact fail _
          · exact fail f

theorem fanOut {s : Step} {policy : JoinPolicy} {plan : Scope → Except Control.Fault (List Part)}
    (fits : Fits s) (hpolicy : s.action.policy? = some policy) (hparts : ∀ scope parts,
      plan scope = .ok parts → ∀ p ∈ parts, ∀ n ∈ Step.sequenceNodes p.body, Fits n) :
    (fanOut ctx s.id policy (branchesOf plan)).Performs φ := by
  refine ask_bind (hφ.silent trivial) fun (group : Token) => .decide fun scope bs hbs => ?_
  have hjoin : φ (.join ctx.run policy group bs) := by
    refine hφ.join fits hpolicy { ctx with token := group } bs fun b hb => ?_
    unfold branchesOf at hbs
    cases hplan : plan scope with
    | error fault =>
        rw [hplan] at hbs
        cases hbs
    | ok parts =>
        rw [hplan] at hbs
        cases hbs
        obtain ⟨p, hp, rfl⟩ := List.mem_map.mp hb
        exact ⟨_, _, _, rfl, hparts scope parts hplan p hp⟩
  refine ask_bind hjoin fun joined => (ofResult joined).bind fun outcomes => ?_
  refine ask_bind (hφ.silent trivial) fun (cancelled : Bool) => ?_
  cases cancelled with
  | true => exact fail _
  | false => exact value _

theorem boundary {handler : Exec Json} (hh : handler.Performs φ) (name : String) (f : Failure) :
    (boundary ctx name handler f).Performs φ := by
  unfold Execution.boundary
  split
  · exact ask_bind (hφ.silent trivial) fun _ => (hh.inFrame _).outcome.bind fun _ => ofResult _
  · exact fail f

theorem settle : (settle ctx).Performs φ := ask_bind (hφ.silent trivial) fun _ => value _

theorem rollback (handle : String) : (rollback ctx handle).Performs φ := by
  refine ask_bind (hφ.silent trivial) fun released => ?_
  cases released with
  | error e => exact value _
  | ok _ => exact ask_bind (hφ.silent trivial) fun _ => value _

theorem undo {handler : Option (Exec Json)} (hh : ∀ x ∈ handler, x.Performs φ) (id handle : String)
    (f : Failure) : (undo ctx id handle handler f).Performs φ := by
  refine (settle hφ).bind fun _ => (rollback hφ handle).bind fun undone => ?_
  cases undone with
  | error e => exact fail _
  | ok _ =>
      refine ask_bind (hφ.silent trivial) fun _ => ?_
      cases handler with
      | none => exact fail _
      | some x =>
          refine (boundary hφ (hh x rfl) id _).bind fun _ => ?_
          exact ask_bind (hφ.silent trivial) fun _ => value _

theorem transaction {body : Exec Json} {handler : Option (Exec Json)} (hb : body.Performs φ)
    (hh : ∀ x ∈ handler, x.Performs φ) (id : String) :
    (transaction ctx id body handler).Performs φ := by
  refine (settle hφ).bind fun _ => ask_bind (hφ.silent trivial) fun begun => ?_
  refine (ofResult _).bind fun handle => (hb.inFrame _).outcome.bind fun r => ?_
  cases r with
  | error f => exact undo hφ hh id handle f
  | ok output =>
      refine bind ?_ fun _ => value _
      exact ask_bind (hφ.silent trivial) fun _ => (ofResult _).bind fun _ =>
        ask_bind (hφ.silent trivial) fun _ => ofResult _

theorem coherent : Coherent Fits Fits (fun _ => True) fun _ _ _ _ x _ => x.Performs φ where
  acts fits := fits
  value a := value a
  fails _ := fail _
  alter _ := alter _
  bind hx hf := hx.bind hf
  decide hd hf := by
    refine .decide fun scope a ha => ?_
    obtain ⟨a', hQ⟩ := (hd scope).exists_of_ok ha
    exact hf scope a a' ha hQ
  inFrame _ hb := hb.inFrame _
  send _ _ hf := (send hφ _ _).bind fun outcome => hf outcome trivial
  node fits ha := node hφ fits ha
  inside hb := hb
  deadline _ ha := withDeadline hφ (fun ctx => ha ctx ctx) _ _
  fanOut fits hpolicy hparts _ := fanOut hφ fits hpolicy fun scope parts hp p hmem n hn =>
    (hparts scope parts hp p hmem n hn).2
  transaction _ _ hb ho := transaction hφ hb (forall_of_rel ho) _

theorem sequence {steps : List Step} (fits : ∀ n ∈ Step.sequenceNodes steps, Fits n) (ctx : Context)
    (last : Json) : (runSequence steps ctx last).Performs φ :=
  (coherent hφ).sequence steps fits ctx ctx last

end

end Performs
end Exec

namespace Execution

variable {φ : Effect → Prop} {Fits : Step → Prop} (hφ : Effect.Met φ Fits)
include hφ

theorem performs_branch {ctx : Context} {scope : Scope} {body : List Step} {collect : Option Expr}
    (fits : ∀ n ∈ Step.sequenceNodes body, Fits n) :
    (Branch.steps ctx scope body collect).program.Performs φ := by
  refine (Performs.sequence hφ fits ctx .null scope).bind ?_
  rintro ⟨r, final⟩
  cases r <;> cases collect <;> trivial

theorem performs_settleAll (ctx : Context) : (settleAll ctx).Performs φ :=
  ⟨hφ.silent trivial, fun _ => trivial⟩

variable {flow : Flow} (hflow : ∀ n ∈ flow.nodes, Fits n)
include hflow

theorem performs_endAfter (ctx : Context) (limit : Option UInt64) (timedOut : Bool) (f : Failure)
    (s : Scope) : (endAfter flow ctx limit timedOut f s).Performs φ := by
  rw [endAfter_eq]
  refine ⟨hφ.silent trivial, fun (cancelled : Bool) => ?_⟩
  dsimp only
  split
  · trivial
  · rw [handleFailure_eq]
    cases hhandler : flow.onError with
    | none => trivial
    | some handler =>
        have hsteps : ∀ n ∈ Step.sequenceNodes handler, Fits n := fun n hn =>
          hflow n (List.mem_append_right _ (by rwa [hhandler]))
        have hhandled : (boundary ctx flow.name (runSequence handler ctx .null) f).Performs φ :=
          .boundary hφ (.sequence hφ hsteps ctx .null) flow.name f
        apply Program.Performs.bind (hhandled s)
        rintro ⟨r, s'⟩
        cases r with
        | ok handled => exact ⟨hφ.silent trivial, fun _ => trivial⟩
        | error escaped => trivial

/-- All effects of a run meet a condition that its steps meet. -/
theorem performs_afterOpening (config : Config) (inputs : List (String × Json))
    (opened : Nat × Token) : (afterOpening config flow inputs opened).Performs φ := by
  have hdeadline : (startRunDeadline opened.2 config.runTimeout).Performs φ := by
    unfold startRunDeadline
    split
    · trivial
    · exact ⟨hφ.silent trivial, fun _ => trivial⟩
  refine hdeadline.bind fun deadline => ?_
  have hsteps : ∀ n ∈ Step.sequenceNodes flow.steps, Fits n := fun n hn =>
    hflow n (List.mem_append_left _ hn)
  apply Program.Performs.bind (Performs.sequence hφ hsteps _ .null _)
  rintro ⟨r, s⟩
  rw [conclude_eq_ended]
  have hstop : (stopRunDeadline deadline).Performs φ := by
    unfold stopRunDeadline
    split
    · trivial
    · exact ⟨hφ.silent trivial, fun _ => trivial⟩
  refine (performs_settleAll hφ _).bind fun _ => hstop.bind fun timedOut => ?_
  have hended : (ended config flow ⟨opened.1, opened.2, config.stepTimeout⟩ timedOut s r).Performs φ := by
    cases r with
    | ok value => trivial
    | error f => exact performs_endAfter hφ hflow _ _ timedOut f s
  refine hended.bind fun p => (performs_settleAll hφ _).bind fun _ => ?_
  exact ⟨hφ.silent trivial, fun _ => trivial⟩

end Execution
end FlowEngine
