import FlowEngine.Proofs.Execution.Coherent

/-!
# Properties that effects keep

Most properties of programs do not care which effects are performed, as long as deadlines are
stopped by those who started them. Such a property holds of every step once it is closed under
single effects and the ways in which programs go on after them.
-/
namespace FlowEngine

open Exec Execution

/-- An effect that neither starts branches nor has to do with a deadline. -/
def Effect.Routine : Effect → Prop
  | .startDeadline _ _ | .stopDeadline _ | .join _ _ _ _ => False
  | _ => True

/-- A property of programs that is closed under performing routine effects, one after another.
Joins and the attempt of a step under a deadline are left to look at. -/
structure Routine (R : (β : Type) → Exec β → Prop) : Prop where
  result {β : Type} (r : Except Failure β) : R β (ofResult r)
  alter {g : Scope → Scope} : Scope.Update g → R Unit (modify g)
  record (id : String) (output : Json) : R Unit (modify (Scope.recordOutput id output))
  bind {β γ : Type} {x : Exec β} {f : β → Exec γ} : R β x → (∀ a, R γ (f a)) → R γ (x >>= f)
  decide {β γ : Type} {d : Scope → Except Control.Fault β} {f : β → Exec γ} :
    (∀ s a, d s = .ok a → R γ (f a)) → R γ (decided d >>= f)
  inFrame {β : Type} {enter : Scope → Scope} {body : Exec β} :
    Scope.Entry enter → R β body → R β (inFrame enter body)
  outcome {β : Type} {x : Exec β} : R β x → R (Except Failure β) x.outcome
  ask {e : Effect} : e.Routine → R e.Answer (ask e)
  deadline {ctx : Context} {attempt : Context → Exec Reached} (id : String) (limit : Millis) :
    (∀ ctx, R Reached (attempt ctx)) → R Reached (withDeadline ctx id (some limit) attempt)

/-- A property of programs that is closed under performing effects, one after another. Only the
attempt of a step under a deadline is left to look at. -/
structure Effectwise (R : (β : Type) → Exec β → Prop) : Prop extends Routine R where
  join (run : Nat) (policy : JoinPolicy) (group : Token) (bs : List Branch) :
    R _ (Exec.ask (.join run policy group bs))

namespace Routine

variable {R : (β : Type) → Exec β → Prop} (h : Routine R) {ctx : Context} {α : Type}
include h

theorem pure (a : α) : R α (Pure.pure a) := h.result (.ok a)

theorem throw (f : Failure) : R α (MonadExcept.throw f) := h.result (.error f)

theorem ask_bind {e : Effect} {f : e.Answer → Exec α} (he : e.Routine) (hf : ∀ a, R α (f a)) :
    R α (Exec.ask e >>= f) :=
  h.bind (h.ask he) hf

theorem send (id : String) (request : Request) : R Outcome (send ctx id request) := by
  refine h.ask_bind trivial fun (cancelled : Bool) => ?_
  cases cancelled with
  | true => exact h.throw _
  | false =>
      refine h.ask_bind trivial fun answer => ?_
      cases answer with
      | ok outcome => exact h.pure outcome
      | error moment => exact h.throw _

theorem afterAttempt {again : Option (Exec (Nat × Except Failure α))}
    (hagain : ∀ x ∈ again, R _ x) (id : String) (policy : Option RetryPolicy) (number : Nat)
    (r : Except Failure α) : R _ (afterAttempt ctx id policy number again r) := by
  unfold Execution.afterAttempt
  cases r with
  | ok a => exact h.pure _
  | error f =>
      dsimp only
      split
      · exact h.pure _
      · exact h.pure _
      · refine h.ask_bind trivial fun (waited : Bool) => ?_
        cases waited with
        | true => exact hagain _ rfl
        | false => exact h.pure _

theorem attempts {attempt : Exec α} (ha : R α attempt) (id : String)
    (policy : Option RetryPolicy) (further number : Nat) :
    R _ (attempts ctx id policy attempt further number) := by
  induction further generalizing number with
  | zero => exact h.bind (h.outcome ha) fun r => h.afterAttempt (by simp) id policy number r
  | succ further ih =>
      refine h.bind (h.outcome ha) fun r => h.afterAttempt ?_ id policy number r
      rintro x ⟨⟩
      exact ih (number + 1)

theorem node {attempt : Exec Reached} (ha : R _ attempt) (id kind : String)
    (retry : Option RetryPolicy) : R _ (node ctx id kind retry attempt) := by
  refine h.ask_bind trivial fun (cancelled : Bool) => ?_
  cases cancelled with
  | true => exact h.ask_bind trivial fun _ => h.throw _
  | false =>
      refine h.ask_bind trivial fun _ => h.bind (h.attempts ha id retry _ _) fun p => ?_
      refine h.ask_bind trivial fun _ => h.ask_bind trivial fun _ => ?_
      cases p.2 with
      | error f => exact h.throw _
      | ok reached => exact h.bind (h.record id reached.output) fun _ => h.pure _

theorem boundary {handler : Exec Json} (hh : R _ handler) (name : String) (f : Failure) :
    R _ (boundary ctx name handler f) := by
  have henter : Scope.Entry (Boundary.enter f) := .frame .step [(Boundary.errorName, f.toJson)]
  unfold Execution.boundary
  split
  · refine h.ask_bind trivial fun _ => ?_
    exact h.bind (h.outcome (h.inFrame henter hh)) fun _ => h.result _
  · exact h.throw _

theorem settle : R _ (settle ctx) := h.ask_bind trivial fun _ => h.pure _

theorem rollback (handle : String) : R _ (rollback ctx handle) := by
  refine h.ask_bind trivial fun released => ?_
  cases released with
  | error e => exact h.pure _
  | ok _ => exact h.ask_bind trivial fun _ => h.pure _

theorem recover {handler : Option (Exec Json)} (hh : ∀ x ∈ handler, R _ x) (id : String)
    (f : Failure) : R _ (recover ctx id handler f) := by
  cases handler with
  | none => exact h.throw f
  | some x => exact h.bind (h.boundary (hh x rfl) id f) fun _ => h.ask_bind trivial fun _ => h.pure _

theorem undo {handler : Option (Exec Json)} (hh : ∀ x ∈ handler, R _ x) (id handle : String)
    (f : Failure) : R _ (undo ctx id handle handler f) := by
  refine h.bind h.settle fun _ => h.bind (h.rollback handle) fun undone => ?_
  cases undone with
  | error e => exact h.throw _
  | ok _ => exact h.ask_bind trivial fun _ => h.recover hh id _

theorem transaction {body : Exec Json} {handler : Option (Exec Json)} (hb : R _ body)
    (hh : ∀ x ∈ handler, R _ x) (id : String) : R _ (transaction ctx id body handler) := by
  refine h.bind h.settle fun _ => h.ask_bind trivial fun begun => h.bind (h.result _) fun handle => ?_
  refine h.bind (h.outcome (h.inFrame (.plain _) hb)) fun r => ?_
  cases r with
  | ok output =>
      refine h.bind ?_ fun _ => h.pure _
      exact h.ask_bind trivial fun _ => h.bind (h.result _) fun _ =>
        h.ask_bind trivial fun _ => h.result _
  | error f => exact h.undo hh id handle f

theorem fanOut {branches : Context → Scope → Except Control.Fault (List Branch)}
    {policy : JoinPolicy} (hjoin : ∀ group bs, R _ (Exec.ask (.join ctx.run policy group bs)))
    (id : String) : R _ (fanOut ctx id policy branches) := by
  refine h.ask_bind trivial fun _ => h.decide fun _ _ _ => h.bind (hjoin _ _) fun joined => ?_
  refine h.bind (h.result joined) fun _ => h.ask_bind trivial fun (cancelled : Bool) => ?_
  cases cancelled with
  | true => exact h.throw _
  | false => exact h.pure _

/-- A property of routine effects holds of every step if it holds of every fan-out. -/
theorem compositional (hfanOut : ∀ {ctx : Context}
      {branches : Context → Scope → Except Control.Fault (List Branch)} (id : String)
      (policy : JoinPolicy), R _ (Execution.fanOut ctx id policy branches)) :
    Compositional fun _ β x => R β x where
  result r := h.result r
  alter hg := h.alter hg
  bind hx hf := h.bind hx hf
  decide hf := h.decide hf
  inFrame henter hb := h.inFrame henter hb
  send := h.send
  node id kind retry ha := h.node ha id kind retry
  deadline {ctx attempt} id limit ha := by
    cases limit with
    | none => exact ha ctx
    | some limit => exact h.deadline id limit ha
  fanOut id policy _ := hfanOut id policy
  transaction _ _ id hb hh := h.transaction hb hh id

/-- A property of routine effects holds of every step if a fan-out has it once the bodies of all its
branches have it. -/
theorem coherent (hfanOut : ∀ {ctx : Context} {plan : Scope → Except Control.Fault (List Part)}
      (id : String) (policy : JoinPolicy), (∀ scope parts, plan scope = .ok parts → ∀ p ∈ parts,
        ∀ ctx, R _ (runSequence p.body ctx .null)) →
      R _ (Execution.fanOut ctx id policy (branchesOf plan))) :
    Coherent (fun _ => True) (fun _ => True) (fun _ => True) fun _ _ _ β x _ => R β x where
  acts fits := fits
  value a := h.pure a
  fails _ := h.throw _
  alter hg := h.alter hg
  bind hx hf := h.bind hx hf
  decide hd hf := by
    refine h.decide fun scope a ha => ?_
    obtain ⟨a', hQ⟩ := (hd scope).exists_of_ok ha
    exact hf scope a a' ha hQ
  inFrame henter hb := h.inFrame henter hb
  send _ _ hf := h.bind (h.send _ _) fun outcome => hf outcome trivial
  node _ ha := h.node ha _ _ _
  inside hb := hb
  deadline {s ctx _ _} _ ha := by
    cases s.limit ctx with
    | none => exact ha ctx ctx
    | some limit => exact h.deadline _ limit fun ctx => ha ctx ctx
  fanOut _ _ _ hparts := hfanOut _ _ fun scope parts hp p hm ctx => hparts scope parts hp p hm ctx ctx
  transaction _ _ hb ho := h.transaction hb (forall_of_rel ho) _

end Routine

theorem Effectwise.compositional {R : (β : Type) → Exec β → Prop} (h : Effectwise R) :
    Compositional fun _ β x => R β x :=
  h.toRoutine.compositional fun id policy => h.fanOut (fun group bs => h.join _ policy group bs) id

end FlowEngine
