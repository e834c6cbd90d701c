import FlowEngine.Proofs.Execution.Coherent
import FlowEngine.Proofs.Execution.Flow

/-!
# Where failures come from

A failure is raised by a step, or on the way to one: an expression, a collaborator or the store
fails without naming a step, and the step that it happened in puts its name to it. Then the step is
written down. So whatever escapes from a sequence is explained by something that was written down,
as long as that is so for the failures of the branches that were waited for.
-/
namespace FlowEngine

open Exec Execution

structure StepRecord.Explains (verbatim : Prop) (r : StepRecord) (f : Failure) : Prop where
  step : f.stepId = some r.stepId
  failed : f.isCancellation = false → r.status = .failed
  cancelled : f.isCancellation = true → r.status = .cancelled ∨ r.status = .skipped
  verbatim : verbatim → r.error = some f

/-- A step hands failures on as it gets them, apart from putting its name to them. -/
def Step.Transparent (s : Step) : Prop :=
  s.retry = none ∧ ∀ body onError, s.action ≠ .transaction body onError

structure Provenance where
  run : Nat
  Fits : Step → Prop
  Written : StepRecord → Prop
  verbatim : Prop
  transparent : verbatim → ∀ s, Fits s → s.Transparent

structure EngineError.Bare (e : EngineError) : Prop where
  nameless : e.toFailure.stepId = none
  active : e.toFailure.isCancellation = false

theorem Control.Fault.bare (fault : Fault) : fault.toError.Bare := by
  cases fault with
  | expr e =>
      cases e with
      | scope e => cases e <;> exact ⟨rfl, rfl⟩
      | _ => exact ⟨rfl, rfl⟩
  | _ => exact ⟨rfl, rfl⟩

theorem Failure.atStep_of_some {f : Failure} {id : String} (h : f.stepId = some id) (other : String) :
    f.atStep other = f := by
  cases f
  subst h
  rfl

theorem Failure.atStep_of_none {f : Failure} (h : f.stepId = none) (id : String) :
    (f.atStep id).stepId = some id := by
  simp [atStep, h]

/-- A policy gives up with the failure itself, or with one that wraps it and is no cancellation. -/
theorem Retry.decide_giveUp {policy : Option RetryPolicy} {number : Nat} {f g : Failure}
    (h : Retry.decide policy number f = .giveUp g) :
    g = f ∨ policy ≠ none ∧ g = .exhausted number f ∧ f.isCancellation = false := by
  unfold Retry.decide at h
  split at h
  · cases h
    exact Or.inl rfl
  · rename_i p
    split at h
    · cases h
      exact Or.inl rfl
    · rename_i hretries
      split at h
      · cases h
        refine Or.inr ⟨Option.some_ne_none p, rfl, ?_⟩
        unfold RetryPolicy.retries at hretries
        cases hkind : f.kind <;> simp_all [ErrorKind.isRetryable, Failure.isCancellation]
      · cases h

namespace Provenance

variable {w : Provenance} {f g : Failure}

def Explained (w : Provenance) (f : Failure) : Prop :=
  ∃ s r, w.Fits s ∧ w.Written r ∧ r.stepId = s.id ∧ r.Explains w.verbatim f

def Traced (w : Provenance) (o : Option Step) (f : Failure) : Prop :=
  w.Explained f ∨ ∃ s ∈ o, f.stepId = none ∨ f.stepId = some s.id

def Accounts (w : Provenance) : Ending → Prop
  | .completed => True
  | .failed f => w.Explained f ∧ f.isCancellation = false
  | .cancelled f => ∃ g, f.stepId = g.stepId ∧ w.Explained g

theorem Explained.of_like (h : w.Explained f) (hstep : g.stepId = f.stepId)
    (hkind : g.isCancellation = f.isCancellation) (hplain : ¬ w.verbatim) : w.Explained g := by
  obtain ⟨s, r, fits, written, hr, hexplains⟩ := h
  refine ⟨s, r, fits, written, hr, hstep.trans hexplains.step, fun h => ?_, fun h => ?_, ?_⟩
  · exact hexplains.failed (hkind.symm.trans h)
  · exact hexplains.cancelled (hkind.symm.trans h)
  · exact fun h => absurd h hplain

theorem Explained.atStep (h : w.Explained f) (id : String) : f.atStep id = f := by
  obtain ⟨s, r, -, -, -, hexplains⟩ := h
  exact Failure.atStep_of_some hexplains.step id

/-- Put down to the step that is at work, a failure is explained or named after it. -/
theorem Traced.atStep {s : Step} (h : w.Traced (some s) f) :
    w.Explained (f.atStep s.id) ∨ (f.atStep s.id).stepId = some s.id := by
  rcases h with hf | ⟨_, ⟨⟩, hnone | hsome⟩
  · rw [hf.atStep]
    exact Or.inl hf
  · exact Or.inr (Failure.atStep_of_none hnone s.id)
  · rw [Failure.atStep_of_some hsome]
    exact Or.inr hsome

theorem traced_none : w.Traced none f ↔ w.Explained f := by
  simp [Traced]

theorem Traced.own {s : Step} (h : f.stepId = some s.id) : w.Traced (some s) f :=
  Or.inr ⟨s, rfl, Or.inr h⟩

theorem Traced.raw {s : Step} (h : f.stepId = none) : w.Traced (some s) f :=
  Or.inr ⟨s, rfl, Or.inl h⟩

/-- What may be answered to the tasks of a run: records are written down, the failures of branches
are explained or name no step, and neither do those of the store. -/
def Admits (w : Provenance) : (e : Effect) → e.Answer → Prop
  | .note run (.record r), _ => run = w.run → w.Written r
  | .join run _ _ _, answer => run = w.run →
      ∀ f, answer = .error f → f.stepId = none ∨ w.Explained f
  | .beginTransaction _, answer => ∀ e, answer = .error e → e.Bare
  | .releaseTransaction _ _, answer | .discardSnapshot _, answer | .restoreSnapshot _, answer =>
      ∀ e, answer = .error e → e.Bare
  | _, _ => True

def protocol (w : Provenance) : Protocol Unit where
  allows _ e := match e with
    | .join run _ _ bs => run = w.run → ∀ b ∈ bs, ∃ ctx scope body collect,
        b = .steps ctx scope body collect ∧ ctx.run = w.run ∧ ∀ n ∈ Step.sequenceNodes body, w.Fits n
    | .closeRun run ending _ => run = w.run → w.Accounts ending
    | _ => True
  moves _ e answer _ := w.Admits e answer

/-! ## Programs of steps -/

variable {α β : Type} {o : Option Step} {s : Step} {ctx : Context}

def Raises (w : Provenance) (o : Option Step) (x : Exec α) : Prop :=
  x.Obeys w.protocol (fun _ r => ∀ f, r = .error f → w.Traced o f) ()

namespace Raises

theorem value (a : α) : w.Raises o (pure a) := obeys_pure.mpr (by rintro f ⟨⟩)

theorem throw (h : w.Traced o f) : w.Raises o (throw f : Exec α) := by
  refine obeys_throw.mpr ?_
  rintro _ ⟨⟩
  exact h

theorem result {r : Except Failure α} (h : ∀ f, r = .error f → w.Traced o f) :
    w.Raises o (ofResult r) := obeys_ofResult.mpr h

theorem bind {x : Exec α} {k : α → Exec β} (hx : w.Raises o x) (hk : ∀ a, w.Raises o (k a)) :
    w.Raises o (x >>= k) := by
  refine obeys_bind (hx.mono fun _ r hr => ?_)
  cases r with
  | ok a => exact hk a
  | error f =>
      rintro _ ⟨⟩
      exact hr f rfl

theorem decide {d : Scope → Except Control.Fault α} {k : α → Exec β}
    (hk : ∀ scope a, d scope = .ok a → w.Raises (some s) (k a)) :
    w.Raises (some s) (decided d >>= k) := by
  refine obeys_decided_bind hk fun fault f hf => ?_
  obtain rfl := Except.error.inj hf
  exact .raw fault.bare.nameless

theorem inFrame {x : Exec α} (hx : w.Raises o x) (enter : Scope → Scope) :
    w.Raises o (inFrame enter x) := obeys_inFrame hx

theorem ask {e : Effect} {k : e.Answer → Exec α} (allowed : w.protocol.allows () e)
    (hk : ∀ a, w.Admits e a → w.Raises o (k a)) : w.Raises o (Exec.ask e >>= k) :=
  obeys_bind (obeys_ask.mpr ⟨allowed, fun a _ admitted => hk a admitted⟩)

theorem outcome {o' : Option Step} {x : Exec α} {k : Except Failure α → Exec β} (hx : w.Raises o x)
    (hk : ∀ r, (∀ f, r = .error f → w.Traced o f) → w.Raises o' (k r)) :
    w.Raises o' (x.outcome >>= k) :=
  obeys_bind (obeys_outcome (hx.mono fun _ r hr => hk r hr))

theorem inside {x : Exec α} (hx : w.Raises none x) : w.Raises (some s) x :=
  hx.mono fun _ _ hr f hf => Or.inl (traced_none.mp (hr f hf))

theorem send (request : Request) : w.Raises (some s) (send ctx s.id request) := by
  refine ask trivial fun (cancelled : Bool) _ => ?_
  cases cancelled with
  | true => exact throw (.own rfl)
  | false =>
      refine ask trivial fun answer _ => ?_
      cases answer with
      | ok outcome => exact value outcome
      | error moment =>
          apply throw
          cases moment <;> exact .own rfl

/-! ## Attempts -/

def Attempted (w : Provenance) (s : Step) (r : Except Failure (Nat × Except Failure α)) : Prop :=
  ∃ p, r = .ok p ∧ ∀ f, p.2 = .error f → w.Explained f ∨ f.stepId = some s.id

theorem afterAttempt {again : Option (Exec (Nat × Except Failure α))} (fits : w.Fits s)
    (hagain : ∀ x ∈ again, x.Obeys w.protocol (fun _ => Attempted w s) ()) (number : Nat)
    {r : Except Failure α} (hr : ∀ f, r = .error f → w.Traced (some s) f) :
    (afterAttempt ctx s.id s.retry number again r).Obeys w.protocol (fun _ => Attempted w s) () := by
  have ends (r : Except Failure α) (hr : ∀ f, r = .error f → w.Explained f ∨ f.stepId = some s.id) :
      (pure (number, r) : Exec (Nat × Except Failure α)).Obeys w.protocol
        (fun _ => Attempted w s) () := obeys_pure.mpr ⟨_, rfl, hr⟩
  unfold Execution.afterAttempt
  cases r with
  | ok a => exact ends _ (by rintro f ⟨⟩)
  | error f =>
      have hf := (hr f rfl).atStep
      dsimp only
      split
      · rename_i g hdecide
        apply ends
        rintro _ ⟨⟩
        rcases Retry.decide_giveUp hdecide with rfl | ⟨hretry, rfl, hkind⟩
        · exact hf
        · have hplain : ¬ w.verbatim := fun h => hretry (w.transparent h s fits).1
          exact hf.imp_left fun hexplained => hexplained.of_like rfl hkind.symm hplain
      · apply ends
        rintro _ ⟨⟩
        exact hf
      · refine obeys_bind (obeys_ask.mpr ⟨trivial, fun (waited : Bool) _ _ => ?_⟩)
        cases waited with
        | true => exact hagain _ rfl
        | false =>
            apply ends
            rintro _ ⟨⟩
            exact Or.inr rfl

theorem attempts {attempt : Exec α} (fits : w.Fits s) (ha : w.Raises (some s) attempt)
    (further number : Nat) : (attempts ctx s.id s.retry attempt further number).Obeys w.protocol
      (fun _ => Attempted w s) () := by
  induction further generalizing number with
  | zero =>
      refine obeys_bind (obeys_outcome (ha.mono fun _ r hr => ?_))
      exact afterAttempt fits (by simp) number hr
  | succ further ih =>
      refine obeys_bind (obeys_outcome (ha.mono fun _ r hr => ?_))
      refine afterAttempt fits ?_ number hr
      rintro x ⟨⟩
      exact ih (number + 1)

/-- A failure that is named after a step is explained when the step has been written down. -/
theorem explained_of_written (fits : w.Fits s) {kind : String} {number : Nat}
    {r : Except Failure α} (written : w.Written ⟨s.id, kind, statusOf r, number, failureOf? r⟩)
    (hr : r = .error f) (hf : f.stepId = some s.id) : w.Explained f := by
  subst hr
  refine ⟨s, _, fits, written, rfl, hf, fun h => ?_, fun h => ?_, fun _ => rfl⟩
  · simp [statusOf, h]
  · simp [statusOf, h]

theorem node {attempt : Exec Reached} (hrun : ctx.run = w.run) (fits : w.Fits s)
    (ha : w.Raises (some s) attempt) : w.Raises none (node ctx s.id s.kind s.retry attempt) := by
  refine ask trivial fun (cancelled : Bool) _ => ?_
  cases cancelled with
  | true =>
      refine ask trivial fun _ written => throw ?_
      refine traced_none.mpr ⟨s, _, fits, written hrun, rfl, rfl, ?_, fun _ => Or.inr rfl, fun _ => rfl⟩
      rintro ⟨⟩
  | false =>
      refine ask trivial fun _ _ => obeys_bind ((attempts fits ha _ 1).mono ?_)
      rintro - _ ⟨⟨number, r⟩, rfl, hr⟩
      refine ask trivial fun _ written => ask trivial fun _ _ => ?_
      cases r with
      | ok reached =>
          exact bind (obeys_modify.mpr (by rintro f ⟨⟩)) fun _ => value _
      | error f =>
          refine throw (traced_none.mpr ((hr f rfl).elim id fun hf => ?_))
          exact explained_of_written fits (written hrun) rfl hf

theorem withDeadline {attempt : Context → Exec Reached} (limit : Option Millis)
    (ha : ∀ token, w.Raises (some s) (attempt { ctx with token })) :
    w.Raises (some s) (withDeadline ctx s.id limit attempt) := by
  cases limit with
  | none => exact ha ctx.token
  | some limit =>
      refine ask trivial fun token _ => ask trivial fun deadline _ => outcome (ha token) fun r hr => ?_
      refine ask trivial fun (passed : Bool) _ => ?_
      cases r with
      | ok a => exact value a
      | error f =>
          refine ask trivial fun (outer : Bool) _ => ?_
          split
          · exact throw (.own rfl)
          · exact throw (hr f rfl)

/-! ## Fan-outs and transactions -/

theorem fanOut {plan : Scope → Except Control.Fault (List Part)} {policy : JoinPolicy}
    (hrun : ctx.run = w.run) (fits : ∀ scope parts, plan scope = .ok parts → ∀ p ∈ parts,
      ∀ n ∈ Step.sequenceNodes p.body, w.Fits n) :
    w.Raises (some s) (fanOut ctx s.id policy (branchesOf plan)) := by
  refine ask trivial fun group _ => decide fun scope bs hbs => ?_
  have hjoin : w.protocol.allows () (.join ctx.run policy group bs) := by
    rintro - b hb
    unfold branchesOf at hbs
    cases hplan : plan scope with
    | error fault =>
        rw [hplan] at hbs
        cases hbs
    | ok parts =>
        rw [hplan] at hbs
        cases hbs
        obtain ⟨p, hp, rfl⟩ := List.mem_map.mp hb
        exact ⟨_, _, _, _, rfl, hrun, fits scope parts hplan p hp⟩
  refine ask hjoin fun joined admitted => bind (result fun f hf => ?_) fun _ => ?_
  · exact (admitted hrun f hf).elim .raw Or.inl
  · refine ask trivial fun (cancelled : Bool) _ => ?_
    cases cancelled with
    | true => exact throw (.own rfl)
    | false => exact value _

theorem orFail {r : Except EngineError α} (h : ∀ e, r = .error e → e.Bare) :
    w.Raises (some s) (orFail r) := by
  refine obeys_orFail.mpr fun f hf => ?_
  cases r with
  | ok a => cases hf
  | error e =>
      obtain rfl := Except.error.inj hf
      exact .raw (h e rfl).nameless

/-- What escapes from a boundary is explained, whether its handler ran or not. -/
theorem boundary {handler : Exec Json} (hplain : ¬ w.verbatim) (hh : w.Raises none handler)
    (name : String) (hf : w.Explained f) : w.Raises none (boundary ctx name handler f) := by
  unfold Execution.boundary
  split
  · refine ask trivial fun _ _ => outcome (hh.inFrame _) fun r hr => result fun g hg => ?_
    cases r with
    | ok value => cases hg
    | error e =>
        have he := traced_none.mp (hr e rfl)
        simp only [Except.map, Boundary.resolve] at hg
        split at hg
        · cases hg
          exact traced_none.mpr (he.of_like rfl rfl hplain)
        · cases hg
          exact traced_none.mpr he
  · exact throw (traced_none.mpr hf)

theorem settle : w.Raises o (settle ctx) := ask trivial fun _ _ => value _

theorem recover {handler : Option (Exec Json)} (hplain : ¬ w.verbatim)
    (hh : ∀ x ∈ handler, w.Raises none x) (hf : w.Explained f) :
    w.Raises (some s) (recover ctx s.id handler f) := by
  cases handler with
  | none => exact throw (Or.inl hf)
  | some x =>
      exact bind (boundary hplain (hh x rfl) s.id hf).inside fun _ => ask trivial fun _ _ => value _

theorem rollback {handle : String} {k : Except EngineError Unit → Exec α}
    (hk : ∀ r, (∀ e, r = .error e → e.Bare) → w.Raises o (k r)) :
    w.Raises o (rollback ctx handle >>= k) := by
  have hrollback : (Execution.rollback ctx handle).Obeys w.protocol
      (fun _ r => ∃ undone, r = .ok undone ∧ ∀ e, undone = .error e → e.Bare)
      () := by
    refine obeys_bind (obeys_ask.mpr ⟨trivial, fun released _ admitted => ?_⟩)
    cases released with
    | error e => exact obeys_pure.mpr ⟨_, rfl, admitted⟩
    | ok _ =>
        refine obeys_bind (obeys_ask.mpr ⟨trivial, fun restored _ admitted => ?_⟩)
        exact obeys_pure.mpr ⟨_, rfl, admitted⟩
  refine obeys_bind (hrollback.mono ?_)
  rintro - _ ⟨undone, rfl, hundone⟩
  exact hk undone hundone

theorem undo {handle : String} {handler : Option (Exec Json)} (hplain : ¬ w.verbatim)
    (hh : ∀ x ∈ handler, w.Raises none x) (hf : w.Explained f) :
    w.Raises (some s) (undo ctx s.id handle handler f) := by
  refine bind settle fun _ => rollback fun undone hundone => ?_
  cases undone with
  | error e => exact throw (.own (Failure.atStep_of_none (hundone e rfl).nameless s.id))
  | ok _ => exact ask trivial fun _ _ => recover hplain hh (hf.of_like rfl rfl hplain)

theorem transaction {body : Exec Json} {handler : Option (Exec Json)} (hplain : ¬ w.verbatim)
    (hb : w.Raises none body) (hh : ∀ x ∈ handler, w.Raises none x) :
    w.Raises (some s) (transaction ctx s.id body handler) := by
  refine bind settle fun _ => ask trivial fun begun admitted => bind (orFail admitted) fun handle => ?_
  refine outcome (hb.inFrame _) fun r hr => ?_
  cases r with
  | error f => exact undo hplain hh (traced_none.mp (hr f rfl))
  | ok output =>
      refine bind (ask trivial fun released admitted => bind (orFail admitted) fun _ => ?_)
        fun _ => value _
      exact ask trivial fun discarded admitted => orFail admitted

end Raises

theorem coherent (w : Provenance) :
    Coherent w.Fits w.Fits (fun _ => True) fun o ctx _ _ x _ =>
      ctx.run = w.run → w.Raises o x where
  acts fits := fits
  value a _ := .value a
  fails hf _ := .throw (.raw hf.nameless)
  alter _ _ := obeys_modify.mpr (by rintro f ⟨⟩)
  bind hx hf hrun := (hx hrun).bind fun a => hf a hrun
  decide hd hf hrun := by
    refine .decide fun scope a ha => ?_
    obtain ⟨a', hQ⟩ := (hd scope).exists_of_ok ha
    exact hf scope a a' ha hQ hrun
  inFrame _ hb hrun := (hb hrun).inFrame _
  send _ _ hf hrun := .bind (.send _) fun outcome => hf outcome trivial hrun
  node fits ha hrun := .node hrun fits (ha hrun)
  inside hb hrun := (hb hrun).inside
  deadline {s ctx ctx' attempt} _ ha hrun := .withDeadline _ fun token => ha _ ctx hrun
  fanOut _ _ fits _ hrun := .fanOut hrun fun scope parts hparts p hp n hn =>
    (fits scope parts hparts p hp n hn).2
  transaction {s ctx ctx' body onError} fits hs hb ho hrun := by
    have hplain : ¬ w.verbatim := fun h => (w.transparent h s fits).2 body onError hs
    exact .transaction hplain (hb hrun) fun x hx => forall_of_rel ho x hx hrun

/-- Whatever escapes from a sequence of steps of the run is explained. -/
theorem sequence {steps : List Step} (fits : ∀ n ∈ Step.sequenceNodes steps, w.Fits n)
    (hrun : ctx.run = w.run) (last : Json) : w.Raises none (runSequence steps ctx last) :=
  w.coherent.sequence steps fits ctx ctx last hrun

end Provenance
end FlowEngine
