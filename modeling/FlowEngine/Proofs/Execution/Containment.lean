import FlowEngine.Proofs.Execution.Attribution

/-!
# Where cancellations end

A program fails with a cancellation only when the scope that it runs in is cancelled. Deadlines of
attempts and joins that fail fast cancel scopes of their own below it: the attempt turns the
cancellation into a timeout, and the join hands on the failure of a branch that was not cancelled.
What is relied on is that nobody else cancels those scopes, and that no answer to a request reports
a cancellation.
-/
namespace FlowEngine

open Exec Execution

/-- An outcome that reports no cancellation. -/
def Outcome.Active (outcome : Outcome) : Prop := ∀ message, outcome ≠ .failed .cancellation message

theorem Outcome.Active.of_error {outcome : Outcome} {f : Failure} (h : outcome.Active)
    (hf : outcome.toExcept = .error f) : f.isCancellation = false := by
  cases outcome with
  | ok value => cases hf
  | failed kind message =>
      cases hf
      refine decide_eq_false fun hkind => h message ?_
      rw [show kind = .cancellation from hkind]

def BranchOutcome.failure? : BranchOutcome → Option Failure
  | completed _ => none
  | failed f | cancelled f => some f

def Grounded {α : Type} (token : Token) (cancelled : List Token) (r : Except Failure α) : Prop :=
  ∀ f, r = .error f → f.isCancellation = true → token.isCancelled cancelled = true

namespace Grounded

variable {α β : Type} {token : Token} {cancelled cancelled' : List Token} {f : Failure}

theorem ok (a : α) : Grounded token cancelled (.ok a : Except Failure α) := nofun

theorem error (h : f.isCancellation = true → token.isCancelled cancelled = true) :
    Grounded token cancelled (.error f : Except Failure α) := by
  rintro _ ⟨⟩
  exact h

theorem active (h : f.isCancellation = false) :
    Grounded token cancelled (.error f : Except Failure α) :=
  error fun hf => absurd (h.symm.trans hf) Bool.false_ne_true

theorem of_error (h : Grounded token cancelled (.error f : Except Failure α)) :
    Grounded token cancelled (.error f : Except Failure β) :=
  error (h f rfl)

theorem mono {r : Except Failure α} (h : Grounded token cancelled r) (hmore : cancelled <:+ cancelled') :
    Grounded token cancelled' r :=
  fun f hf hkind => Token.isCancelled_mono hmore (h f hf hkind)

end Grounded

structure Containment where
  run : Nat
  token : Token
  /-- The ids of steps that are done nowhere but in the scope of the run itself. -/
  Top : String → Prop
  Started : Nat → Token → Prop

namespace Containment

variable (w : Containment)

/-- What may be answered to the tasks of a run when certain tokens are cancelled by then. A deadline
that has not passed did not cancel its token, and what a join reports of its branches is a
cancellation only if the scope around it is cancelled. -/
def Admits (cancelled : List Token) : (e : Effect) → e.Answer → Prop
  | .isCancelled t, answer => answer = t.isCancelled cancelled
  | .childToken t, answer => ∃ n, answer = t.child n
  | .startDeadline t _, deadline => w.Started deadline t
  | .stopDeadline deadline, passed => passed = false →
      ∀ t, w.Started deadline t → w.token.covers t = true → t ∉ cancelled
  | .request run token _, answer => run = w.run →
      (∀ moment, answer = .error moment → token.isCancelled cancelled = true) ∧
        ∀ outcome, answer = .ok outcome → outcome.Active
  | .sleep token _, waited => ∀ t ∈ token, waited = false → t.isCancelled cancelled = true
  | .join run _ group _, answer => run = w.run → ∀ above n, group = above.child n →
      w.token.covers above = true → Grounded above cancelled answer ∧
        ∀ outcomes, answer = .ok outcomes → ∀ outcome ∈ outcomes, ∀ f ∈ outcome.failure?,
          f.isCancellation = true → above.isCancelled cancelled = true
  | .beginTransaction _, answer => ∀ e, answer = .error e → e.Bare
  | .releaseTransaction _ _, answer | .discardSnapshot _, answer | .restoreSnapshot _, answer =>
      ∀ e, answer = .error e → e.Bare
  | _, _ => True

/-- The state is what was cancelled so far. Only a run that is cancelled is closed as such or writes
one of its own steps down as cancelled or skipped. -/
def protocol : Protocol (List Token) where
  allows cancelled e := match e with
    | .join run _ group bs => run = w.run → w.token.covers group = true ∧
        ∀ b ∈ bs, ∃ ctx scope body collect, b = .steps ctx scope body collect ∧ ctx.run = w.run ∧
          ctx.token = group ∧ ∀ n ∈ Step.sequenceNodes body, ¬ w.Top n.id
    | .note run (.record r) => run = w.run → w.Top r.stepId →
        r.status = .cancelled ∨ r.status = .skipped → w.token.isCancelled cancelled = true
    | .closeRun run ending _ => run = w.run → ∀ f, ending = .cancelled f →
        w.token.isCancelled cancelled = true
    | _ => True
  moves cancelled e answer cancelled' := cancelled <:+ cancelled' ∧ w.Admits cancelled' e answer

variable {w} {α β : Type} {ctx : Context} {s : Step} {cancelled : List Token}

/-- A program fails with a cancellation only when its scope is cancelled. -/
def Confines (w : Containment) (token : Token) (x : Exec α) : Prop :=
  ∀ cancelled, x.Obeys w.protocol (Grounded token) cancelled

namespace Confines

variable {token : Token}

theorem value (a : α) : w.Confines token (pure a) := fun _ => obeys_pure.mpr (.ok a)

theorem throw {f : Failure} (h : f.isCancellation = false) : w.Confines token (throw f : Exec α) :=
  fun _ => obeys_throw.mpr (.active h)

theorem bind {x : Exec α} {k : α → Exec β} (hx : w.Confines token x)
    (hk : ∀ a, w.Confines token (k a)) : w.Confines token (x >>= k) := by
  intro cancelled
  refine obeys_bind ((hx cancelled).mono fun _ r hr => ?_)
  cases r with
  | ok a => exact hk a _
  | error f => exact hr.of_error

theorem decide {d : Scope → Except Control.Fault α} {k : α → Exec β}
    (hk : ∀ scope a, d scope = .ok a → w.Confines token (k a)) :
    w.Confines token (decided d >>= k) :=
  fun cancelled => obeys_decided_bind (fun scope a ha => hk scope a ha cancelled)
    fun fault => .active fault.bare.active

theorem inFrame {x : Exec α} (hx : w.Confines token x) (enter : Scope → Scope) :
    w.Confines token (inFrame enter x) := fun cancelled => obeys_inFrame (hx cancelled)

/-- A request is given up when its scope is cancelled, and its reply reports no cancellation. -/
theorem send (hrun : ctx.run = w.run) (id : String) (request : Request) (cancelled : List Token) :
    (send ctx id request).Obeys w.protocol (fun later r => Grounded ctx.token later r ∧
      ∀ outcome, r = .ok outcome → outcome.Active) cancelled := by
  refine obeys_bind (obeys_ask.mpr ⟨trivial, fun (stopped : Bool) later ⟨_, looked⟩ => ?_⟩)
  cases stopped with
  | true => exact obeys_throw.mpr ⟨.error fun _ => looked.symm, nofun⟩
  | false =>
      refine obeys_bind (obeys_ask.mpr ⟨trivial, fun answer last ⟨_, admitted⟩ => ?_⟩)
      obtain ⟨hinterrupted, hactive⟩ := admitted hrun
      cases answer with
      | ok outcome =>
          refine obeys_pure.mpr ⟨.ok outcome, ?_⟩
          rintro _ ⟨⟩
          exact hactive outcome rfl
      | error moment => exact obeys_throw.mpr ⟨.error fun _ => hinterrupted moment rfl, nofun⟩

/-! ## Attempts -/

/-- What the attempts of a step come to: they fail with a cancellation only when the scope of the step
is cancelled. -/
def Attempted (token : Token) (cancelled : List Token)
    (r : Except Failure (Nat × Except Failure α)) : Prop :=
  ∃ number result, r = .ok (number, result) ∧ Grounded token cancelled result

theorem afterAttempt {again : Option (Exec (Nat × Except Failure α))}
    (hagain : ∀ x ∈ again, ∀ later, x.Obeys w.protocol (Attempted ctx.token) later) (id : String)
    (policy : Option RetryPolicy) (number : Nat) {r : Except Failure α}
    (hr : Grounded ctx.token cancelled r) :
    (afterAttempt ctx id policy number again r).Obeys w.protocol (Attempted ctx.token) cancelled := by
  unfold Execution.afterAttempt
  cases r with
  | ok a => exact obeys_pure.mpr ⟨_, _, rfl, .ok a⟩
  | error f =>
      have hf : Grounded ctx.token cancelled (.error (f.atStep id) : Except Failure α) :=
        .error (hr f rfl)
      dsimp only
      split
      · rename_i g hdecide
        refine obeys_pure.mpr ⟨_, _, rfl, ?_⟩
        rcases Retry.decide_giveUp hdecide with rfl | ⟨-, rfl, -⟩
        · exact hf
        · exact .active rfl
      · exact obeys_pure.mpr ⟨_, _, rfl, hf⟩
      · refine obeys_bind (obeys_ask.mpr ⟨trivial, fun (waited : Bool) later ⟨_, admitted⟩ => ?_⟩)
        cases waited with
        | true => exact hagain _ rfl later
        | false => exact obeys_pure.mpr ⟨_, _, rfl, .error fun _ => admitted ctx.token rfl rfl⟩

theorem attempts {attempt : Exec α} (ha : w.Confines ctx.token attempt) (id : String)
    (policy : Option RetryPolicy) (further number : Nat) (cancelled : List Token) :
    (attempts ctx id policy attempt further number).Obeys w.protocol (Attempted ctx.token)
      cancelled := by
  induction further generalizing number cancelled with
  | zero =>
      refine obeys_bind (obeys_outcome ((ha cancelled).mono fun _ r hr => ?_))
      exact afterAttempt (by simp) id policy number hr
  | succ further ih =>
      refine obeys_bind (obeys_outcome ((ha cancelled).mono fun _ r hr => ?_))
      refine afterAttempt ?_ id policy number hr
      rintro x ⟨⟩ later
      exact ih (number + 1) later

/-- Only in a scope that is cancelled is a step written down as cancelled or skipped. -/
theorem node {attempt : Exec Reached} (ha : w.Confines ctx.token attempt) (id kind : String)
    (retry : Option RetryPolicy) (htop : w.Top id → ctx.token = w.token) :
    w.Confines ctx.token (node ctx id kind retry attempt) := by
  intro cancelled
  refine obeys_bind (obeys_ask.mpr ⟨trivial, ?_⟩)
  rintro (stopped : Bool) later ⟨-, looked⟩
  cases stopped with
  | true =>
      refine obeys_bind (obeys_ask.mpr ⟨fun _ top _ => ?_, ?_⟩)
      · rw [← htop top]
        exact looked.symm
      · rintro _ last ⟨hmore, -⟩
        exact obeys_throw.mpr (.error fun _ => Token.isCancelled_mono hmore looked.symm)
  | false =>
      refine obeys_bind (obeys_ask.mpr ⟨trivial, fun _ later _ => ?_⟩)
      refine obeys_bind ((attempts ha id retry _ 1 later).mono ?_)
      rintro ended _ ⟨number, result, rfl, hresult⟩
      refine obeys_bind (obeys_ask.mpr ⟨fun _ top hstatus => ?_, ?_⟩)
      · rw [← htop top]
        cases result with
        | ok reached => rcases hstatus with hstatus | hstatus <;> cases hstatus
        | error f =>
            refine hresult f rfl ?_
            cases hkind : f.isCancellation with
            | true => rfl
            | false => rcases hstatus with hstatus | hstatus <;> simp [statusOf, hkind] at hstatus
      · rintro _ noted ⟨hnoted, -⟩
        refine obeys_bind (obeys_ask.mpr ⟨trivial, ?_⟩)
        rintro _ closed ⟨hclosed, -⟩
        cases result with
        | ok reached => exact obeys_bind (obeys_modify.mpr (obeys_pure.mpr (.ok reached)))
        | error f => exact obeys_throw.mpr ((hresult.mono hnoted).mono hclosed).of_error

/-- What an attempt under a deadline comes to. The cancellation that its deadline has caused is a
timeout of the step. -/
theorem withDeadline {attempt : Context → Exec α} (hcovers : w.token.covers ctx.token = true)
    (id : String) (limit : Option Millis)
    (ha : ∀ token, w.token.covers token = true → w.Confines token (attempt { ctx with token })) :
    w.Confines ctx.token (withDeadline ctx id limit attempt) := by
  cases limit with
  | none => exact ha ctx.token hcovers
  | some limit =>
      intro cancelled
      refine obeys_bind (obeys_ask.mpr ⟨trivial, ?_⟩)
      rintro _ granted ⟨-, n, rfl⟩
      have hinner : w.token.covers (ctx.token.child n) = true := Token.covers_child _ _ _ hcovers
      refine obeys_bind (obeys_ask.mpr ⟨trivial, fun deadline begun ⟨_, started⟩ => ?_⟩)
      refine obeys_bind (obeys_outcome ((ha _ hinner begun).mono fun ended result hresult => ?_))
      refine obeys_bind (obeys_ask.mpr ⟨trivial, fun (passed : Bool) stopped ⟨hstopped, admitted⟩ => ?_⟩)
      cases result with
      | ok a => exact obeys_pure.mpr (.ok a)
      | error f =>
          refine obeys_bind (obeys_ask.mpr ⟨trivial, fun (outer : Bool) later ⟨hlater, looked⟩ => ?_⟩)
          change (ite _ _ _ : Exec α).Obeys w.protocol (Grounded ctx.token) later
          split
          · exact obeys_throw.mpr (.active rfl)
          · rename_i hcause
            refine obeys_throw.mpr (.error fun hkind => ?_)
            cases passed with
            | true =>
                simp only [hkind, Bool.true_and, Bool.not_eq_true, Bool.not_eq_false'] at hcause
                exact looked.symm.trans hcause
            | false =>
                have hcancelled := Token.isCancelled_mono hstopped (hresult f rfl hkind)
                have hown := admitted rfl _ started hinner
                exact Token.isCancelled_mono hlater (Token.isCancelled_of_child hcancelled hown)

/-! ## Fan-outs and transactions -/

def Gathered (token : Token) (cancelled : List Token) (r : Except Failure Reached) : Prop :=
  Grounded token cancelled r ∧ ∀ reached, r = .ok reached → ∃ outcomes : List BranchOutcome,
    reached = .value (.arr (outcomes.map BranchOutcome.envelope)) ∧
      ∀ outcome ∈ outcomes, ∀ f ∈ outcome.failure?, f.isCancellation = false

theorem fanOut {plan : Scope → Except Control.Fault (List Part)} (hrun : ctx.run = w.run)
    (hcovers : w.token.covers ctx.token = true) (id : String) (policy : JoinPolicy)
    (nested : ∀ scope parts, plan scope = .ok parts → ∀ p ∈ parts,
      ∀ n ∈ Step.sequenceNodes p.body, ¬ w.Top n.id) (cancelled : List Token) :
    (fanOut ctx id policy (branchesOf plan)).Obeys w.protocol (Gathered ctx.token) cancelled := by
  have failed {f : Failure} {later : List Token}
      (h : Grounded ctx.token later (.error f : Except Failure Reached)) :
      Gathered ctx.token later (.error f) := ⟨h, nofun⟩
  refine obeys_bind (obeys_ask.mpr ⟨trivial, ?_⟩)
  rintro _ granted ⟨-, n, rfl⟩
  refine obeys_decided_bind (fun scope bs hbs => ?_) fun fault => failed (.active fault.bare.active)
  have hjoin : w.protocol.allows granted (.join ctx.run policy (ctx.token.child n) bs) := by
    refine fun _ => ⟨Token.covers_child _ _ _ hcovers, fun b hb => ?_⟩
    unfold branchesOf at hbs
    cases hplan : plan scope with
    | error fault =>
        rw [hplan] at hbs
        cases hbs
    | ok parts =>
        rw [hplan] at hbs
        cases hbs
        obtain ⟨p, hp, rfl⟩ := List.mem_map.mp hb
        exact ⟨_, _, _, _, rfl, hrun, rfl, nested scope parts hplan p hp⟩
  refine obeys_bind (obeys_ask.mpr ⟨hjoin, fun joined later ⟨_, admitted⟩ => ?_⟩)
  obtain ⟨hgrounded, hgathered⟩ := admitted hrun ctx.token n rfl hcovers
  refine obeys_bind (obeys_ofResult.mpr ?_)
  cases joined with
  | error f => exact failed hgrounded.of_error
  | ok outcomes =>
      refine obeys_bind (obeys_ask.mpr ⟨trivial, fun (stopped : Bool) last ⟨hlast, looked⟩ => ?_⟩)
      cases stopped with
      | true => exact obeys_throw.mpr (failed (.error fun _ => looked.symm))
      | false =>
          refine obeys_pure.mpr ⟨.ok _, ?_⟩
          rintro _ ⟨⟩
          refine ⟨outcomes, rfl, fun outcome hmem f hf => eq_false_of_ne_true fun hkind => ?_⟩
          have hcancelled := Token.isCancelled_mono hlast
            (hgathered outcomes rfl outcome hmem f hf hkind)
          exact Bool.false_ne_true (looked.trans hcancelled)

theorem orFail {r : Except EngineError α} (h : ∀ e, r = .error e → e.Bare) :
    Grounded token cancelled (r.mapError EngineError.toFailure) := by
  cases r with
  | ok a => exact .ok a
  | error e => exact .active (h e rfl).active

/-- What escapes from a boundary is a cancellation only when the scope is cancelled, whether its
handler ran or not. -/
theorem boundary {handler : Exec Json} (hh : w.Confines ctx.token handler) (name : String)
    {f : Failure} (hf : Grounded ctx.token cancelled (.error f : Except Failure Json)) :
    (boundary ctx name handler f).Obeys w.protocol (Grounded ctx.token) cancelled := by
  unfold Execution.boundary
  split
  · refine obeys_bind (obeys_ask.mpr ⟨trivial, fun _ later _ => ?_⟩)
    refine obeys_bind (obeys_outcome ((hh.inFrame _ later).mono fun last r hr => ?_))
    refine obeys_ofResult.mpr ?_
    cases r with
    | ok value => exact .ok f
    | error g =>
        simp only [Except.map, Boundary.resolve]
        split
        · exact .error (hr g rfl)
        · exact hr.of_error
  · exact obeys_throw.mpr hf.of_error

theorem recover {handler : Option (Exec Json)} (hh : ∀ x ∈ handler, w.Confines ctx.token x)
    (id : String) {f : Failure} (hf : Grounded ctx.token cancelled (.error f : Except Failure Json)) :
    (recover ctx id handler f).Obeys w.protocol (Grounded ctx.token) cancelled := by
  cases handler with
  | none => exact obeys_throw.mpr hf.of_error
  | some x =>
      refine obeys_bind ((boundary (hh x rfl) id hf).mono fun later r hr => ?_)
      cases r with
      | ok handled =>
          exact obeys_bind (obeys_ask.mpr ⟨trivial, fun _ _ _ => obeys_pure.mpr (.ok _)⟩)
      | error g => exact hr.of_error

theorem settle (cancelled : List Token) : (settle ctx).Obeys w.protocol
    (fun later r => cancelled <:+ later ∧ r = .ok ()) cancelled :=
  obeys_bind (obeys_ask.mpr ⟨trivial, fun _ _ ⟨hmore, _⟩ => obeys_pure.mpr ⟨hmore, rfl⟩⟩)

theorem rollback (handle : String) (cancelled : List Token) :
    (rollback ctx handle).Obeys w.protocol (fun later r => cancelled <:+ later ∧
      ∃ undone, r = .ok undone ∧ ∀ e, undone = .error e → e.Bare) cancelled := by
  refine obeys_bind (obeys_ask.mpr ⟨trivial, fun released later ⟨hlater, admitted⟩ => ?_⟩)
  cases released with
  | error e => exact obeys_pure.mpr ⟨hlater, _, rfl, admitted⟩
  | ok _ =>
      refine obeys_bind (obeys_ask.mpr ⟨trivial, fun restored last moved => ?_⟩)
      exact obeys_pure.mpr ⟨hlater.trans moved.1, _, rfl, moved.2⟩

theorem undo {handler : Option (Exec Json)} (hh : ∀ x ∈ handler, w.Confines ctx.token x)
    (id handle : String) {f : Failure}
    (hf : Grounded ctx.token cancelled (.error f : Except Failure Json)) :
    (undo ctx id handle handler f).Obeys w.protocol (Grounded ctx.token) cancelled := by
  refine obeys_bind ((settle cancelled).mono ?_)
  rintro settled _ ⟨hsettled, rfl⟩
  refine obeys_bind ((rollback handle settled).mono ?_)
  rintro later _ ⟨hlater, undone, rfl, hundone⟩
  cases undone with
  | error e => exact obeys_throw.mpr (.active (hundone e rfl).active)
  | ok _ =>
      refine obeys_bind (obeys_ask.mpr ⟨trivial, fun _ noted ⟨hnoted, _⟩ => recover hh id ?_⟩)
      exact .error (((hf.mono hsettled).mono hlater).mono hnoted f rfl)

theorem commit (handle : String) : w.Confines token (commit ctx handle) := by
  intro cancelled
  refine obeys_bind (obeys_ask.mpr ⟨trivial, fun released later ⟨_, admitted⟩ => ?_⟩)
  refine obeys_bind (obeys_orFail.mpr ?_)
  cases released with
  | error e => exact .active (admitted e rfl).active
  | ok _ =>
      refine obeys_bind (obeys_ask.mpr ⟨trivial, fun discarded last ⟨_, admitted⟩ => ?_⟩)
      exact obeys_orFail.mpr (orFail admitted)

theorem transaction {body : Exec Json} {handler : Option (Exec Json)} (hb : w.Confines ctx.token body)
    (hh : ∀ x ∈ handler, w.Confines ctx.token x) (id : String) :
    w.Confines ctx.token (transaction ctx id body handler) := by
  intro cancelled
  refine obeys_bind ((settle cancelled).mono ?_)
  rintro settled _ ⟨-, rfl⟩
  refine obeys_bind (obeys_ask.mpr ⟨trivial, fun begun later ⟨_, admitted⟩ => ?_⟩)
  refine obeys_bind (obeys_orFail.mpr ?_)
  cases begun with
  | error e => exact .active (admitted e rfl).active
  | ok handle =>
      refine obeys_bind (obeys_outcome ((hb.inFrame _ later).mono fun ended r hr => ?_))
      cases r with
      | ok output => exact (commit handle).bind (fun _ => .value _) ended
      | error f => exact undo hh id handle hr

end Confines

/-! ## Steps -/

theorem coherent (w : Containment) :
    Coherent (fun n => ¬ w.Top n.id) (fun _ => True) Outcome.Active fun _ ctx _ _ x _ =>
      ctx.run = w.run → w.token.covers ctx.token = true → w.Confines ctx.token x where
  acts _ := trivial
  value a _ _ := .value a
  fails {s ctx ctx' β f} hf _ _ := by
    refine .throw (eq_false_of_ne_true fun hkind => ?_)
    obtain ⟨outcome, hactive, houtcome⟩ := hf.reported hkind
    exact Bool.false_ne_true ((hactive.of_error houtcome).symm.trans hkind)
  alter _ _ _ _ := obeys_modify.mpr (.ok _)
  bind hx hf hrun hcovers := (hx hrun hcovers).bind fun a => hf a hrun hcovers
  decide hd hf hrun hcovers := by
    refine .decide fun scope a ha => ?_
    obtain ⟨a', hQ⟩ := (hd scope).exists_of_ok ha
    exact hf scope a a' ha hQ hrun hcovers
  inFrame _ hb hrun hcovers := (hb hrun hcovers).inFrame _
  send {s ctx ctx' request f} _ _ hf hrun hcovers cancelled := by
    refine obeys_bind ((Confines.send hrun s.id request cancelled).mono fun later r hr => ?_)
    cases r with
    | ok outcome => exact hf outcome (hr.2 outcome rfl) hrun hcovers later
    | error f => exact hr.1.of_error
  node htop ha hrun hcovers := .node (ha hrun hcovers) _ _ _ fun top => absurd top htop
  inside hb := hb
  deadline {s ctx ctx' attempt} _ ha hrun hcovers :=
    .withDeadline hcovers _ _ fun token htoken => ha _ ctx hrun htoken
  fanOut _ _ nested _ hrun hcovers cancelled :=
    (Confines.fanOut hrun hcovers _ _ (fun scope parts hparts p hp n hn =>
      (nested scope parts hparts p hp n hn).2) cancelled).mono fun _ _ => And.left
  transaction _ _ hb ho hrun hcovers :=
    .transaction (hb hrun hcovers) (fun x hx => forall_of_rel ho x hx hrun hcovers) _

/-- A sequence of steps in a scope of the run fails with a cancellation only when the scope is
cancelled. -/
theorem sequence {steps : List Step} (nested : ∀ n ∈ Step.sequenceNodes steps, ¬ w.Top n.id)
    (hrun : ctx.run = w.run) (hcovers : w.token.covers ctx.token = true) (last : Json) :
    w.Confines ctx.token (runSequence steps ctx last) :=
  w.coherent.sequence steps nested ctx ctx last hrun hcovers

/-- The program of an action fails with a cancellation only when its scope is cancelled. -/
theorem action (nested : ∀ n ∈ Step.actionNodes s.action, ¬ w.Top n.id) (hrun : ctx.run = w.run)
    (hcovers : w.token.covers ctx.token = true) :
    w.Confines ctx.token (s.action.run s.id ctx) :=
  w.coherent.action s s.action rfl trivial nested ctx ctx hrun hcovers

/-- A step fails with a cancellation only when its scope is cancelled. -/
theorem step (nested : ∀ n ∈ Step.actionNodes s.action, ¬ w.Top n.id) (hrun : ctx.run = w.run)
    (hcovers : w.token.covers ctx.token = true) (htop : w.Top s.id → ctx.token = w.token) :
    w.Confines ctx.token (s.run ctx) := by
  obtain ⟨id, action, retry, timeout⟩ := s
  rw [Step.run]
  refine .node (.withDeadline hcovers _ _ fun token htoken => ?_) _ _ _ htop
  exact Containment.action (s := .mk id action retry timeout) nested hrun htoken

/-- So does a sequence of steps that lies in the scope of the run itself. -/
theorem own {steps : List Step}
    (nested : ∀ s ∈ steps, ∀ n ∈ Step.actionNodes s.action, ¬ w.Top n.id) (hrun : ctx.run = w.run)
    (htoken : ctx.token = w.token) (last : Json) : w.Confines ctx.token (runSequence steps ctx last) := by
  have hcovers : w.token.covers ctx.token = true := htoken ▸ Token.covers_self w.token
  induction steps generalizing last with
  | nil =>
      rw [runSequence]
      exact .value last
  | cons s rest ih =>
      obtain ⟨hs, hrest⟩ := List.forall_mem_cons.mp nested
      rw [runSequence]
      refine (step hs hrun hcovers fun _ => htoken).bind fun reached => ?_
      split
      · exact .value _
      · exact ih hrest _

theorem gathers {a : Action} {policy : JoinPolicy} (hpolicy : a.policy? = some policy)
    (nested : ∀ n ∈ Step.actionNodes a, ¬ w.Top n.id) (hrun : ctx.run = w.run)
    (hcovers : w.token.covers ctx.token = true) (id : String) (cancelled : List Token) :
    (a.run id ctx).Obeys w.protocol (Confines.Gathered ctx.token) cancelled := by
  cases a with
  | parallel bodies join =>
      rw [Action.run, parallelBranches_eq]
      apply Confines.fanOut hrun hcovers
      intro scope parts hparts p hp n hn
      cases hparts
      obtain ⟨part, hpart, rfl⟩ := List.mem_map.mp hp
      exact nested n (Step.mem_parallelNodes hpart hn)
  | forEach collection binding body join collect =>
      rw [Action.run]
      have failed (fault : Control.Fault) (later : List Token) : Confines.Gathered ctx.token later
          (.error fault.toError.toFailure) := ⟨.active fault.bare.active, nofun⟩
      refine obeys_decided_bind (fun _ value _ => ?_) fun fault => failed fault cancelled
      refine obeys_decided_bind (fun _ items _ => ?_) fun fault => failed fault cancelled
      rw [elementBranches_eq]
      apply Confines.fanOut hrun hcovers
      intro scope parts hparts p hp
      rw [body_of_elementParts hparts p hp]
      exact nested
  | _ => cases hpolicy

end Containment
end FlowEngine
