import FlowEngine.Proofs.Run.Residence

/-!
# Interrupted steps

A step that is interrupted in its scope of cancellation unwinds: it performs no effect that it has
to wait for, does not repeat an attempt, rolls its transactions back, and fails. The failure is a
cancellation, unless a rollback was refused on the way.
-/
namespace FlowEngine

open Exec Execution

inductive Halting where
  | going
  /-- The program was interrupted; the flag tells whether a rollback was refused since. -/
  | halted (refused : Bool)

namespace Halting

/-- What interrupted programs are answered: a request is given up, no time passes, and a join hands
on the failure of a branch, which is a cancellation unless a rollback was refused. -/
def Interrupts : (e : Effect) → e.Answer → Bool → Prop
  | .request _ _ _, answer, refused => (∃ moment, answer = .error moment) ∧ refused = false
  | .sleep _ _, waited, refused => waited = false ∧ refused = false
  | .join _ _ _ _, joined, refused =>
      ∀ f, joined = .error f → refused = false → f.isCancellation = true
  | _, _, _ => False

def protocol (home : Home) : Protocol Halting where
  allows
    | going, e => Residence.Permits home e
    | halted _, e => match e with
      | .isCancelled token | .sleep (some token) _ => home.base.covers token = true
      | .stopDeadline _ | .note _ _ | .endSpan _ _ _ | .settle _ (some _)
      | .releaseTransaction _ _ | .restoreSnapshot _ => True
      | _ => False
  moves
    | going, .childToken token, a, v => (∃ n, a = token.child n) ∧ v = going
    | going, e, a, v => v = going ∨ ∃ refused, Interrupts e a refused ∧ v = halted refused
    | halted refused, .isCancelled _, cancelled, v => cancelled = true ∧ v = halted refused
    | halted refused, .sleep _ _, waited, v => waited = false ∧ v = halted refused
    | halted refused, .releaseTransaction _ _, released, v => released = .ok () ∧ v = halted refused
    | halted refused, .restoreSnapshot _, restored, v =>
        restored = .ok () ∧ refused = false ∧ v = halted false ∨
          (∃ e, restored = .error e) ∧ v = halted true
    | halted refused, _, _, v => v = halted refused

/-- A program that is interrupted fails, with a cancellation unless a rollback was refused. -/
def Ends {α : Type} (v : Halting) (r : Except Failure α) : Prop :=
  ∀ refused, v = halted refused → ∃ f, r = .error f ∧ (refused = false → f.isCancellation = true)

def Halts {α : Type} (home : Home) (x : Exec α) : Prop := x.Obeys (protocol home) Ends going

def Covers (home : Home) (ctx : Context) : Prop :=
  ctx.run = home.run ∧ home.base.covers ctx.token = true

variable {home : Home} {ctx : Context} {α β : Type}

theorem ends_going (r : Except Failure α) : Ends going r := nofun

theorem ends_error {refused : Bool} {f : Failure} (h : refused = false → f.isCancellation = true) :
    Ends (halted refused) (.error f : Except Failure α) := by
  rintro _ ⟨⟩
  exact ⟨f, rfl, h⟩

theorem ends_cancelled (v : Halting) {f : Failure} (h : f.isCancellation = true) :
    Ends v (.error f : Except Failure α) :=
  fun _ _ => ⟨f, rfl, fun _ => h⟩

namespace Halts

theorem result (r : Except Failure α) : Halts home (ofResult r) := obeys_ofResult.mpr (ends_going r)

theorem value (a : α) : Halts home (pure a : Exec α) := result (.ok a)

theorem fails (f : Failure) : Halts home (throw f : Exec α) := result (.error f)

theorem bind {x : Exec α} {f : α → Exec β} (hx : Halts home x) (hf : ∀ a, Halts home (f a)) :
    Halts home (x >>= f) := by
  refine obeys_bind (hx.mono fun v r hr => ?_)
  cases v with
  | going =>
      cases r with
      | ok a => exact hf a
      | error f => exact ends_going _
  | halted refused =>
      obtain ⟨f, rfl, hf⟩ := hr refused rfl
      exact ends_error hf

theorem inFrame {enter : Scope → Scope} {body : Exec α} (h : Halts home body) :
    Halts home (inFrame enter body) :=
  obeys_inFrame h

/-- Whoever looks at how a program ended goes on from where its interruption has got. -/
theorem outcome_bind {x : Exec α} {g : Except Failure α → Exec β} (hx : Halts home x)
    (hg : ∀ r, Halts home (g r)) (hhalted : ∀ refused f, (refused = false → f.isCancellation = true) →
      (g (.error f)).Obeys (protocol home) Ends (halted refused)) : Halts home (x.outcome >>= g) := by
  refine obeys_bind (obeys_outcome (hx.mono fun v r hr => ?_))
  cases v with
  | going => exact hg r
  | halted refused =>
      obtain ⟨f, rfl, hf⟩ := hr refused rfl
      exact hhalted refused f hf

theorem ask_bind {e : Effect} {f : e.Answer → Exec α} (he : Residence.Permits home e)
    (hf : ∀ a, Halts home (f a)) (hinterrupted : ∀ a refused, Interrupts e a refused →
      (f a).Obeys (protocol home) Ends (halted refused)) : Halts home (Exec.ask e >>= f) := by
  refine obeys_bind (obeys_ask.mpr ⟨he, fun a v hmove => ?_⟩)
  have hcases : v = going ∨ ∃ refused, Interrupts e a refused ∧ v = halted refused := by
    cases e with
    | childToken token => exact Or.inl hmove.2
    | _ => exact hmove
  obtain rfl | ⟨refused, ha, rfl⟩ := hcases
  · exact hf a
  · exact hinterrupted a refused ha

/-- An effect that nobody waits for is not interrupted. -/
theorem quick_bind {e : Effect} {f : e.Answer → Exec α} (he : Residence.Permits home e)
    (hquick : ∀ a refused, ¬ Interrupts e a refused) (hf : ∀ a, Halts home (f a)) :
    Halts home (Exec.ask e >>= f) :=
  ask_bind he hf fun a refused h => (hquick a refused h).elim

theorem child_bind {token : Token} {f : Token → Exec α} (hf : ∀ n, Halts home (f (token.child n))) :
    Halts home (Exec.ask (.childToken token) >>= f) := by
  refine obeys_bind (obeys_ask.mpr ⟨trivial, fun a v hmove => ?_⟩)
  obtain ⟨⟨n, rfl⟩, rfl⟩ := hmove
  exact hf n

end Halts

/-- An interrupted program goes on with the answers that it gets then. -/
theorem halted_bind {refused : Bool} {e : Effect} {f : e.Answer → Exec α}
    {Q : Halting → Except Failure α → Prop} (he : (protocol home).allows (halted refused) e)
    (hf : ∀ a v, (protocol home).moves (halted refused) e a v → (f a).Obeys (protocol home) Q v) :
    (Exec.ask e >>= f).Obeys (protocol home) Q (halted refused) :=
  obeys_bind (obeys_ask.mpr ⟨he, hf⟩)

/-! ## Steps -/

theorem decide_cancellation {f : Failure} (h : f.isCancellation = true)
    (policy : Option RetryPolicy) (number : Nat) (id : String) :
    Retry.decide policy number (f.atStep id) = .giveUp (f.atStep id) := by
  have hkind : (f.atStep id).kind = .cancellation := of_decide_eq_true h
  cases policy with
  | none => rfl
  | some p => simp [Retry.decide, RetryPolicy.retries, hkind, ErrorKind.isRetryable]

theorem send (hc : Covers home ctx) (id : String) (request : Request) :
    Halts home (send ctx id request) := by
  refine .quick_bind trivial (fun _ _ h => h) fun (cancelled : Bool) => ?_
  cases cancelled with
  | true => exact .fails _
  | false =>
      refine .ask_bind hc (fun answer => ?_) fun answer refused h => ?_
      · cases answer with
        | ok outcome => exact .value outcome
        | error moment => exact .fails _
      · obtain ⟨⟨moment, rfl⟩, -⟩ := h
        exact obeys_throw.mpr (ends_cancelled _ (by cases moment <;> rfl))

def Attempted (v : Halting) (r : Except Failure (Nat × Except Failure α)) : Prop :=
  ∀ refused, v = halted refused → ∃ number f, r = .ok (number, .error f) ∧
    (refused = false → f.isCancellation = true)

theorem afterAttempt (hc : Covers home ctx) {again : Option (Exec (Nat × Except Failure α))}
    (h : ∀ x ∈ again, x.Obeys (protocol home) Attempted going) (id : String)
    (policy : Option RetryPolicy) (number : Nat) {v : Halting} {r : Except Failure α}
    (hr : Ends v r) :
    (afterAttempt ctx id policy number again r).Obeys (protocol home) Attempted v := by
  have gives {v : Halting} {f : Failure} (hf : ∀ refused, v = halted refused → refused = false →
      f.isCancellation = true) :
      (pure (number, .error f) : Exec (Nat × Except Failure α)).Obeys (protocol home) Attempted v :=
    obeys_pure.mpr fun refused hv => ⟨number, f, rfl, hf refused hv⟩
  unfold Execution.afterAttempt
  cases r with
  | ok a =>
      refine obeys_pure.mpr fun refused hv => ?_
      obtain ⟨f, hf, -⟩ := hr refused hv
      cases hf
  | error f =>
      have hf (refused : Bool) (hv : v = halted refused) (hno : refused = false) :
          f.isCancellation = true := by
        obtain ⟨g, hg, hcancelled⟩ := hr refused hv
        cases hg
        exact hcancelled hno
      dsimp only
      split
      · rename_i g hdecide
        refine gives fun refused hv hno => ?_
        rw [decide_cancellation (hf refused hv hno)] at hdecide
        cases hdecide
        exact hf refused hv hno
      · exact gives hf
      · rename_i delay again hdecide
        cases v with
        | going =>
            refine obeys_bind (obeys_ask.mpr ⟨hc.2, fun (waited : Bool) v hmove => ?_⟩)
            obtain rfl | ⟨refused, ⟨rfl, rfl⟩, rfl⟩ := hmove
            · cases waited with
              | true => exact h again rfl
              | false => exact gives nofun
            · exact gives fun _ _ _ => rfl
        | halted refused =>
            refine halted_bind hc.2 fun (waited : Bool) v hmove => ?_
            obtain ⟨rfl, rfl⟩ := hmove
            exact gives fun _ _ _ => rfl

theorem attempts (hc : Covers home ctx) {attempt : Exec α} (ha : Halts home attempt)
    (id : String) (policy : Option RetryPolicy) (further number : Nat) :
    (attempts ctx id policy attempt further number).Obeys (protocol home) Attempted going := by
  induction further generalizing number with
  | zero =>
      refine obeys_bind (obeys_outcome (ha.mono fun v r hr => ?_))
      exact afterAttempt hc (by simp) id policy number hr
  | succ further ih =>
      refine obeys_bind (obeys_outcome (ha.mono fun v r hr => ?_))
      refine afterAttempt hc ?_ id policy number hr
      rintro x ⟨⟩
      exact ih (number + 1)

theorem node (hc : Covers home ctx) {attempt : Exec Reached} (ha : Halts home attempt)
    (id kind : String) (retry : Option RetryPolicy) : Halts home (node ctx id kind retry attempt) := by
  refine .quick_bind trivial (fun _ _ h => h) fun (cancelled : Bool) => ?_
  cases cancelled with
  | true => exact .quick_bind hc.1 (fun _ _ h => h) fun _ => .fails _
  | false =>
      refine .quick_bind hc (fun _ _ h => h) fun _ => ?_
      refine obeys_bind ((attempts hc ha id retry _ 1).mono fun v r hr => ?_)
      cases v with
      | going =>
          cases r with
          | error f => exact ends_going _
          | ok p =>
              obtain ⟨number, result⟩ := p
              refine Halts.quick_bind hc.1 (fun _ _ h => h) fun _ => ?_
              refine Halts.quick_bind hc.1 (fun _ _ h => h) fun _ => ?_
              cases result with
              | ok reached => exact obeys_bind (obeys_modify.mpr (obeys_pure.mpr (ends_going _)))
              | error f => exact .fails f
      | halted refused =>
          obtain ⟨number, f, rfl, hf⟩ := hr refused rfl
          refine halted_bind trivial fun _ v hmove => ?_
          obtain rfl := hmove
          refine halted_bind trivial fun _ v hmove => ?_
          obtain rfl := hmove
          exact obeys_throw.mpr (ends_error hf)

theorem withDeadline (hc : Covers home ctx) {attempt : Context → Exec Reached}
    (ha : ∀ ctx, Covers home ctx → Halts home (attempt ctx)) (id : String)
    (limit : Option Millis) : Halts home (withDeadline ctx id limit attempt) := by
  unfold Execution.withDeadline
  cases limit with
  | none => exact ha ctx hc
  | some limit =>
      refine .child_bind fun n => .quick_bind trivial (fun _ _ h => h) fun deadline => ?_
      have hattempt := ha { ctx with token := ctx.token.child n } ⟨hc.1, Token.covers_child _ _ n hc.2⟩
      refine hattempt.outcome_bind (fun result => ?_) fun refused f hf => ?_
      · refine .quick_bind trivial (fun _ _ h => h) fun passed => ?_
        cases result with
        | ok a => exact .value a
        | error f =>
            refine .quick_bind trivial (fun _ _ h => h) fun outer => ?_
            split
            · exact .fails _
            · exact .fails _
      · refine halted_bind trivial fun passed v hmove => ?_
        obtain rfl := hmove
        refine halted_bind hc.2 fun (outer : Bool) v hmove => ?_
        obtain ⟨rfl, rfl⟩ := hmove
        simp only [Bool.not_true, Bool.and_false, Bool.false_eq_true, if_false]
        exact obeys_throw.mpr (ends_error hf)

theorem fanOut (hc : Covers home ctx)
    {branches : Context → Scope → Except Control.Fault (List Branch)}
    (hbs : ∀ ctx s bs, branches ctx s = .ok bs → ∀ b ∈ bs, ∃ scope body collect,
      b = .steps ctx scope body collect) (id : String) (policy : JoinPolicy) :
    Halts home (fanOut ctx id policy branches) := by
  refine .child_bind fun n => ?_
  refine obeys_decided_bind (fun s bs hok => ?_) fun _ => ends_going _
  have hjoin : Residence.Permits home (.join ctx.run policy (ctx.token.child n) bs) := by
    refine ⟨hc.1, Token.covers_child _ _ n hc.2, fun b hb => ?_⟩
    obtain ⟨scope, body, collect, rfl⟩ := hbs _ s bs hok b hb
    exact ⟨_, scope, body, collect, rfl, hc.1, rfl⟩
  refine Halts.ask_bind hjoin (fun joined => ?_) fun joined refused h => ?_
  · refine (Halts.result joined).bind fun outcomes => ?_
    refine .quick_bind trivial (fun _ _ h => h) fun cancelled => ?_
    split
    · exact .fails _
    · exact .value _
  · refine obeys_bind (obeys_ofResult.mpr ?_)
    cases joined with
    | error f => exact ends_error (h f rfl)
    | ok outcomes =>
        refine halted_bind hc.2 fun (cancelled : Bool) v hmove => ?_
        obtain ⟨rfl, rfl⟩ := hmove
        exact obeys_throw.mpr (ends_cancelled _ rfl)

theorem boundary (hc : Covers home ctx) {handler : Exec Json} (hh : Halts home handler)
    (name : String) (f : Failure) : Halts home (boundary ctx name handler f) := by
  unfold Execution.boundary
  split
  · refine .quick_bind hc.1 (fun _ _ h => h) fun _ => ?_
    refine hh.inFrame.outcome_bind (fun result => .result _) fun refused g hg => ?_
    refine obeys_ofResult.mpr ?_
    unfold Boundary.resolve Except.map
    dsimp only
    split
    · exact ends_error hg
    · exact ends_error hg
  · exact .fails f

theorem recover (hc : Covers home ctx) {handler : Option (Exec Json)}
    (hh : ∀ x ∈ handler, Halts home x) (id : String) (f : Failure) :
    Halts home (recover ctx id handler f) := by
  cases handler with
  | none => exact .fails f
  | some x =>
      exact (boundary hc (hh x rfl) id f).bind fun _ =>
        .quick_bind hc.1 (fun _ _ h => h) fun _ => .value _

theorem settle (hc : Covers home ctx) : Halts home (settle ctx) :=
  .quick_bind hc (fun _ _ h => h) fun _ => .value _

theorem rollback (hc : Covers home ctx) (handle : String) : Halts home (rollback ctx handle) := by
  refine .quick_bind hc.1 (fun _ _ h => h) fun released => ?_
  cases released with
  | error e => exact .value _
  | ok _ => exact .quick_bind trivial (fun _ _ h => h) fun restored => .value _

theorem undo (hc : Covers home ctx) {handler : Option (Exec Json)}
    (hh : ∀ x ∈ handler, Halts home x) (id handle : String) (f : Failure) :
    Halts home (undo ctx id handle handler f) := by
  refine (settle hc).bind fun _ => (rollback hc handle).bind fun undone => ?_
  cases undone with
  | error e => exact .fails _
  | ok _ => exact .quick_bind hc.1 (fun _ _ h => h) fun _ => recover hc hh id _

/-- An interrupted transaction fails after its rollback: a cancellation goes to no handler, and
neither does the failure of a rollback. -/
theorem undo_halted {handler : Option (Exec Json)} {refused : Bool} {f : Failure}
    (hf : refused = false → f.isCancellation = true) (id handle : String) :
    (Execution.undo ctx id handle handler f).Obeys (protocol home) Ends (halted refused) := by
  refine obeys_bind (halted_bind trivial fun _ v hmove => obeys_pure.mpr ?_)
  obtain rfl := hmove
  refine obeys_bind (halted_bind trivial fun released v hmove => ?_)
  obtain ⟨rfl, rfl⟩ := hmove
  refine halted_bind trivial fun restored v hmove => obeys_pure.mpr ?_
  obtain ⟨rfl, rfl, rfl⟩ | ⟨⟨e, rfl⟩, rfl⟩ := hmove
  · refine halted_bind trivial fun _ v hmove => ?_
    obtain rfl := hmove
    have hcancelled : f.rolledBack.isCancellation = true := hf rfl
    cases handler with
    | none => exact obeys_throw.mpr (ends_cancelled _ hcancelled)
    | some x =>
        refine obeys_bind ?_
        unfold Execution.boundary Boundary.intercepts
        rw [hcancelled, if_neg (by simp)]
        exact obeys_throw.mpr (ends_cancelled _ hcancelled)
  · exact obeys_throw.mpr (ends_error nofun)

theorem commit (hc : Covers home ctx) (handle : String) : Halts home (commit ctx handle) := by
  refine .quick_bind hc.1 (fun _ _ h => h) fun _ => (Halts.result _).bind fun _ => ?_
  exact .quick_bind trivial (fun _ _ h => h) fun _ => .result _

theorem transaction (hc : Covers home ctx) {body : Exec Json} {handler : Option (Exec Json)}
    (hb : Halts home body) (hh : ∀ x ∈ handler, Halts home x) (id : String) :
    Halts home (transaction ctx id body handler) := by
  refine (settle hc).bind fun _ => .quick_bind hc (fun _ _ h => h) fun begun => ?_
  refine (Halts.result _).bind fun handle => ?_
  refine hb.inFrame.outcome_bind (fun r => ?_) fun refused f hf => undo_halted hf id handle
  cases r with
  | error f => exact undo hc hh id handle f
  | ok output => exact (commit hc handle).bind fun _ => .value _

/-- Every step that is interrupted in a scope of its run fails, with a cancellation unless a rollback
was refused. -/
theorem compositional : Compositional fun ctx _ x => Covers home ctx → Halts home x where
  result r _ := .result r
  alter _ _ := obeys_modify.mpr (ends_going _)
  bind hx hf hc := (hx hc).bind fun a => hf a hc
  decide hf hc := obeys_decided_bind (fun s a ha => hf s a ha hc) fun _ => ends_going _
  inFrame _ hb hc := (hb hc).inFrame
  send id request hc := send hc id request
  node id kind retry ha hc := node hc (ha hc) id kind retry
  deadline id limit ha hc := withDeadline hc ha id limit
  fanOut id policy hbs hc := fanOut hc hbs id policy
  transaction _ _ id hb hh hc := transaction hc (hb hc) (fun x hx => hh x hx hc) id

/-- A branch in a scope of its run does so, too. -/
theorem branch (hc : Covers home ctx) (scope : Scope) (body : List Step) (collect : Option Expr) :
    (Branch.steps ctx scope body collect).program.Obeys (protocol home) Ends going := by
  refine Program.obeys_bind.mpr ((compositional.sequence body ctx .null hc scope).mono ?_)
  rintro v ⟨r, s⟩ hr
  cases r with
  | ok a =>
      have hgoing (refused : Bool) : v ≠ halted refused := by
        rintro rfl
        obtain ⟨f, hf, -⟩ := hr refused rfl
        cases hf
      cases collect <;> exact fun refused hv => absurd hv (hgoing refused)
  | error f => cases collect <;> exact hr

end Halting
end FlowEngine
