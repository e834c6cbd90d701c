import FlowEngine.Proofs.Execution.Coherent
import FlowEngine.Proofs.Execution.Flow
import FlowEngine.Proofs.Likeness.Shift

/-!
# Programs that go the same way

A likeness says which worlds are alike and which requests they answer alike. Two programs are alike
when they perform the same effects, up to the numbers in them, and go on in the same way whenever
they get the same answers. Nothing that a span sink answers makes a difference to them.
-/
namespace FlowEngine

open Exec Execution

structure Likeness where
  shift : Shift
  requests : Request → Prop
  transactions : Prop
  expects : Token → Prop := fun _ => False
  worlds : World → World → Prop
  calls {w w' : World} (route : Route) (target : String) (inputs : Json) :
    worlds w w' → requests (.call route target inputs) →
      ∃ delay outcome c c',
        (Machine.collaborator w route).start target inputs = (delay, outcome, c) ∧
        (Machine.collaborator w' route).start target inputs = (delay, outcome, c') ∧
        worlds (Machine.setCollaborator w route c) (Machine.setCollaborator w' route c')
  finishes {w w' : World} (route : Route) (target : String) (inputs : Json) :
    worlds w w' → requests (.call route target inputs) →
      worlds (Machine.setCollaborator w route (Machine.collaborator w route).finish)
        (Machine.setCollaborator w' route (Machine.collaborator w' route).finish)
  delays {w w' : World} (op : RecordOp) : worlds w w' → w'.store.delay op = w.store.delay op
  operates {w w' : World} (request : RecordRequest) : worlds w w' → requests (.record request) →
    ∃ outcome store store', w.store.perform request = (outcome, store) ∧
      w'.store.perform request = (outcome, store') ∧
        worlds { w with store } { w' with store := store' }
  stores {w w' : World} : transactions → worlds w w' →
    w'.store = w.store ∧ ∀ store, worlds { w with store } { w' with store }

namespace Likeness

def Allows (v : Likeness) : Effect → Prop
  | .request _ _ request => v.requests request
  | .beginTransaction _ | .releaseTransaction _ _ | .discardSnapshot _ | .restoreSnapshot _ =>
    v.transactions
  | .acquireSlot | .releaseSlot | .awaitRun _ => False
  | _ => True

end Likeness

namespace Program

inductive Like (v : Likeness) :
    {α β : Type} → (α → β → Prop) → Program α → Program β → Prop where
  | pure {α β : Type} {R : α → β → Prop} {a : α} {b : β} (related : R a b) :
      Like v R (pure a) (pure b)
  | perform {α β : Type} {R : α → β → Prop} {e : Effect} {next : e.Answer → Program α}
      {next' : (v.shift.effect e).Answer → Program β} (allowed : v.Allows e)
      (branches : ∀ run policy group bs, e = .join run policy group bs → ∀ b ∈ bs,
        Like v Eq b.program (v.shift.branch b).program)
      (rest : ∀ a a', v.shift.Answers e a a' → Like v R (next a) (next' a')) :
      Like v R (perform e next) (perform (v.shift.effect e) next')

namespace Like

variable {v : Likeness} {α β γ δ : Type}

theorem bind {Q : α → β → Prop} {R : γ → δ → Prop} {p : Program α} {p' : Program β}
    {f : α → Program γ} {f' : β → Program δ} (hp : Like v Q p p')
    (hf : ∀ a b, Q a b → Like v R (f a) (f' b)) : Like v R (p.bind f) (p'.bind f') := by
  induction hp with
  | pure related => exact hf _ _ related
  | perform allowed branches rest _ ih =>
      exact .perform allowed branches fun a a' ha => ih a a' ha hf

theorem effect {R : α → β → Prop} {e : Effect} {next : e.Answer → Program α}
    {next' : (v.shift.effect e).Answer → Program β} (allowed : v.Allows e)
    (alone : ∀ run policy group bs, e ≠ .join run policy group bs)
    (rest : ∀ a a', v.shift.Answers e a a' → Like v R (next a) (next' a')) :
    Like v R (Program.perform e next) (Program.perform (v.shift.effect e) next') :=
  .perform allowed (fun _ _ _ _ he => absurd he (alone _ _ _ _)) rest

end Like
end Program

namespace Exec

variable {v : Likeness} {α β : Type}

def Like (v : Likeness) (x x' : Exec α) : Prop := ∀ s, Program.Like v Eq (x.on s) (x'.on s)

namespace Like

theorem ofResult (r : Except Failure α) : Like v (ofResult r) (ofResult r) := by
  intro s
  rw [on_ofResult]
  exact .pure rfl

theorem value (a : α) : Like v (pure a) (pure a) := ofResult (.ok a)

theorem fails (f : Failure) : Like v (throw f : Exec α) (throw f) := ofResult (.error f)

theorem alter (g : Scope → Scope) : Like v (modify g) (modify g) := fun _ => .pure rfl

theorem bind {x x' : Exec α} {f f' : α → Exec β} (hx : Like v x x')
    (hf : ∀ a, Like v (f a) (f' a)) :
    Like v (x >>= f) (x' >>= f') := by
  intro s
  rw [on_bind, on_bind]
  refine (hx s).bind ?_
  rintro ⟨r, s'⟩ _ rfl
  cases r with
  | ok a => exact hf a s'
  | error f => exact .pure rfl

theorem decide {Q : α → α → Prop} {d d' : Scope → Except Control.Fault α} {f f' : α → Exec β}
    (hd : ∀ s, Control.Alike Q (d s) (d' s))
    (hf : ∀ s a a', d s = .ok a → Q a a' → Like v (f a) (f' a')) :
    Like v (decided d >>= f) (decided d' >>= f') := by
  intro s
  rw [on_bind, on_bind, on_decided, on_decided, Program.bind_pure_left, Program.bind_pure_left]
  have halike := hd s
  cases hs : d s with
  | ok a =>
      rw [hs] at halike
      generalize d' s = r' at halike
      cases halike with
      | ok hQ => exact hf s a _ hs hQ s
  | error fault =>
      rw [hs] at halike
      generalize d' s = r' at halike
      cases halike
      exact .pure rfl

theorem outcome {x x' : Exec α} (hx : Like v x x') : Like v x.outcome x'.outcome := by
  intro s
  rw [on_outcome, on_outcome]
  refine (hx s).bind ?_
  rintro p _ rfl
  exact .pure rfl

theorem inFrame {x x' : Exec α} (hx : Like v x x') (enter : Scope → Scope) :
    Like v (inFrame enter x) (inFrame enter x') := by
  intro s
  rw [on_inFrame, on_inFrame]
  refine (hx (enter s)).bind ?_
  rintro p _ rfl
  exact .pure rfl

/-- Going on with the answer to an effect that starts no branches. -/
theorem asked {e : Effect} {f : e.Answer → Exec α} {f' : (v.shift.effect e).Answer → Exec α}
    (allowed : v.Allows e) (alone : ∀ run policy group bs, e ≠ .join run policy group bs)
    (hf : ∀ a a', v.shift.Answers e a a' → Like v (f a) (f' a')) :
    Like v (ask e >>= f) (ask (v.shift.effect e) >>= f') := by
  intro s
  rw [on_bind, on_bind, on_ask, on_ask]
  exact .effect allowed alone fun a a' ha => hf a a' ha s

theorem look {token : Token} {f f' : Bool → Exec α}
    (hf : ∀ cancelled, Like v (f cancelled) (f' cancelled)) :
    Like v (ask (.isCancelled token) >>= f) (ask (.isCancelled (v.shift.token token)) >>= f') := by
  refine asked (e := .isCancelled token) trivial nofun ?_
  rintro _ a rfl
  exact hf a

theorem note {run : Nat} (entry : Entry) {f f' : Unit → Exec α} (hf : Like v (f ()) (f' ())) :
    Like v (ask (.note run entry) >>= f) (ask (.note (run + v.shift.runs) entry) >>= f') :=
  asked (e := .note run entry) trivial nofun fun _ _ _ => hf

/-! ## The parts of steps -/

variable {ctx : Context}

theorem send {request : Request} (h : v.requests request) (id : String) :
    Like v (send ctx id request) (send (v.shift.context ctx) id request) := by
  refine look fun cancelled => ?_
  split
  · exact fails _
  · refine asked (e := .request ctx.run ctx.token request) h nofun ?_
    rintro _ a rfl
    cases a with
    | ok outcome => exact value outcome
    | error moment => exact fails _

theorem afterAttempt {again again' : Option (Exec (Nat × Except Failure α))}
    (h : Option.Rel (Like v) again again') (id : String) (policy : Option RetryPolicy)
    (number : Nat)
    (r : Except Failure α) : Like v (afterAttempt ctx id policy number again r)
      (afterAttempt (v.shift.context ctx) id policy number again' r) := by
  unfold Execution.afterAttempt
  cases r with
  | ok a => exact value _
  | error f =>
      dsimp only
      cases Retry.decide policy number (f.atStep id) with
      | giveUp f => exact value _
      | retryAfter delay =>
          cases h with
          | none => exact value _
          | some hagain =>
              refine asked (e := .sleep (some ctx.token) delay.toNat) trivial nofun ?_
              rintro a _ rfl
              split
              · exact hagain
              · exact value _

theorem attempts {attempt attempt' : Exec α} (h : Like v attempt attempt') (id : String)
    (policy : Option RetryPolicy) (further number : Nat) :
    Like v (attempts ctx id policy attempt further number)
      (attempts (v.shift.context ctx) id policy attempt' further number) := by
  induction further generalizing number with
  | zero => exact bind h.outcome fun r => afterAttempt .none id policy number r
  | succ further ih => exact bind h.outcome fun r => afterAttempt (.some (ih _)) id policy number r

theorem node {attempt attempt' : Exec Reached} (h : Like v attempt attempt') (id kind : String)
    (retry : Option RetryPolicy) :
    Like v (node ctx id kind retry attempt)
      (node (v.shift.context ctx) id kind retry attempt') := by
  refine look fun cancelled => ?_
  split
  · exact note _ (fails _)
  · refine asked (e := .startSpan ctx id) trivial nofun fun _ _ _ => ?_
    refine bind (h.attempts id retry _ _) fun p => note _ ?_
    refine asked (e := .endSpan ctx id (statusOf p.2)) trivial nofun fun _ _ _ => ?_
    cases p.2 with
    | ok reached => exact bind (alter _) fun _ => value _
    | error f => exact fails f

theorem withDeadline {attempt attempt' : Context → Exec α}
    (h : ∀ ctx, Like v (attempt ctx) (attempt' (v.shift.context ctx))) (id : String)
    (limit : Option Millis) :
    Like v (withDeadline ctx id limit attempt)
      (withDeadline (v.shift.context ctx) id limit attempt') := by
  unfold Execution.withDeadline
  cases limit with
  | none => exact h ctx
  | some limit =>
      refine asked (e := .childToken ctx.token) trivial nofun ?_
      rintro token _ rfl
      refine asked (e := .startDeadline token limit) trivial nofun ?_
      rintro (deadline : Nat) _ rfl
      refine bind (h { ctx with token }).outcome fun result => ?_
      refine asked (e := .stopDeadline deadline) trivial nofun ?_
      rintro passed _ rfl
      cases result with
      | ok a => exact value a
      | error f =>
          refine look fun outer => ?_
          split
          · exact fails _
          · exact fails _

theorem branch {body : List Step} {scope : Scope}
    (h : Like v (runSequence body ctx .null) (runSequence body (v.shift.context ctx) .null))
    (collect : Option Expr) : Program.Like v Eq (Branch.steps ctx scope body collect).program
      (v.shift.branch (.steps ctx scope body collect)).program := by
  refine (h scope).bind ?_
  rintro ⟨r, final⟩ _ rfl
  cases r <;> cases collect <;> exact .pure rfl

theorem fanOut {plan : Scope → Except Control.Fault (List Part)} (id : String) (policy : JoinPolicy)
    (h : ∀ scope parts, plan scope = .ok parts → ∀ p ∈ parts, ∀ group,
      Like v (runSequence p.body { ctx with token := group } .null)
        (runSequence p.body (v.shift.context { ctx with token := group }) .null)) :
    Like v (fanOut ctx id policy (branchesOf plan))
      (fanOut (v.shift.context ctx) id policy (branchesOf plan)) := by
  refine asked (e := .childToken ctx.token) trivial nofun ?_
  rintro group _ rfl s
  rw [on_bind, on_bind, on_decided, on_decided, Program.bind_pure_left, Program.bind_pure_left]
  unfold branchesOf
  cases hs : plan s with
  | error fault => exact .pure rfl
  | ok parts =>
      let bs : List Branch :=
        parts.map fun p => .steps { ctx with token := group } p.scope p.body p.collect
      have hbs : (parts.map fun p => Branch.steps
          ⟨ctx.run + v.shift.runs, v.shift.token group, ctx.stepLimit⟩ p.scope p.body p.collect) =
          bs.map v.shift.branch := by
        simp [bs, Shift.branch, Shift.context]
      simp only [Except.map, Except.mapError, Shift.context, after_ok, hbs]
      refine Program.Like.perform (e := .join ctx.run policy group bs) trivial ?_ ?_
      · rintro _ _ _ _ ⟨⟩ b hb
        obtain ⟨p, hp, rfl⟩ := List.mem_map.mp hb
        exact branch (h s parts hs p hp group) p.collect
      · rintro _ a rfl
        refine bind (ofResult a) (fun outcomes => look fun cancelled => ?_) s
        split
        · exact fails _
        · exact value _

theorem boundary {handler handler' : Exec Json} (h : Like v handler handler') (name : String)
    (f : Failure) :
    Like v (boundary ctx name handler f) (boundary (v.shift.context ctx) name handler' f) := by
  unfold Execution.boundary
  split
  · exact note _ (bind (h.inFrame _).outcome fun _ => ofResult _)
  · exact fails f

theorem settle : Like v (settle ctx) (settle (v.shift.context ctx)) :=
  asked (e := .settle ctx.run (some ctx.token)) trivial nofun fun _ _ _ => value ()

section

variable (hv : v.transactions)
include hv

theorem commit (handle : String) :
    Like v (commit ctx handle) (commit (v.shift.context ctx) handle) := by
  refine asked (e := .releaseTransaction ctx.run handle) hv nofun ?_
  rintro released _ rfl
  refine bind (ofResult _) fun _ => asked (e := .discardSnapshot handle) hv nofun ?_
  rintro discarded _ rfl
  exact ofResult _

theorem rollback (handle : String) :
    Like v (rollback ctx handle) (rollback (v.shift.context ctx) handle) := by
  refine asked (e := .releaseTransaction ctx.run handle) hv nofun ?_
  rintro _ released rfl
  cases released with
  | error e => exact value _
  | ok u =>
      refine asked (e := .restoreSnapshot handle) hv nofun ?_
      rintro restored _ rfl
      exact value _

omit hv in
theorem recover {handler handler' : Option (Exec Json)} (h : Option.Rel (Like v) handler handler')
    (id : String) (f : Failure) :
    Like v (recover ctx id handler f) (recover (v.shift.context ctx) id handler' f) := by
  cases h with
  | none => exact fails f
  | some h => exact bind (h.boundary id f) fun _ => note _ (value _)

theorem transaction {body body' : Exec Json} {handler handler' : Option (Exec Json)}
    (h : Like v body body') (hh : Option.Rel (Like v) handler handler') (id : String) :
    Like v (transaction ctx id body handler)
      (transaction (v.shift.context ctx) id body' handler') := by
  refine bind settle fun _ => asked (e := .beginTransaction ctx) hv nofun ?_
  rintro begun _ rfl
  refine bind (ofResult _) fun handle => bind (h.inFrame _).outcome fun result => ?_
  cases result with
  | ok output => exact bind (commit hv handle) fun _ => value _
  | error f =>
      refine bind settle fun _ => bind (rollback hv handle) fun restored => ?_
      cases restored with
      | error e => exact fails _
      | ok u => exact note _ (recover hh id _)

end
end Like
end Exec

/-! ## Steps and runs -/

def Likeness.Admits (v : Likeness) (s : Step) : Prop :=
  (∀ request, s.action.Asks request → v.requests request) ∧
    ∀ body onError, s.action = .transaction body onError → v.transactions

/-- Steps that ask for no more than they may go the same way in a context with other numbers. -/
theorem Likeness.coherent (v : Likeness) :
    Coherent v.Admits v.Admits (fun _ => True) fun _ ctx ctx' _ x x' =>
      ctx' = v.shift.context ctx → Exec.Like v x x' where
  acts ha := ha
  value a _ := .ofResult (.ok a)
  fails _ _ := .ofResult (.error _)
  alter _ _ := .alter _
  bind hx hf h := .bind (hx h) fun a => hf a h
  decide hd hf h := .decide hd fun scope a a' ha hQ => hf scope a a' ha hQ h
  inFrame _ hb h := (hb h).inFrame _
  send ha hasks hf h := by
    subst h
    exact .bind (.send (ha.1 _ hasks) _) fun outcome => hf outcome trivial rfl
  node _ ha h := by
    subst h
    exact (ha rfl).node _ _ _
  inside hb := hb
  deadline {s ctx ctx' attempt} _ ha h := by
    subst h
    exact .withDeadline (fun ctx => ha ctx _ rfl) s.id (s.limit ctx)
  fanOut {s ctx ctx' policy plan} _ _ _ hbodies h := by
    subst h
    exact .fanOut s.id policy fun scope parts hparts p hp group =>
      hbodies scope parts hparts p hp _ _ rfl
  transaction {s ctx ctx' body onError} ha hs hbody hhandler h := by
    subst h
    have hhandlers : Option.Rel (Exec.Like v) (optionProgram onError ctx)
        (optionProgram onError (v.shift.context ctx)) := by
      generalize optionProgram onError ctx = x, optionProgram onError (v.shift.context ctx) = x'
        at hhandler
      cases hhandler with
      | none => exact .none
      | some h => exact .some (h rfl)
    exact .transaction (ha.2 _ _ hs) (hbody rfl) hhandlers s.id

namespace Execution

variable {v : Likeness} {config : Config} {flow : Flow} {ctx : Context}

def Admits (v : Likeness) (flow : Flow) : Prop :=
  ∀ s ∈ Step.sequenceNodes flow.steps ++ Step.optionNodes flow.onError, v.Admits s

theorem like_settleAll : Program.Like v Eq (settleAll ctx) (settleAll (v.shift.context ctx)) :=
  .effect (e := .settle ctx.run none) trivial nofun fun _ _ _ => .pure rfl

theorem like_stopRunDeadline (deadline : Option Nat) :
    Program.Like v Eq (stopRunDeadline deadline)
      (stopRunDeadline (deadline.map v.shift.moved)) := by
  cases deadline with
  | none => exact .pure rfl
  | some deadline =>
      exact .effect (e := .stopDeadline deadline) trivial nofun fun _ _ ha => .pure ha.symm

theorem like_startRunDeadline (token : Token) (limit : Option UInt64) :
    Program.Like v (fun d d' => d' = d.map v.shift.moved) (startRunDeadline token limit)
      (startRunDeadline (v.shift.token token) limit) := by
  cases limit with
  | none => exact .pure rfl
  | some limit =>
      exact .effect (e := .startDeadline token limit) trivial nofun fun _ _ ha =>
        .pure (congrArg some ha)

variable (hflow : Admits v flow)
include hflow

theorem like_endAfter (limit : Option UInt64) (timedOut : Bool) (f : Failure) (s : Scope) :
    Program.Like v Eq (endAfter flow ctx limit timedOut f s)
      (endAfter flow (v.shift.context ctx) limit timedOut f s) := by
  rw [endAfter_eq, endAfter_eq]
  refine .effect (e := .isCancelled ctx.token) trivial nofun ?_
  rintro _ cancelled rfl
  split
  · exact .pure rfl
  · rw [handleFailure_eq, handleFailure_eq]
    cases hhandler : flow.onError with
    | none => exact .pure rfl
    | some handler =>
        have hfits : ∀ n ∈ Step.sequenceNodes handler, v.Admits n := fun n hn =>
          hflow n (List.mem_append_right _ (by rwa [hhandler]))
        have hhandled : Exec.Like v _ _ := v.coherent.sequence handler hfits ctx _ .null rfl
        refine (hhandled.boundary flow.name f s).bind ?_
        rintro ⟨r, s'⟩ _ rfl
        cases r with
        | ok handled =>
            exact .effect (e := .note ctx.run (.handled handled)) trivial nofun fun _ _ _ =>
              .pure rfl
        | error escaped => exact .pure rfl

theorem like_conclude (deadline : Option Nat) (p : Except Failure Json × Scope) :
    Program.Like v v.shift.Results (conclude config flow ctx deadline p)
      (conclude config flow (v.shift.context ctx) (deadline.map v.shift.moved) p) := by
  obtain ⟨r, s⟩ := p
  rw [conclude_eq, conclude_eq]
  refine like_settleAll.bind fun _ _ _ => (like_stopRunDeadline deadline).bind ?_
  rintro timedOut _ rfl
  refine Program.Like.bind (Q := Eq) ?_ ?_
  · cases r with
    | ok value => exact .pure rfl
    | error f => exact like_endAfter hflow config.runTimeout timedOut f s
  · rintro ended _ rfl
    refine like_settleAll.bind fun _ _ _ => ?_
    exact .effect (e := .closeRun ctx.run ended.1 ended.2.flow) trivial nofun fun _ _ ha => .pure ha

/-- Runs go the same way below tokens that are as far apart as the numbers are. -/
theorem like_run (inputs : List (String × Json)) (parent : Token) :
    Program.Like v v.shift.Results (run config flow inputs parent)
      (run config flow inputs (v.shift.token parent)) := by
  rw [run_eq_perform, run_eq_perform]
  refine .effect (e := .openRun flow.name parent) trivial nofun ?_
  rintro (⟨number, token⟩ : Nat × Token) _ rfl
  refine (like_startRunDeadline token config.runTimeout).bind ?_
  rintro deadline _ rfl
  have hfits : ∀ n ∈ Step.sequenceNodes flow.steps, v.Admits n := fun n hn =>
    hflow n (List.mem_append_left _ hn)
  let ctx : Context := ⟨number, token, config.stepTimeout⟩
  have hsteps : Exec.Like v (runSequence flow.steps ctx .null)
      (runSequence flow.steps (v.shift.context ctx) .null) :=
    v.coherent.sequence flow.steps hfits ctx _ .null rfl
  refine (hsteps (Scope.ofBindings inputs)).bind ?_
  rintro p _ rfl
  exact like_conclude hflow deadline p

end Execution
end FlowEngine
