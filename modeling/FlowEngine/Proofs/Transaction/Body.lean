import FlowEngine.Proofs.Transaction.Custody
import FlowEngine.Proofs.Transaction.Opening

/-!
# Bodies of transactions

While the body of a transaction is going on, no snapshot is given back and none is
taken: the slot of the run is taken. So its task has the same snapshot in hand until
the body has ended.
-/
namespace FlowEngine

open Exec Execution

def Execution.afterBody (ctx : Context) (id handle : String) (handler : Option (Exec Json)) :
    Except Failure Json × Scope → Program (Except Failure Reached × Scope)
  | (.ok output, s) => ((commit ctx handle >>= fun _ => pure (Reached.value output)).on s.leave)
  | (.error f, s) => (undo ctx id handle handler f).on s.leave

theorem opened_on (ctx : Context) (id handle : String) (body : List Step)
    (onError : Option (List Step)) (s : Scope) :
    (opened ctx id body onError (.ok handle)).on s =
      ((runSequence body ctx .null).on (s.push .step)).bind
        (afterBody ctx id handle (optionProgram onError ctx)) := by
  have henclose : (enclose ctx id handle (runSequence body ctx .null)
      (optionProgram onError ctx)).on s =
        ((runSequence body ctx .null).on (s.push .step)).bind
          (afterBody ctx id handle (optionProgram onError ctx)) := by
    unfold enclose
    rw [on_bind, on_outcome, on_inFrame, Program.bind_assoc, Program.bind_assoc]
    congr 1
    funext p
    obtain ⟨r, s'⟩ := p
    cases r <;> rfl
  exact henclose

theorem afterBody_ok (ctx : Context) (id handle : String) (handler : Option (Exec Json))
    (output : Json) (s : Scope) : afterBody ctx id handle handler (.ok output, s) =
      .perform (.releaseTransaction ctx.run handle) fun released =>
        match released with
        | .error e => .pure (.error e.toFailure, s.leave)
        | .ok () => .perform (.discardSnapshot handle) fun discarded =>
          match discarded with
          | .error e => .pure (.error e.toFailure, s.leave)
          | .ok () => .pure (.ok (.value output), s.leave) := by
  refine congrArg (Program.perform (.releaseTransaction ctx.run handle)) (funext fun released => ?_)
  cases released with
  | error e => rfl
  | ok _ =>
      refine congrArg (Program.perform (.discardSnapshot handle)) (funext fun discarded => ?_)
      cases discarded <;> rfl

def Execution.afterRecovery (ctx : Context) (f : Failure) :
    Except Failure Json × Scope → Program (Except Failure Reached × Scope)
  | (r, s) =>
    match Boundary.resolve f (r.map fun _ => ()) with
    | .ok handled => .perform (.note ctx.run (.handled handled)) fun _ =>
      .pure (.ok (.value .null), s.leave)
    | .error g => .pure (.error g, s.leave)

theorem boundary_on {f : Failure} (hf : Boundary.intercepts f = true) (ctx : Context)
    (name : String) (handler : Exec Json) (s : Scope) : (boundary ctx name handler f).on s =
      .perform (.note ctx.run (.boundary name f)) fun _ =>
        (handler.on (Boundary.enter f s)).bind fun p =>
          .pure (Boundary.resolve f (p.1.map fun _ => ()), p.2.leave) := by
  unfold boundary
  rw [if_pos hf]
  refine congrArg (Program.perform (.note ctx.run (.boundary name f))) (funext fun _ => ?_)
  have hresult : ((inFrame (Boundary.enter f) handler).outcome >>= fun result =>
      ofResult (Boundary.resolve f (result.map fun _ => ()))).on s =
        (handler.on (Boundary.enter f s)).bind fun p =>
          .pure (Boundary.resolve f (p.1.map fun _ => ()), p.2.leave) := by
    simp only [on_bind, on_outcome, on_inFrame, Program.bind_assoc, Program.bind_pure_left,
      after_ok, on_ofResult]
  exact hresult

def Execution.afterRollback (ctx : Context) (id : String) (onError : Option (List Step))
    (f : Failure) (s : Scope) : Program (Except Failure Reached × Scope) :=
  match onError with
  | none => .pure (.error f, s)
  | some handler =>
    if f.isCancellation then .pure (.error f, s)
    else .perform (.note ctx.run (.boundary id f)) fun _ =>
      ((runSequence handler ctx .null).on (Boundary.enter f s)).bind (afterRecovery ctx f)

theorem recover_on (ctx : Context) (id : String) (onError : Option (List Step)) (f : Failure)
    (s : Scope) : (recover ctx id (optionProgram onError ctx) f).on s =
      afterRollback ctx id onError f s := by
  cases onError with
  | none =>
      rw [optionProgram]
      rfl
  | some handler =>
      rw [optionProgram]
      unfold afterRollback
      cases hf : f.isCancellation with
      | true =>
          have hthrow : boundary ctx id (runSequence handler ctx .null) f = throw f := by
            unfold boundary
            rw [if_neg]
            simp [Boundary.intercepts, hf]
          unfold recover
          dsimp only
          rw [hthrow]
          rfl
      | false =>
          have hrest : (recover ctx id (some (runSequence handler ctx .null)) f).on s =
              ((boundary ctx id (runSequence handler ctx .null) f).on s).bind
                (after fun handled => (Exec.ask (.note ctx.run (.handled handled)) >>= fun _ =>
                  pure (Reached.value .null))) := by
            exact on_bind _ _ s
          rw [hrest, boundary_on (by simp [Boundary.intercepts, hf]), Program.bind_perform]
          refine congrArg (Program.perform (.note ctx.run (.boundary id f))) (funext fun _ => ?_)
          rw [Program.bind_assoc]
          congr 1
          funext p
          obtain ⟨r, s'⟩ := p
          simp only [afterRecovery, Program.bind_pure_left]
          cases Boundary.resolve f (r.map fun _ => ()) <;> rfl

/-- A body that failed is rolled back before the handler gets the failure. -/
theorem afterBody_error (ctx : Context) (id handle : String) (onError : Option (List Step))
    (f : Failure) (s : Scope) : afterBody ctx id handle (optionProgram onError ctx) (.error f, s) =
      .perform (.settle ctx.run (some ctx.token)) fun _ =>
        .perform (.releaseTransaction ctx.run handle) fun released =>
          match released with
          | .error e => .pure (.error ((e.toFailure.atStep id).causedBy f), s.leave)
          | .ok () => .perform (.restoreSnapshot handle) fun restored =>
            match restored with
            | .error e => .pure (.error ((e.toFailure.atStep id).causedBy f), s.leave)
            | .ok () => .perform (.note ctx.run (.rolledBack id)) fun _ =>
              afterRollback ctx id onError f.rolledBack s.leave := by
  simp only [← recover_on]
  refine congrArg (Program.perform (.settle ctx.run (some ctx.token))) (funext fun settled => ?_)
  refine congrArg (Program.perform (.releaseTransaction ctx.run handle)) (funext fun released => ?_)
  cases released with
  | error e => rfl
  | ok _ =>
      refine congrArg (Program.perform (.restoreSnapshot handle)) (funext fun restored => ?_)
      cases restored <;> rfl

namespace Custody

def quiet : Protocol Unit where
  allows _ e := match e with
    | .releaseTransaction _ _ | .discardSnapshot _ | .restoreSnapshot _ => False
    | _ => True
  moves _ e a _ := match e, a with
    | .beginTransaction _, a => ∃ e, a = .error e
    | .childToken t, a => ∃ n, a = t.child n
    | _, _ => True

theorem quiet_tolerates :
    Tolerates quiet (fun (_ : Unit) (_ : Context) _ => True) fun _ _ _ => False where
  plain he _ := ⟨by cases he <;> trivial, fun _ _ _ => Or.inl trivial⟩
  starts step _ _ := ⟨trivial, fun _ _ _ => trivial⟩
  futile _ hu := hu.elim
  child _ hmove := hmove
  narrow _ _ := trivial
  widen _ _ _ := trivial
  widenFutile _ _ hv := hv

theorem quiet_transaction (ctx : Context) (id : String) (body : Exec Json)
    (handler : Option (Exec Json)) :
    (transaction ctx id body handler).Keeps quiet (fun _ => True) fun _ => False := by
  refine keeps_of_obeys fun u _ => ?_
  refine obeys_bind (obeys_bind (obeys_ask.mpr ⟨trivial, fun settled v _ => obeys_pure.mpr ?_⟩))
  refine obeys_bind (obeys_ask.mpr ⟨trivial, fun begun v hmove => ?_⟩)
  obtain ⟨e, rfl⟩ := hmove
  exact obeys_bind (obeys_orFail.mpr trivial)

theorem quiet_compositional : Compositional fun _ _ x => ∀ _ : Unit,
    x.Keeps quiet (fun _ => True) fun _ => False :=
  quiet_tolerates.compositional fun {ctx body handler} id _ _ _ =>
    quiet_transaction ctx id body handler

theorem quiet_sequence (steps : List Step) (ctx : Context) (s : Scope) :
    ((runSequence steps ctx .null).on s).Obeys quiet (fun _ _ => True) () :=
  ((quiet_compositional.sequence steps ctx .null ()).obeys (fun _ h => h) trivial s).mono
    fun _ _ _ => trivial

variable {T : Token} {b : Block} {lost : Bool} {α : Type}

/-- A task keeps what it has in hand while it does not touch snapshots. -/
theorem holding_of_quiet {p q : Program α} {d : List Deed} {v : Custody}
    {Q : Unit → α → Prop} (hp : p.Obeys quiet Q ()) (hf : p.Follows d q)
    (hpath : (protocol T).Path (holding b lost) d v) : ∃ lost', v = holding b lost' := by
  induction hf generalizing lost with
  | start p => exact ⟨lost, Protocol.Path.nil_iff.mp hpath⟩
  | @deed e next a rest q tail ih =>
      obtain ⟨u, hmove, hpath⟩ := Protocol.Path.cons_iff.mp hpath
      have hgo (hu : ∃ lost', u = holding b lost') (hq : quiet.moves () e a ()) :
          ∃ lost', v = holding b lost' := by
        obtain ⟨lost', rfl⟩ := hu
        exact ih (hp.2 a () hq) hpath
      have hkept (h : u = holding b lost ∧ (lost = true → Idles T e a) ∨
          u = holding b true ∧ b.watched = true ∧ lost = false ∧ Fatal e a) :
          ∃ lost', u = holding b lost' := by
        rcases h with ⟨rfl, -⟩ | ⟨rfl, -⟩ <;> exact ⟨_, rfl⟩
      cases e with
      | releaseTransaction run handle => exact hp.1.elim
      | beginTransaction ctx => exact hgo ⟨_, hmove.2⟩ hmove.1
      | childToken token => exact hgo ⟨_, hmove.2⟩ hmove.1
      | _ => exact hgo (hkept hmove) trivial

/-- What a task has in hand when the body of its transaction has ended. -/
theorem holding_of_body {body : List Step} {ctx : Context} {s s' : Scope} {d : List Deed}
    {r : Except Failure Json} {v : Custody} (hrun : b.ctx.run = ctx.run)
    (hcovers : b.watched = true → T.covers ctx.token = true)
    (hf : ((runSequence body ctx .null).on s).Follows d (.pure (r, s')))
    (hpath : (protocol T).Path (holding b false) d v) :
    v = holding b false ∨ v = holding b true ∧ ∃ f, r = .error f := by
  have hkeeps := (compositional (T := T)).sequence body ctx .null (holding b false)
  have hend := (hkeeps _ ⟨rfl, hrun, rfl, hcovers⟩ s).follow hf hpath
  rcases hend with ⟨rfl, -⟩ | ⟨⟨b', ⟨⟩, rfl, -⟩, hr⟩
  · exact Or.inl rfl
  · exact Or.inr ⟨rfl, hr⟩

end Custody
end FlowEngine
