import FlowEngine.Proofs.Run.Retrying
import FlowEngine.Proofs.Scope.ReadBack

/-!
# What a step leaves untouched

A step that calls, evaluates or fans out changes the scope chain at most once, after everything in it
that can fail. So a failed step leaves the scope chain as it was, whatever its earlier attempts and its
branches did, and a step that completes has written its value and recorded its output.
-/
namespace FlowEngine

open Exec Execution

/-! ## Programs that write last -/

def Scope.assignSome (name : Option String) (v : Json) (s : Scope) : Scope :=
  match name with
  | some name => s.assign name v
  | none => s

namespace Exec

variable {α β : Type} {w : α → Scope → Scope}

def leftBy (w : α → Scope → Scope) (s : Scope) : Except Failure α → Scope
  | .ok a => w a s
  | .error _ => s

def WritesLast (w : α → Scope → Scope) (x : Exec α) : Prop :=
  ∀ s, (x.on s).Ends fun p => p.2 = leftBy w s p.1

abbrev ReadsOnly (x : Exec α) : Prop := x.WritesLast fun _ s => s

namespace WritesLast

theorem value (a : α) (h : ∀ s, w a s = s) : (pure a : Exec α).WritesLast w := fun s => (h s).symm

theorem throw (f : Failure) : (MonadExcept.throw f : Exec α).WritesLast w := fun _ => rfl

theorem ofResult (r : Except Failure α) : (ofResult r).ReadsOnly := by
  intro s
  rw [on_ofResult]
  cases r <;> rfl

theorem ask (e : Effect) : (Exec.ask e).ReadsOnly := fun _ _ => rfl

theorem decided (d : Scope → Except Control.Fault α) : (decided d).ReadsOnly := by
  intro s
  rw [on_decided]
  cases d s <;> rfl

/-- What comes before the write only reads. -/
theorem bind {w : β → Scope → Scope} {x : Exec α} {f : α → Exec β} (hx : x.ReadsOnly)
    (hf : ∀ a, (f a).WritesLast w) : (x >>= f).WritesLast w := by
  intro s
  rw [on_bind]
  refine (hx s).bind ?_
  rintro ⟨r, s'⟩ hs
  cases r with
  | error f => exact hs
  | ok a =>
      obtain rfl : s' = s := hs
      exact hf a s'

theorem ask_bind {e : Effect} {f : e.Answer → Exec α} (hf : ∀ a, (f a).WritesLast w) :
    (Exec.ask e >>= f).WritesLast w := (ask e).bind hf

theorem map {w : β → Scope → Scope} {g : α → β} {x : Exec α}
    (hx : x.WritesLast fun a => w (g a)) : (g <$> x).WritesLast w := by
  intro s
  rw [on_map]
  refine (hx s).bind ?_
  rintro ⟨r, s'⟩ hs
  cases r <;> exact hs

theorem modify_value {g : Scope → Scope} {a : α} (h : ∀ s, w a s = g s) :
    (modify g >>= fun _ => pure a : Exec α).WritesLast w := fun s => (h s).symm

/-! ## The attempts of a step -/

theorem withDeadline {ctx : Context} {attempt : Context → Exec α}
    (ha : ∀ ctx, (attempt ctx).WritesLast w) (id : String) (limit : Option Millis) :
    (withDeadline ctx id limit attempt).WritesLast w := by
  cases limit with
  | none => exact ha ctx
  | some limit =>
      intro s
      rw [withDeadline_on]
      refine fun token deadline => (ha _ s).bind ?_
      rintro ⟨r, s'⟩ hs passed
      cases r with
      | ok a => exact hs
      | error f => exact fun outer => hs

/-- An attempt that failed has changed nothing, so the next one begins where it began. -/
theorem attempts {attempt : Exec α} (ha : attempt.WritesLast w) (ctx : Context) (id : String)
    (retry : Option RetryPolicy) (further number : Nat) :
    (attempts ctx id retry attempt further number).WritesLast fun p s => leftBy w s p.2 := by
  have later (number : Nat) {again : Option (Exec (Nat × Except Failure α))}
      (hagain : ∀ x ∈ again, x.WritesLast fun p s => leftBy w s p.2) (s : Scope)
      (p : Except Failure α × Scope) (hp : p.2 = leftBy w s p.1) :
      ((afterAttempt ctx id retry number again p.1).on p.2).Ends
        fun q => q.2 = leftBy (fun p s => leftBy w s p.2) s q.1 := by
    obtain ⟨r, s'⟩ := p
    unfold afterAttempt
    cases r with
    | ok a => exact hp
    | error f =>
        obtain rfl : s' = s := hp
        dsimp only
        split
        · exact (rfl : s' = s')
        · exact (rfl : s' = s')
        · refine fun (waited : Bool) => ?_
          cases waited with
          | true => exact hagain _ rfl s'
          | false => exact (rfl : s' = s')
  induction further generalizing number with
  | zero =>
      intro s
      rw [attempts_on]
      exact (ha s).bind fun p hp => later number (by rintro _ ⟨⟩) s p hp
  | succ further ih =>
      intro s
      rw [attempts_on]
      refine (ha s).bind fun p hp => later number ?_ s p hp
      rintro _ ⟨⟩
      exact ih (number + 1)

/-- The output of a step is recorded after its attempts. -/
theorem node {attempt : Exec Reached} {w : Reached → Scope → Scope} (ha : attempt.WritesLast w)
    (ctx : Context) (id kind : String) (retry : Option RetryPolicy) :
    (node ctx id kind retry attempt).WritesLast
      fun reached s => (w reached s).recordOutput id reached.output := by
  intro s
  rw [node_on]
  intro (cancelled : Bool)
  cases cancelled with
  | true => exact fun _ => rfl
  | false =>
      refine fun _ => (attempts ha ctx id retry _ 1 s).bind ?_
      rintro ⟨r, s'⟩ hs
      cases r with
      | error f => exact hs
      | ok p =>
          obtain ⟨number, result⟩ := p
          refine fun _ _ => ?_
          cases result with
          | error f => exact hs
          | ok reached =>
              obtain rfl : s' = w reached s := hs
              exact (rfl : _ = (w reached s).recordOutput id reached.output)

/-! ## The actions of a step -/

variable {ctx : Context} {id : String}

theorem send (request : Request) : (send ctx id request).ReadsOnly := by
  refine ask_bind fun (cancelled : Bool) => ?_
  cases cancelled with
  | true => exact throw _
  | false =>
      refine ask_bind fun answer => ?_
      cases answer with
      | ok outcome => exact value outcome fun _ => rfl
      | error moment => exact throw _

/-- Branches have forks of the scope chain, and their outcomes are values. -/
theorem fanOut (policy : JoinPolicy)
    (branches : Context → Scope → Except Control.Fault (List Branch)) :
    (fanOut ctx id policy branches).ReadsOnly := by
  refine ask_bind fun group => (decided _).bind fun bs => ask_bind fun joined => ?_
  refine (ofResult joined).bind fun outcomes => ask_bind fun (cancelled : Bool) => ?_
  cases cancelled with
  | true => exact throw _
  | false => exact value _ fun _ => rfl

theorem receive (bind : Option String) (capture : Bool) (outcome : Outcome) :
    (receive bind capture outcome).WritesLast (Scope.assignSome bind) := by
  unfold Execution.receive
  cases capture with
  | true =>
      intro s
      cases bind <;> rfl
  | false =>
      refine (ofResult _).bind fun v s => ?_
      cases bind <;> rfl

theorem record (op : RecordOp) (spec : RecordSpec) :
    (Execution.record ctx id op spec).WritesLast (Scope.assignSome spec.bind) := by
  have sent (request : RecordRequest) : (do
      Execution.receive spec.bind spec.capture (← Execution.send ctx id (.record request)) :
        Exec Json).WritesLast (Scope.assignSome spec.bind) :=
    (send _).bind fun outcome => receive _ _ outcome
  have loaded (make : Json → RecordRequest) : (do
      let request ← make <$> payloadOf spec
      Execution.receive spec.bind spec.capture (← Execution.send ctx id (.record request)) :
        Exec Json).WritesLast (Scope.assignSome spec.bind) := by
    have hpayload : (payloadOf spec).ReadsOnly := by
      unfold payloadOf
      split
      · exact .decided _
      · exact .throw _
    exact (map hpayload).bind sent
  have filtered (go : Json → Exec Json)
      (hgo : ∀ filter, (go filter).WritesLast (Scope.assignSome spec.bind)) :
      (overFilter spec go).WritesLast (Scope.assignSome spec.bind) := by
    unfold overFilter
    cases spec.filter with
    | some e => exact (decided _).bind hgo
    | none => exact hgo _
  unfold Execution.record
  cases op with
  | create => exact filtered _ fun _ => loaded _
  | update => exact filtered _ fun filter => loaded _
  | delete => exact filtered _ fun filter => sent (.delete spec.record filter)
  | query => exact filtered _ fun filter => sent (.query spec.record filter)

end WritesLast
end Exec

/-! ## What an action writes -/

namespace Action

/-- An action whose steps, if there are any, do not run in the scope chain of its own step. -/
def IsFlat : Action → Prop
  | .call _ _ | .record _ _ | .script _ _ | .assign _ _ _ | .forEach _ _ _ _ _ | .parallel _ _ => True
  | _ => False

def write (action : Action) (v : Json) (s : Scope) : Scope :=
  match action with
  | .call _ spec => s.assignSome spec.bind v
  | .record _ spec => s.assignSome spec.bind v
  | .script _ bind => s.assignSome bind v
  | .assign target _ declare => assignTo (.ofText target) declare v s
  | _ => s

theorem writesLast {action : Action} (h : action.IsFlat) (id : String) (ctx : Context) :
    (action.run id ctx).WritesLast fun reached => action.write reached.output := by
  cases action with
  | call route spec =>
      rw [Action.run]
      refine .map ((WritesLast.decided _).bind fun inputs => (WritesLast.send _).bind ?_)
      exact fun outcome => .receive _ _ outcome
  | record op spec =>
      rw [Action.run]
      exact .map (.record op spec)
  | script e bind =>
      rw [Action.run]
      refine (WritesLast.decided _).bind fun v => ?_
      cases bind with
      | some name => exact .modify_value fun _ => rfl
      | none => exact .value _ fun _ => rfl
  | assign target e declare =>
      rw [Action.run]
      exact (WritesLast.decided _).bind fun v => .modify_value fun _ => rfl
  | forEach collection binding body join collect =>
      rw [Action.run]
      refine (WritesLast.decided _).bind fun v => (WritesLast.decided _).bind fun items => ?_
      exact .fanOut _ _
  | parallel branches join =>
      rw [Action.run]
      exact .fanOut _ _
  | _ => exact h.elim

end Action

/-! ## The other names -/

def Target.owner : Target → String
  | .binding name => name
  | .field _ => stateName

def Action.owner? (action : Action) : Option String :=
  action.written?.map fun p => p.2.owner

namespace Scope

variable {name other : String} {s : Scope}

def column (name : String) (s : Scope) : List (ScopeKind × Option Json) :=
  s.frames.map fun f => (f.kind, Fields.get? name f.bindings)

theorem Writes.column_eq {s' : Scope} {v : Json} (h : s.Writes name v s') (hne : other ≠ name) :
    s'.column other = s.column other :=
  h.map_frames fun f => congrArg (Prod.mk f.kind) (Fields.get?_insert_of_ne v f.bindings hne)

theorem column_assign (h : other ≠ name) (v : Json) (s : Scope) :
    (s.assign name v).column other = s.column other :=
  (s.writes_assign name v).column_eq h

theorem column_recordOutput (h : other ≠ stepName) (id : String) (output : Json) (s : Scope) :
    (s.recordOutput id output).column other = s.column other :=
  (s.writes_flow stepName _).column_eq h

theorem column_assignTo {target : Target} (h : other ≠ target.owner) (declare : Bool) (v : Json)
    (s : Scope) : (assignTo target declare v s).column other = s.column other := by
  cases target with
  | field name => exact (s.writes_flow Target.stateName _).column_eq h
  | binding name =>
      cases declare with
      | true => exact (s.writes_declareLocal name v).column_eq h
      | false => exact column_assign h v s

theorem column_assignSome {bind : Option String} (h : bind ≠ some other) (v : Json) (s : Scope) :
    (s.assignSome bind v).column other = s.column other := by
  cases bind with
  | none => rfl
  | some name => exact column_assign (fun hname => h (congrArg some hname.symm)) v s

end Scope

/-- An action writes to its own name only. -/
theorem Action.column_write {action : Action} {name : String} (h : action.owner? ≠ some name)
    (v : Json) (s : Scope) : (action.write v s).column name = s.column name := by
  have hbind {bind : Option String} (hne : (bind.map fun name => (name, Target.binding name)).map
      (fun p => p.2.owner) ≠ some name) : bind ≠ some name := by
    rintro rfl
    exact hne rfl
  cases action with
  | call route spec => exact Scope.column_assignSome (hbind h) v s
  | record op spec => exact Scope.column_assignSome (hbind h) v s
  | script e bind => exact Scope.column_assignSome (hbind h) v s
  | assign target e declare =>
      exact Scope.column_assignTo (fun hname => h (congrArg some hname.symm)) declare v s
  | _ => rfl

/-! ## What a step leaves behind -/

variable {step : Step} {ctx : Context} {s s' : Scope} {r : Except Failure Reached} {deeds : List Deed}

/-- However a call, an evaluation, an assignment or a fan-out fails, with whatever policy and after
whatever attempts, it leaves the scope chain as it was. When it completes, it has written its value and
then recorded its output, and every frame binds all other names as before. -/
theorem only_success_writes (hflat : step.action.IsFlat)
    (h : ((step.run ctx).on s).Follows deeds (.pure (r, s'))) :
    (∀ f, r = .error f → s' = s) ∧
    ∀ reached, r = .ok reached →
      s' = (step.action.write reached.output s).recordOutput step.id reached.output ∧
      ∀ name, step.action.owner? ≠ some name → name ≠ Scope.stepName → s'.column name = s.column name := by
  have hrun : (step.run ctx).WritesLast fun reached s =>
      (step.action.write reached.output s).recordOutput step.id reached.output := by
    rw [Step.run_eq]
    exact .node (.withDeadline (fun ctx => step.action.writesLast hflat step.id ctx) _ _) ctx _ _ _
  have hend : s' = leftBy _ s r := (hrun s).of_follows h
  refine ⟨?_, ?_⟩
  · rintro f rfl
    exact hend
  · rintro reached rfl
    refine ⟨hend, fun name hname hstep => ?_⟩
    rw [hend]
    exact (Scope.column_recordOutput hstep _ _ _).trans (Action.column_write hname _ _)

/-- A tool fails at first, and its second answer is bound to a name. -/
theorem only_success_writes_retried : ∃ (step : Step) (ctx : Context) (s s' : Scope)
    (deeds : List Deed), step.action.IsFlat ∧
      ((step.run ctx).on s).Follows deeds (.pure (.ok (.value (.str "yes")), s')) ∧
      Deed.mk (.request 0 ctx.token (.call .tool "oracle" (.object []))) (.ok (.failure "no")) ∈ deeds ∧
      s' = (s.assign "answer" (.str "yes")).recordOutput "ask" (.str "yes") ∧
      ∀ name, name ≠ "answer" → name ≠ Scope.stepName → s'.column name = s.column name := by
  let policy : RetryPolicy := ⟨2, .fixed 5, true⟩
  let step := Step.mk "ask" (.call .tool ⟨"oracle", [], some "answer", false⟩) (some policy) none
  let ctx : Context := ⟨0, .root 0, none⟩
  let asks : Effect := .request 0 ctx.token (.call .tool "oracle" (.object []))
  have h : ((step.run ctx).on .empty).Follows
      [⟨.isCancelled ctx.token, false⟩, ⟨.startSpan ctx "ask", .ok ()⟩,
        ⟨.isCancelled ctx.token, false⟩, ⟨asks, .ok (.failure "no")⟩,
        ⟨.sleep (some ctx.token) 5, true⟩,
        ⟨.isCancelled ctx.token, false⟩, ⟨asks, .ok (.ok (.str "yes"))⟩,
        ⟨.note 0 (.record ⟨"ask", "tool-call", .completed, 2, none⟩), ()⟩,
        ⟨.endSpan ctx "ask" .completed, .ok ()⟩]
      (.pure (.ok (.value (.str "yes")),
        (Scope.empty.assign "answer" (.str "yes")).recordOutput "ask" (.str "yes"))) :=
    .deed (.deed (.deed (.deed (.deed (.deed (.deed (.deed (.deed (.start _)))))))))
  have hflat : step.action.IsFlat := trivial
  obtain ⟨hwrites, hothers⟩ := (only_success_writes hflat h).2 _ rfl
  refine ⟨step, ctx, .empty, _, _, hflat, h, by simp [asks], hwrites, fun name hname hstep => ?_⟩
  exact hothers name (fun hown => hname (Option.some.inj hown).symm) hstep

end FlowEngine
