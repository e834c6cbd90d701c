import FlowEngine.Proofs.Execution.Coherent
import FlowEngine.Proofs.Execution.Node
import FlowEngine.Proofs.Flow.Checks
import FlowEngine.Proofs.Run.Lifetime
import FlowEngine.Proofs.Scope.Frames
import FlowEngine.Proofs.Scope.Steps

/-!
# Names that are read back

A step that writes its value to a name does so at the end of its last attempt, and then its output is
recorded. So the name gives the value right after the step, if it does not stand for what is behind an
inner frame or for what the recorded output has replaced.
-/
namespace FlowEngine

open Exec Execution

def Action.written? : Action → Option (String × Target)
  | .call _ spec => spec.bind.map fun name => (name, .binding name)
  | .record _ spec => spec.bind.map fun name => (name, .binding name)
  | .script _ bind => bind.map fun name => (name, .binding name)
  | .assign target _ _ => some (target, .ofText target)
  | _ => none

namespace Target

variable {path name : String}

theorem eq_of_ofText_binding (h : ofText path = .binding name) : path = name := by
  dsimp only [ofText] at h
  split at h
  · cases h
  · cases h
    rfl

theorem toList_of_ofText_field (h : ofText path = .field name) :
    path.toList = stateName.toList ++ '.' :: name.toList := by
  dsimp only [ofText] at h
  split at h
  · rename_i hmark
    cases h
    rw [String.toList_ofList]
    exact (List.prefix_iff_eq_append.mp (List.isPrefixOf_iff_prefix.mp hmark)).symm
  · cases h

end Target

namespace Exec

variable {α β : Type} {Q : α → Scope → Prop}

def Attains (Q : α → Scope → Prop) (x : Exec α) : Prop :=
  ∀ s, (x.on s).Ends fun p => ∀ a, p.1 = .ok a → Q a p.2

namespace Attains

theorem throw (f : Failure) : (MonadExcept.throw f : Exec α).Attains Q := fun _ _ => nofun

theorem pure {a : α} (h : ∀ s, Q a s) : (Pure.pure a : Exec α).Attains Q := by
  rintro s _ ⟨⟩
  exact h s

theorem bind {x : Exec α} {f : α → Exec β} {R : β → Scope → Prop} (h : ∀ a, (f a).Attains R) :
    (x >>= f).Attains R := by
  intro s
  rw [on_bind]
  refine (Program.Ends.trivial (x.on s)).bind ?_
  rintro ⟨r, s'⟩ -
  cases r with
  | error f => exact nofun
  | ok a => exact h a s'

theorem map {g : α → β} {x : Exec α} {R : β → Scope → Prop}
    (h : x.Attains fun a => R (g a)) : (g <$> x).Attains R := by
  intro s
  rw [on_map]
  refine (h s).bind ?_
  rintro ⟨r, s'⟩ hr
  cases r with
  | error f => exact nofun
  | ok a =>
      rintro _ ⟨⟩
      exact hr a rfl

/-- A value that is handed on after a change of the scope chain. -/
theorem modify_pure {g : Scope → Scope} {a : α} (h : ∀ s, Q a (g s)) :
    (modify g >>= fun _ => Pure.pure a : Exec α).Attains Q := by
  rintro s _ ⟨⟩
  exact h s

theorem withDeadline {ctx : Context} {attempt : Context → Exec α}
    (h : ∀ ctx, (attempt ctx).Attains Q) (id : String) (limit : Option Millis) :
    (withDeadline ctx id limit attempt).Attains Q := by
  cases limit with
  | none => exact h ctx
  | some limit =>
      intro s
      rw [withDeadline_on]
      refine fun token deadline => (h _ s).bind ?_
      rintro ⟨r, s'⟩ hr passed
      cases r with
      | error f => exact fun outer => nofun
      | ok a => exact hr

/-- After an attempt that failed, only another attempt can succeed. -/
theorem afterFailure {again : Option (Exec (Nat × Except Failure α))}
    (hagain : ∀ x ∈ again, x.Attains fun p s => ∀ a, p.2 = .ok a → Q a s) (ctx : Context)
    (id : String) (retry : Option RetryPolicy) (number : Nat) (f : Failure) :
    (afterAttempt ctx id retry number again (.error f)).Attains
      fun p s => ∀ a, p.2 = .ok a → Q a s := by
  unfold Execution.afterAttempt
  dsimp only
  split
  · exact pure fun _ => nofun
  · exact pure fun _ => nofun
  · refine bind fun waited => ?_
    split
    · exact hagain _ rfl
    · exact pure fun _ => nofun

/-- The result of the attempts of a step is that of the last one, in the scope chain that it left. -/
theorem attempts {attempt : Exec α} (h : attempt.Attains Q) (ctx : Context) (id : String)
    (retry : Option RetryPolicy) (further number : Nat) :
    (attempts ctx id retry attempt further number).Attains
      fun p s => ∀ a, p.2 = .ok a → Q a s := by
  have hafter {number : Nat} {again : Option (Exec (Nat × Except Failure α))}
      (hagain : ∀ x ∈ again, x.Attains fun p s => ∀ a, p.2 = .ok a → Q a s)
      (p : Except Failure α × Scope) (hp : ∀ a, p.1 = .ok a → Q a p.2) :
      ((afterAttempt ctx id retry number again p.1).on p.2).Ends
        fun q => ∀ b, q.1 = .ok b → ∀ a, b.2 = .ok a → Q a q.2 := by
    obtain ⟨r, s⟩ := p
    cases r with
    | error f => exact afterFailure hagain ctx id retry number f s
    | ok a =>
        rintro _ ⟨⟩ _ ⟨⟩
        exact hp a rfl
  induction further generalizing number with
  | zero =>
      intro s
      rw [Execution.attempts, on_bind, on_outcome, Program.bind_assoc]
      refine (h s).bind (hafter ?_)
      rintro _ ⟨⟩
  | succ further ih =>
      intro s
      rw [Execution.attempts, on_bind, on_outcome, Program.bind_assoc]
      refine (h s).bind (hafter ?_)
      rintro _ ⟨⟩
      exact ih (number + 1)

/-- When a step succeeds, its output is recorded after its last attempt. -/
theorem node {attempt : Exec Reached} {Q : Reached → Scope → Prop} (h : attempt.Attains Q)
    (ctx : Context) (id kind : String) (retry : Option RetryPolicy) :
    (node ctx id kind retry attempt).Attains
      fun reached s => ∃ u, Q reached u ∧ s = u.recordOutput id reached.output := by
  intro s
  rw [node_on]
  intro cancelled
  dsimp only
  split
  · exact fun _ => nofun
  · refine fun _ => (attempts h ctx id retry _ 1 s).bind ?_
    rintro ⟨r, u⟩ hr
    cases r with
    | error f => exact nofun
    | ok p =>
        obtain ⟨number, result⟩ := p
        refine fun _ _ => ?_
        cases result with
        | error f => exact nofun
        | ok reached =>
            rintro _ ⟨⟩
            exact ⟨u, hr _ rfl _ rfl, rfl⟩

end Attains
end Exec

def Written (target : Target) (v : Json) (s : Scope) : Prop := ∃ declare u, s = assignTo target declare v u

theorem attains_assign (name : String) (v : Json) :
    (modify (Scope.assign name v) >>= fun _ => pure v : Exec Json).Attains
      (Written (.binding name)) :=
  .modify_pure fun s => ⟨false, s, rfl⟩

theorem attains_receive (name : String) (capture : Bool) (outcome : Outcome) :
    (receive (some name) capture outcome).Attains (Written (.binding name)) := by
  unfold receive
  cases capture with
  | true => exact .bind fun value => attains_assign name value
  | false => exact .bind fun value => attains_assign name value

theorem attains_record {spec : RecordSpec} {name : String} (h : spec.bind = some name)
    (ctx : Context) (id : String) (op : RecordOp) :
    (record ctx id op spec).Attains (Written (.binding name)) := by
  have sent (request : RecordRequest) : (do
      receive spec.bind spec.capture (← send ctx id (.record request)) :
        Exec Json).Attains (Written (.binding name)) := by
    rw [h]
    exact .bind fun outcome => attains_receive name _ outcome
  have filtered (go : Json → Exec Json)
      (hgo : ∀ filter, (go filter).Attains (Written (.binding name))) :
      (overFilter spec go).Attains (Written (.binding name)) := by
    unfold overFilter
    cases spec.filter with
    | some e => exact .bind hgo
    | none => exact .bind hgo
  unfold record
  cases op with
  | create => exact filtered _ fun _ => .bind sent
  | update => exact filtered _ fun _ => .bind sent
  | delete => exact filtered _ fun filter => sent (.delete spec.record filter)
  | query => exact filtered _ fun filter => sent (.query spec.record filter)

namespace Action

variable {path : String} {target : Target}

/-- An action that writes its value to a name does so last. -/
theorem attains_run {action : Action} (h : action.written? = some (path, target)) (id : String)
    (ctx : Context) :
    (action.run id ctx).Attains fun reached => Written target reached.output := by
  cases action with
  | call route spec =>
      obtain ⟨name, hname, heq⟩ := Option.map_eq_some_iff.mp h
      cases heq
      rw [Action.run, Execution.call, hname]
      exact .map (.bind fun _ => .bind fun _ => attains_receive path _ _)
  | record op spec =>
      obtain ⟨name, hname, heq⟩ := Option.map_eq_some_iff.mp h
      cases heq
      rw [Action.run]
      exact .map (attains_record hname ctx id op)
  | script e bind =>
      obtain ⟨name, rfl, heq⟩ := Option.map_eq_some_iff.mp h
      cases heq
      rw [Action.run]
      exact .bind fun _ => .modify_pure fun s => ⟨false, s, rfl⟩
  | assign text e declare =>
      cases h
      rw [Action.run]
      exact .bind fun _ => .modify_pure fun s => ⟨declare, s, rfl⟩
  | _ => cases h

theorem reachable_written {n : Step} (hn : n.Sound) (h : n.action.written? = some (path, target)) :
    reachable target.name = true ∧ (target = .binding path ∨ target = .ofText path) := by
  have hsound := hn.reachable
  have hbound {name : Option String} (hnone : name.toList.find? (fun name => !reachable name) = none)
      (heq : name.map (fun name => (name, Target.binding name)) = some (path, target)) :
      reachable target.name = true ∧ (target = .binding path ∨ target = .ofText path) := by
    obtain ⟨name, rfl, heq⟩ := Option.map_eq_some_iff.mp heq
    cases heq
    simpa [Target.name] using hnone
  cases haction : n.action with
  | call route spec =>
      rw [haction] at h hsound
      exact hbound hsound h
  | record op spec =>
      rw [haction] at h hsound
      exact hbound hsound h
  | script e bind =>
      rw [haction] at h hsound
      exact hbound hsound h
  | assign text e declare =>
      rw [haction] at h hsound
      cases h
      simpa [Flow.unreachable?] using hsound
  | _ =>
      rw [haction] at h
      cases h

end Action

/-! ## What is read back -/

namespace Scope

variable {target : Target} {path id : String} {v : Json} {s u : Scope}

/-- What is written to a target can be seen: no inner frame binds the flow-wide object of a field, and
`step` is bound in an inner frame, so that the outputs of steps are not recorded in its place. -/
def Exposes (s : Scope) : Target → Prop
  | .field _ => s.hides Target.stateName = false
  | .binding name => name = stepName → s.hides stepName = true

theorem lookup?_binding (name : String) (declare : Bool) (v : Json) (s : Scope) :
    (assignTo (.binding name) declare v s).lookup? name = some v := by
  cases declare with
  | true => exact lookup?_declareLocal_self name v s
  | false => exact lookup?_assign_self name v s

theorem evaluate_binding {name : String} (hname : reachable name = true)
    (hwritten : Written (.binding name) v u) (h : (u.recordOutput id v).Exposes (.binding name)) :
    Control.evaluate (.var name) (u.recordOutput id v) = .ok v := by
  obtain ⟨declare, u, rfl⟩ := hwritten
  apply evaluate_name hname
  rw [← lookup?_binding name declare v u]
  by_cases hstep : name = stepName
  · subst hstep
    exact lookup?_congr_of_hides (s := assignTo (.binding stepName) declare v u) rfl (h rfl)
  · exact lookup?_recordOutput_of_ne hstep id v _

theorem evaluate_field {name : String} (hname : reachable name = true)
    (hpath : path.toList = Target.stateName.toList ++ '.' :: name.toList)
    (hwritten : Written (.field name) v u) (h : (u.recordOutput id v).Exposes (.field name)) :
    Control.evaluate (.var path) (u.recordOutput id v) = .ok v := by
  obtain ⟨declare, u, rfl⟩ := hwritten
  have hsplit : Text.split '.' path.toList = [Target.stateName.toList, name.toList] := by
    rw [hpath, Text.split_append (by decide), split_of_reachable hname]
  have hstate : (u.setStateField name v).lookup? Target.stateName = some (.obj (Fields.insert name v
      (((Fields.get? Target.stateName u.flow).bind Json.asFields?).getD []))) :=
    (lookup?_of_not_hides (s := u.setStateField name v) h).trans (Fields.get?_insert_self _ _ u.flow)
  have hfound := (lookup?_recordOutput_of_ne (by decide) id v (u.setStateField name v)).trans hstate
  rw [← String.ofList_toList (s := Target.stateName)] at hfound
  rw [assignTo, evaluate_var hsplit (by decide) hfound, follow, child?, String.ofList_toList,
    Fields.get?_insert_self]
  rfl

end Scope

variable {flow : Flow} {n : Step} {ctx : Context} {path : String} {target : Target} {s s' : Scope}
  {reached : Reached} {deeds : List Deed}

/-- When a step of a valid flow has written its value to a name or to a field, the path of the name gives
the value of the step right after it, if what was written is exposed there. -/
theorem written_value_read_back (hvalid : flow.validate = .ok ()) (hn : n ∈ flow.nodes)
    (hwrites : n.action.written? = some (path, target))
    (h : ((n.run ctx).on s).Follows deeds (.pure (.ok reached, s'))) (hexposed : s'.Exposes target) :
    Control.evaluate (.var path) s' = .ok reached.output := by
  obtain ⟨id, action, retry, timeout⟩ := n
  have hrun : ((Step.mk id action retry timeout).run ctx).Attains fun reached s =>
      ∃ u, Written target reached.output u ∧ s = u.recordOutput id reached.output := by
    rw [Step.run]
    exact .node (.withDeadline (fun ctx => action.attains_run hwrites id ctx) id _) ctx id _ retry
  obtain ⟨u, hwritten, rfl⟩ := (hrun s).of_follows h reached rfl
  obtain ⟨hreachable, rfl | rfl⟩ :=
    Action.reachable_written ((Flow.checked_of_valid hvalid).sound _ hn) hwrites
  · exact Scope.evaluate_binding hreachable hwritten hexposed
  · cases htarget : Target.ofText path with
    | binding name =>
        rw [htarget] at hreachable hwritten hexposed
        rw [Target.eq_of_ofText_binding htarget]
        exact Scope.evaluate_binding hreachable hwritten hexposed
    | field name =>
        rw [htarget] at hreachable hwritten hexposed
        exact Scope.evaluate_field hreachable (Target.toList_of_ofText_field htarget) hwritten hexposed

theorem written_value_read_back_bound : ∃ (flow : Flow) (n : Step) (ctx : Context) (s s' : Scope)
    (deeds : List Deed), flow.validate = .ok () ∧ n ∈ flow.nodes ∧
      n.action.written? = some ("answer", .binding "answer") ∧
      ((n.run ctx).on s).Follows deeds (.pure (.ok (.value (.str "yes")), s')) ∧
      Control.evaluate (.var "answer") s' = .ok (.str "yes") := by
  let n := Step.mk "ask" (.call .tool ⟨"oracle", [], some "answer", false⟩) none none
  let flow : Flow := { name := "orders", description := none, steps := [n], onError := none }
  let ctx : Context := ⟨0, .root 0, none⟩
  have hvalid : flow.validate = .ok () := by decide +kernel
  have hn : n ∈ flow.nodes := List.mem_cons_self
  have h : ((n.run ctx).on .empty).Follows
      [⟨.isCancelled ctx.token, false⟩, ⟨.startSpan ctx "ask", .ok ()⟩,
        ⟨.isCancelled ctx.token, false⟩,
        ⟨.request 0 ctx.token (.call .tool "oracle" (.object [])), .ok (.ok (.str "yes"))⟩,
        ⟨.note 0 (.record ⟨"ask", "tool-call", .completed, 1, none⟩), ()⟩,
        ⟨.endSpan ctx "ask" .completed, .ok ()⟩]
      (.pure (.ok (.value (.str "yes")),
        (Scope.empty.assign "answer" (.str "yes")).recordOutput "ask" (.str "yes"))) :=
    .deed (.deed (.deed (.deed (.deed (.deed (.start _))))))
  exact ⟨flow, n, ctx, .empty, _, _, hvalid, hn, rfl, h,
    written_value_read_back hvalid hn rfl h fun hname => absurd hname (by decide)⟩

/-! ### Values that are lost -/

namespace Solo

def hidden : Solo where
  world := quietWorld []
  flow :=
    { name := "orders"
      description := none
      steps := [.mk "branch" (.conditional [(.literal (.bool true),
        [.mk "hide" (.assign "state" (.literal (.str "old")) true) none none,
          .mk "set" (.assign "state.x" (.literal (.str "new")) false) none none,
          .mk "read" (.script (.var "state.x") none) none none])] none) none none]
      onError := none }

def replaced : Solo where
  world := quietWorld []
  flow :=
    { name := "orders"
      description := none
      steps := [.mk "set" (.assign "step" (.literal (.str "new")) false) none none,
        .mk "read" (.script (.var "step") none) none none]
      onError := none }

end Solo

/-- The step `set` has written a text, and the step `read`, which is next, has found something else. -/
def RunResult.loses (r : RunResult) : Bool :=
  decide ((r.output? "set").bind Json.asText? = some "new") &&
    decide ((r.output? "read").bind Json.asText? ≠ some "new") && (r.output? "read").isSome

/-- A field that was written is not found behind an inner frame, and what was written to `step` is gone
when the output of the step is recorded there. -/
theorem written_values_lost :
    (Solo.hidden.flow.validate = .ok () ∧ ∃ log result,
      Session.Gives Solo.hidden.config Solo.hidden.flow [.errand] log result ∧ result.loses = true) ∧
    (Solo.replaced.flow.validate = .ok () ∧ ∃ log result,
      Session.Gives Solo.replaced.config Solo.replaced.flow [.errand] log result ∧
        result.loses = true) := by
  obtain ⟨result, hgives, hp⟩ := Solo.hidden.exists_gives 200 rfl (p := RunResult.loses)
    (by decide +kernel)
  obtain ⟨result', hgives', hp'⟩ := Solo.replaced.exists_gives 200 rfl (p := RunResult.loses)
    (by decide +kernel)
  exact ⟨⟨by decide +kernel, _, result, hgives, hp⟩, by decide +kernel, _, result', hgives', hp'⟩

end FlowEngine
