import FlowEngine.Execution.Step
import FlowEngine.Proofs.Execution.Monad
import Mathlib.Data.List.Forall2
import Mathlib.Data.Option.Basic

/-!
# Steps in two scopes of cancellation

The programs of a step in two scopes of cancellation are put together in the same way. So a
relation between programs that is closed under the ways in which steps are put together holds
between the programs of every step, whatever is nested in it. Each such relation has to look
only at the few programs that perform effects: sending a request, running a node in attempts, a
deadline, a fan-out and a transaction.
-/
namespace FlowEngine

open Exec Execution

/-- The changes that steps make to a scope chain: they assign, and they declare what a loop or a
pattern binds. -/
inductive Scope.Update : (Scope → Scope) → Prop where
  | assign (name : String) (value : Json) : Update (Scope.assign name value)
  | target (target : Target) (declare : Bool) (value : Json) : Update (assignTo target declare value)
  | declare (bindings : List Control.Binding) : Update (Control.declareAll bindings)

inductive Scope.Entry : (Scope → Scope) → Prop where
  | frame (kind : ScopeKind) (bindings : List Control.Binding) :
      Entry (Control.declareAll bindings ∘ Scope.push kind)

theorem Scope.Entry.plain (kind : ScopeKind) : Scope.Entry (Scope.push kind) := .frame kind []

theorem forall_of_rel {α β : Type} {Q : α → Prop} {o : Option α} {o' : Option β}
    (h : Option.Rel (fun a _ => Q a) o o') : ∀ a ∈ o, Q a := by
  cases h with
  | some ha =>
      rintro _ ⟨⟩
      exact ha
  | none => nofun

inductive Action.Asks : Action → Request → Prop where
  | call (route : Route) (spec : CallSpec) (inputs : Json) :
      Asks (.call route spec) (.call route spec.target inputs)
  | record (spec : RecordSpec) (request : RecordRequest) :
      Asks (.record request.op spec) (.record request)

def Action.policy? : Action → Option JoinPolicy
  | .forEach _ _ _ join _ | .parallel _ join => some join
  | _ => none

def Step.limit (s : Step) (ctx : Context) : Option Millis :=
  s.timeout.orElse fun _ => if s.action.isExternal then ctx.stepLimit else none

/-- A branch of a fan-out before its scope of cancellation is known. -/
structure Part where
  scope : Scope
  body : List Step
  collect : Option Expr

theorem Step.mem_parallelNodes {bodies : List (List Step × Option Expr)}
    {part : List Step × Option Expr} (h : part ∈ bodies) {n : Step}
    (hn : n ∈ sequenceNodes part.1) : n ∈ parallelNodes bodies := by
  induction bodies with
  | nil => cases h
  | cons other rest ih =>
      rw [parallelNodes, List.mem_append]
      rcases List.mem_cons.mp h with rfl | hrest
      · exact Or.inl hn
      · exact Or.inr (ih hrest)

def branchesOf (plan : Scope → Except Control.Fault (List Part)) (ctx : Context) (s : Scope) :
    Except Control.Fault (List Branch) :=
  (plan s).map fun parts => parts.map fun p => .steps ctx p.scope p.body p.collect

namespace Control

inductive Alike {α β : Type} (Q : α → β → Prop) : Except Fault α → Except Fault β → Prop where
  | ok {a : α} {b : β} (related : Q a b) : Alike Q (.ok a) (.ok b)
  | error (fault : Fault) : Alike Q (.error fault) (.error fault)

theorem Alike.refl {α : Type} (r : Except Fault α) : Alike Eq r r := by
  cases r with
  | ok a => exact .ok rfl
  | error fault => exact .error fault

theorem Alike.exists_of_ok {α β : Type} {Q : α → β → Prop} {r : Except Fault α}
    {r' : Except Fault β} (h : Alike Q r r') {a : α} (ha : r = .ok a) : ∃ b, Q a b := by
  cases h with
  | ok hQ =>
      cases ha
      exact ⟨_, hQ⟩
  | error => cases ha

theorem selectBranch_alike {α β : Type} {Q : α → β → Prop} {branches : List (Expr × α)}
    {branches' : List (Expr × β)} {otherwise : Option α} {otherwise' : Option β}
    (h : List.Forall₂ (fun b b' => b.1 = b'.1 ∧ Q b.2 b'.2) branches branches')
    (ho : Option.Rel Q otherwise otherwise') (s : Scope) :
    Alike (Option.Rel Q) (selectBranch branches otherwise s)
      (selectBranch branches' otherwise' s) := by
  induction h with
  | nil => exact .ok ho
  | @cons b b' rest rest' head tail ih =>
      obtain ⟨condition, body⟩ := b
      obtain ⟨condition', body'⟩ := b'
      obtain ⟨rfl, hbody⟩ := head
      simp only [selectBranch]
      cases evalCondition condition s with
      | error fault => exact .error fault
      | ok holds =>
          cases holds with
          | true => exact .ok (.some hbody)
          | false => exact ih

theorem selectArm_alike {α β : Type} {Q : α → β → Prop} {subject : Json} {arms : List (Pattern × α)}
    {arms' : List (Pattern × β)} {otherwise : Option α} {otherwise' : Option β}
    (h : List.Forall₂ (fun b b' => b.1 = b'.1 ∧ Q b.2 b'.2) arms arms')
    (ho : Option.Rel Q otherwise otherwise') :
    Alike (Option.Rel fun x x' => Q x.1 x'.1 ∧ x.2 = x'.2) (selectArm subject arms otherwise)
      (selectArm subject arms' otherwise') := by
  induction h with
  | nil =>
      cases ho with
      | some hbody => exact .ok (.some ⟨hbody, rfl⟩)
      | none =>
          simp only [selectArm]
          split
          · exact .ok .none
          · exact .error _
  | @cons b b' rest rest' head tail ih =>
      obtain ⟨pattern, body⟩ := b
      obtain ⟨pattern', body'⟩ := b'
      obtain ⟨rfl, hbody⟩ := head
      simp only [selectArm]
      cases Pattern.accepts? subject pattern with
      | some binding => exact .ok (.some ⟨hbody, rfl⟩)
      | none => exact ih

end Control

namespace Execution

def elementParts (binding : LoopBinding) (body : List Step) (collect : Option Expr)
    (items : List Json) (s : Scope) : Except Control.Fault (List Part) :=
  (items.mapM (Control.loopBindings binding)).map fun bindings => bindings.map fun bound =>
    ⟨Control.declareAll bound (s.fork .loopIteration), body, collect⟩

theorem elementBranches_eq (binding : LoopBinding) (body : List Step) (collect : Option Expr)
    (items : List Json) : elementBranches binding body collect items =
      branchesOf (elementParts binding body collect items) := by
  funext ctx s
  unfold elementBranches branchesOf elementParts
  induction items with
  | nil => rfl
  | cons item rest ih =>
      rw [List.mapM_cons, ih, List.mapM_cons]
      cases Control.loopBindings binding item with
      | error fault => rfl
      | ok bound => cases rest.mapM (Control.loopBindings binding) <;> rfl

theorem body_of_elementParts {binding : LoopBinding} {body : List Step} {collect : Option Expr}
    {items : List Json} {s : Scope} {parts : List Part}
    (h : elementParts binding body collect items s = .ok parts) : ∀ p ∈ parts, p.body = body := by
  unfold elementParts at h
  cases hb : items.mapM (Control.loopBindings binding) with
  | error fault =>
      rw [hb] at h
      cases h
  | ok bindings =>
      rw [hb] at h
      cases h
      intro p hp
      obtain ⟨bound, -, rfl⟩ := List.mem_map.mp hp
      rfl

def parallelParts (bodies : List (List Step × Option Expr)) (s : Scope) :
    Except Control.Fault (List Part) :=
  .ok (bodies.map fun (body, collect) => ⟨s.fork .loopIteration, body, collect⟩)

theorem parallelBranches_eq (bodies : List (List Step × Option Expr)) :
    parallelBranches bodies = branchesOf (parallelParts bodies) := by
  funext ctx s
  simp only [branchesOf, parallelParts, Except.map, List.map_map, parallelBranches]
  rfl

/-- Goes on with the filter of a record step; one without a filter meets every row. -/
def overFilter (spec : RecordSpec) (go : Json → Exec Json) : Exec Json :=
  match spec.filter with
  | some e => evaluate e >>= go
  | none => pure (.obj []) >>= go

end Execution

/-- What a step raises by itself: the failure names no step, and it is a cancellation only if the
answer to a request reports one. -/
structure Failure.Raw (Reply : Outcome → Prop) (f : Failure) : Prop where
  nameless : f.stepId = none
  reported : f.isCancellation = true → ∃ outcome, Reply outcome ∧ outcome.toExcept = .error f

/-- A relation between programs in two scopes of cancellation that is closed under the ways in
which the programs of fitting steps are put together, as far as requests get certain replies. It
may depend on the step whose action the programs belong to; a sequence belongs to no step. What
has to be known of a step to look into its action may be less than that the step fits. -/
structure Coherent (Fits Acts : Step → Prop) (Reply : Outcome → Prop)
    (R : Option Step → Context → Context → (β : Type) → Exec β → Exec β → Prop) : Prop where
  acts {s : Step} : Fits s → Acts s
  value {o : Option Step} {ctx ctx' : Context} {β : Type} (a : β) :
    R o ctx ctx' β (pure a) (pure a)
  fails {s : Step} {ctx ctx' : Context} {β : Type} {f : Failure} : f.Raw Reply →
    R (some s) ctx ctx' β (throw f) (throw f)
  alter {o : Option Step} {ctx ctx' : Context} {g : Scope → Scope} : Scope.Update g →
    R o ctx ctx' Unit (modify g) (modify g)
  bind {o : Option Step} {ctx ctx' : Context} {β γ : Type} {x x' : Exec β} {f f' : β → Exec γ} :
    R o ctx ctx' β x x' → (∀ a, R o ctx ctx' γ (f a) (f' a)) →
      R o ctx ctx' γ (x >>= f) (x' >>= f')
  decide {s : Step} {ctx ctx' : Context} {β γ : Type} {Q : β → β → Prop}
    {d d' : Scope → Except Control.Fault β} {f f' : β → Exec γ} :
    (∀ s, Control.Alike Q (d s) (d' s)) →
    (∀ scope a a', d scope = .ok a → Q a a' → R (some s) ctx ctx' γ (f a) (f' a')) →
      R (some s) ctx ctx' γ (decided d >>= f) (decided d' >>= f')
  inFrame {s : Step} {ctx ctx' : Context} {β : Type} {enter : Scope → Scope} {body body' : Exec β} :
    Scope.Entry enter → R (some s) ctx ctx' β body body' →
      R (some s) ctx ctx' β (inFrame enter body) (inFrame enter body')
  send {s : Step} {ctx ctx' : Context} {request : Request} {f : Outcome → Exec Json} : Acts s →
    s.action.Asks request →
    (∀ outcome, Reply outcome → R (some s) ctx ctx' Json (f outcome) (f outcome)) →
      R (some s) ctx ctx' Json (send ctx s.id request >>= f) (send ctx' s.id request >>= f)
  node {s : Step} {ctx ctx' : Context} {attempt attempt' : Exec Reached} : Fits s →
    R (some s) ctx ctx' Reached attempt attempt' →
      R none ctx ctx' Reached (node ctx s.id s.kind s.retry attempt)
        (node ctx' s.id s.kind s.retry attempt')
  inside {s : Step} {ctx ctx' : Context} {body body' : Exec Json} : R none ctx ctx' Json body body' →
    R (some s) ctx ctx' Json body body'
  deadline {s : Step} {ctx ctx' : Context} {attempt : Context → Exec Reached} : Acts s →
    (∀ ctx ctx', R (some s) ctx ctx' Reached (attempt ctx) (attempt ctx')) →
      R (some s) ctx ctx' Reached (withDeadline ctx s.id (s.limit ctx) attempt)
        (withDeadline ctx' s.id (s.limit ctx') attempt)
  fanOut {s : Step} {ctx ctx' : Context} {policy : JoinPolicy}
    {plan : Scope → Except Control.Fault (List Part)} : Acts s → s.action.policy? = some policy →
    (∀ scope parts, plan scope = .ok parts → ∀ p ∈ parts, ∀ n ∈ Step.sequenceNodes p.body,
      n ∈ Step.actionNodes s.action ∧ Fits n) →
    (∀ scope parts, plan scope = .ok parts → ∀ p ∈ parts, ∀ ctx ctx',
      R none ctx ctx' Json (runSequence p.body ctx .null) (runSequence p.body ctx' .null)) →
      R (some s) ctx ctx' Reached (fanOut ctx s.id policy (branchesOf plan))
        (fanOut ctx' s.id policy (branchesOf plan))
  transaction {s : Step} {ctx ctx' : Context} {body : List Step} {onError : Option (List Step)} :
    Acts s → s.action = .transaction body onError →
    R none ctx ctx' Json (runSequence body ctx .null) (runSequence body ctx' .null) →
    Option.Rel (R none ctx ctx' Json) (optionProgram onError ctx) (optionProgram onError ctx') →
      R (some s) ctx ctx' Reached
        (transaction ctx s.id (runSequence body ctx .null) (optionProgram onError ctx))
        (transaction ctx' s.id (runSequence body ctx' .null) (optionProgram onError ctx'))

theorem Outcome.stepId_of_error {outcome : Outcome} {f : Failure} (h : outcome.toExcept = .error f) :
    f.stepId = none := by
  cases outcome with
  | ok value => cases h
  | failed kind message =>
      cases h
      rfl

namespace Coherent

variable {Fits Acts : Step → Prop} {Reply : Outcome → Prop}
  {R : Option Step → Context → Context → (β : Type) → Exec β → Exec β → Prop}
  (h : Coherent Fits Acts Reply R) {s : Step} {ctx ctx' : Context}
include h

theorem map {β γ : Type} {o : Option Step} {x x' : Exec β} (g : β → γ) (hx : R o ctx ctx' β x x') :
    R o ctx ctx' γ (g <$> x) (g <$> x') := by
  rw [map_eq_pure_bind, map_eq_pure_bind]
  exact h.bind hx fun a => h.value _

theorem decision_bind {β γ : Type} {d : Scope → Except Control.Fault β} {f f' : β → Exec γ}
    (hf : ∀ scope a, d scope = .ok a → R (some s) ctx ctx' γ (f a) (f' a)) :
    R (some s) ctx ctx' γ (decided d >>= f) (decided d >>= f') := by
  refine h.decide (fun scope => .refl (d scope)) ?_
  rintro scope a _ ha rfl
  exact hf scope a ha

theorem decision {β : Type} (d : Scope → Except Control.Fault β) :
    R (some s) ctx ctx' β (decided d) (decided d) := by
  rw [← bind_pure (decided d)]
  exact h.decision_bind fun _ a _ => h.value a

theorem answer {outcome : Outcome} (reply : Reply outcome) :
    R (some s) ctx ctx' Json (ofResult outcome.toExcept) (ofResult outcome.toExcept) := by
  cases hr : outcome.toExcept with
  | ok value => exact h.value value
  | error f => exact h.fails ⟨Outcome.stepId_of_error hr, fun _ => ⟨outcome, reply, hr⟩⟩

theorem receive (bind : Option String) (capture : Bool) {outcome : Outcome}
    (reply : Reply outcome) :
    R (some s) ctx ctx' Json (receive bind capture outcome) (receive bind capture outcome) := by
  cases bind with
  | none =>
      cases capture with
      | true => exact h.bind (h.value _) fun value => h.value value
      | false => exact h.bind (h.answer reply) fun value => h.value value
  | some name =>
      have bound (value : Json) : R (some s) ctx ctx' Json _ _ :=
        h.bind (h.alter (.assign name value)) fun _ => h.value value
      cases capture with
      | true => exact h.bind (h.value _) bound
      | false => exact h.bind (h.answer reply) bound

theorem call {route : Route} {spec : CallSpec} (acts : Acts s)
    (hs : s.action = .call route spec) :
    R (some s) ctx ctx' Json (call ctx s.id route spec) (call ctx' s.id route spec) := by
  unfold Execution.call
  exact h.decision_bind fun _ inputs _ =>
    h.send acts (hs ▸ .call route spec inputs) fun _ reply => h.receive _ _ reply

theorem payloadOf (spec : RecordSpec) :
    R (some s) ctx ctx' Json (payloadOf spec) (payloadOf spec) := by
  unfold Execution.payloadOf
  split
  · exact h.decision _
  · exact h.fails ⟨rfl, nofun⟩

theorem overFilter (spec : RecordSpec) {f f' : Json → Exec Json}
    (hf : ∀ filter, R (some s) ctx ctx' Json (f filter) (f' filter)) :
    R (some s) ctx ctx' Json (overFilter spec f) (overFilter spec f') := by
  unfold Execution.overFilter
  cases spec.filter with
  | some e => exact h.bind (h.decision _) hf
  | none => exact h.bind (h.value _) hf

theorem record {op : RecordOp} {spec : RecordSpec} (acts : Acts s)
    (hs : s.action = .record op spec) :
    R (some s) ctx ctx' Json (record ctx s.id op spec) (record ctx' s.id op spec) := by
  have sent (request : RecordRequest) (hop : request.op = op) : R (some s) ctx ctx' Json
      (do Execution.receive spec.bind spec.capture (← Execution.send ctx s.id (.record request)))
      (do Execution.receive spec.bind spec.capture
            (← Execution.send ctx' s.id (.record request))) := by
    subst hop
    exact h.send acts (hs ▸ .record spec request) fun _ reply => h.receive _ _ reply
  have loaded (g : Json → RecordRequest) (hop : ∀ payload, (g payload).op = op) :
      R (some s) ctx ctx' Json
        (do
          let request ← g <$> Execution.payloadOf spec
          Execution.receive spec.bind spec.capture (← Execution.send ctx s.id (.record request)))
        (do
          let request ← g <$> Execution.payloadOf spec
          Execution.receive spec.bind spec.capture
            (← Execution.send ctx' s.id (.record request))) := by
    simp only [map_eq_pure_bind, bind_assoc, pure_bind]
    exact h.bind (h.payloadOf spec) fun payload => sent _ (hop payload)
  unfold Execution.record
  cases op with
  | create => exact h.overFilter spec fun _ => loaded (.create spec.record) fun _ => rfl
  | update => exact h.overFilter spec fun filter => loaded (.update spec.record filter) fun _ => rfl
  | delete => exact h.overFilter spec fun filter => sent (.delete spec.record filter) rfl
  | query => exact h.overFilter spec fun filter => sent (.query spec.record filter) rfl

theorem times {body body' : Exec Json} (hb : R (some s) ctx ctx' Json body body')
    (counter : Option String) (remaining number : Nat) (outputs : List Json) :
    R (some s) ctx ctx' (List Json) (times counter body remaining number outputs)
      (times counter body' remaining number outputs) := by
  induction remaining generalizing number outputs with
  | zero => exact h.value _
  | succ remaining ih => exact h.bind (h.inFrame (.frame _ _) hb) fun output => ih _ _

theorem each {body body' : Exec Json} (hb : R (some s) ctx ctx' Json body body')
    (binding : LoopBinding) (index : Option String) (items : List Json) (position : Nat)
    (outputs : List Json) : R (some s) ctx ctx' (List Json)
      (each binding index body items position outputs)
      (each binding index body' items position outputs) := by
  induction items generalizing position outputs with
  | nil => exact h.value _
  | cons item rest ih =>
      refine h.bind (h.inFrame (.plain _) ?_) fun output => ih _ _
      exact h.decision_bind fun _ bindings _ => h.bind (h.alter (.declare _)) fun _ =>
        h.bind (h.alter (.declare _)) fun _ => hb

theorem chosen {body body' : Option (Exec Json)}
    (hb : Option.Rel (R none ctx ctx' Json) body body') :
    R (some s) ctx ctx' Reached (chosen body) (chosen body') := by
  cases hb with
  | none => exact h.value _
  | some hx => exact h.map _ (h.inFrame (.plain _) (h.inside hx))

theorem chosenArm {arm arm' : Option (Exec Json × Option Control.Binding)}
    (hb : Option.Rel (fun x x' => R none ctx ctx' Json x.1 x'.1 ∧ x.2 = x'.2) arm arm') :
    R (some s) ctx ctx' Reached (chosenArm arm) (chosenArm arm') := by
  cases hb with
  | none => exact h.value _
  | @some x x' hx =>
      obtain ⟨body, binding⟩ := x
      obtain ⟨body', binding'⟩ := x'
      obtain ⟨hbody, rfl⟩ := hx
      exact h.map _ (h.inFrame (.frame _ _) (h.inside hbody))

theorem guarded {body body' : Exec Json} (hb : R (some s) ctx ctx' Json body body')
    (condition : Expr) : R (some s) ctx ctx' Reached (guarded condition body)
      (guarded condition body') := by
  refine h.decision_bind fun _ holds _ => ?_
  split
  · exact h.value _
  · exact h.bind hb fun _ => h.value _

set_option linter.unusedSectionVars false in
mutual

/-- A coherent relation holds between the programs of a step all of whose nodes fit. -/
theorem step : (s : Step) → (∀ n ∈ s.nodes, Fits n) → (ctx ctx' : Context) →
    R none ctx ctx' Reached (s.run ctx) (s.run ctx')
  | .mk id a retry timeout, fits, ctx, ctx' => by
      rw [Step.nodes] at fits
      have hs := fits _ List.mem_cons_self
      rw [Step.run, Step.run]
      exact h.node hs (h.deadline (h.acts hs) fun ctx ctx' =>
        action (.mk id a retry timeout) a rfl (h.acts hs)
          (fun n hn => fits n (List.mem_cons_of_mem _ hn)) ctx ctx')

/-- It holds between the programs of an action all of whose nodes fit. -/
theorem action : (s : Step) → (a : Action) → s.action = a → Acts s →
    (∀ n ∈ Step.actionNodes a, Fits n) → (ctx ctx' : Context) →
    R (some s) ctx ctx' Reached (a.run s.id ctx) (a.run s.id ctx')
  | s, .call route spec, hs, fit, _, ctx, ctx' => by
      rw [Action.run, Action.run]
      exact h.map _ (h.call fit hs)
  | s, .record op spec, hs, fit, _, ctx, ctx' => by
      rw [Action.run, Action.run]
      exact h.map _ (h.record fit hs)
  | s, .script e bind, _, _, _, ctx, ctx' => by
      rw [Action.run, Action.run]
      refine h.bind (h.decision _) fun value => ?_
      cases bind with
      | none => exact h.value _
      | some name => exact h.bind (h.alter (.assign name value)) fun _ => h.value _
  | s, .assign target e declare, _, _, _, ctx, ctx' => by
      rw [Action.run, Action.run]
      exact h.bind (h.decision _) fun value => h.bind (h.alter (.target _ _ _)) fun _ => h.value _
  | s, .conditional bs otherwise, _, _, fits, ctx, ctx' => by
      simp only [Step.actionNodes, List.forall_mem_append] at fits
      rw [Action.run, Action.run]
      exact h.decide (Control.selectBranch_alike (branches bs fits.1 ctx ctx')
        (option otherwise fits.2 ctx ctx')) fun _ _ _ _ hx => h.chosen hx
  | s, .choose subject as otherwise, _, _, fits, ctx, ctx' => by
      simp only [Step.actionNodes, List.forall_mem_append] at fits
      rw [Action.run, Action.run]
      exact h.bind (h.decision _) fun value => h.decide (fun _ => Control.selectArm_alike
        (arms as fits.1 ctx ctx') (option otherwise fits.2 ctx ctx')) fun _ _ _ _ hx => h.chosenArm hx
  | s, .guard condition body, _, _, fits, ctx, ctx' => by
      rw [Action.run, Action.run]
      exact h.guarded (h.inside (sequence body fits ctx ctx' .null)) condition
  | s, .repeatTimes count counter body, _, _, fits, ctx, ctx' => by
      rw [Action.run, Action.run]
      have hbody : R (some s) ctx ctx' Json _ _ := h.inside (sequence body fits ctx ctx' .null)
      exact h.bind (h.decision _) fun value => h.decision_bind fun _ n _ =>
        h.bind (h.times hbody counter n 1 []) fun _ => h.value _
  | s, .repeatForEach collection binding index body, _, _, fits, ctx, ctx' => by
      rw [Action.run, Action.run]
      have hbody : R (some s) ctx ctx' Json _ _ := h.inside (sequence body fits ctx ctx' .null)
      exact h.bind (h.decision _) fun value => h.decision_bind fun _ items _ =>
        h.bind (h.each hbody binding index items 0 []) fun _ => h.value _
  | s, .forEach collection binding body join collect, hs, fit, fits, ctx, ctx' => by
      rw [Action.run, Action.run]
      refine h.bind (h.decision _) fun value => h.decision_bind fun _ items _ => ?_
      rw [elementBranches_eq]
      refine h.fanOut fit (by rw [hs]; rfl) (fun scope parts hparts p hp => ?_)
        fun scope parts hparts p hp ctx ctx' => ?_
      · rw [body_of_elementParts hparts p hp]
        exact fun n hn => ⟨hs ▸ hn, fits n hn⟩
      · rw [body_of_elementParts hparts p hp]
        exact sequence body fits ctx ctx' .null
  | s, .parallel bodies join, hs, fit, fits, ctx, ctx' => by
      rw [Action.run, Action.run, parallelBranches_eq]
      refine h.fanOut fit (by rw [hs]; rfl) (fun scope parts hparts p hp => ?_)
        fun scope parts hparts p hp ctx ctx' => ?_
      · cases hparts
        obtain ⟨part, hpart, rfl⟩ := List.mem_map.mp hp
        refine fun n hn => ?_
        have hnode := Step.mem_parallelNodes hpart hn
        exact ⟨hs ▸ hnode, fits n hnode⟩
      · cases hparts
        obtain ⟨part, hpart, rfl⟩ := List.mem_map.mp hp
        exact parallel bodies fits part hpart ctx ctx'
  | s, .transaction body onError, hs, fit, fits, ctx, ctx' => by
      simp only [Step.actionNodes, List.forall_mem_append] at fits
      rw [Action.run, Action.run]
      exact h.transaction fit hs (sequence body fits.1 ctx ctx' .null)
        (option onError fits.2 ctx ctx')

/-- A coherent relation holds between the programs of a sequence all of whose nodes fit. -/
theorem sequence : (steps : List Step) → (∀ n ∈ Step.sequenceNodes steps, Fits n) →
    (ctx ctx' : Context) → (last : Json) →
    R none ctx ctx' Json (runSequence steps ctx last) (runSequence steps ctx' last)
  | [], _, ctx, ctx', last => by
      rw [runSequence, runSequence]
      exact h.value last
  | s :: rest, fits, ctx, ctx', last => by
      simp only [Step.sequenceNodes, List.forall_mem_append] at fits
      rw [runSequence, runSequence]
      refine h.bind (step s fits.1 ctx ctx') fun reached => ?_
      split
      · exact h.value _
      · exact sequence rest fits.2 ctx ctx' _

theorem option : (body : Option (List Step)) → (∀ n ∈ Step.optionNodes body, Fits n) →
    (ctx ctx' : Context) →
    Option.Rel (R none ctx ctx' Json) (optionProgram body ctx) (optionProgram body ctx')
  | none, _, ctx, ctx' => by
      rw [optionProgram, optionProgram]
      exact .none
  | some body, fits, ctx, ctx' => by
      rw [optionProgram, optionProgram]
      exact .some (sequence body fits ctx ctx' .null)

theorem branches : (bs : List (Expr × List Step)) → (∀ n ∈ Step.branchNodes bs, Fits n) →
    (ctx ctx' : Context) → List.Forall₂ (fun p p' => p.1 = p'.1 ∧ R none ctx ctx' Json p.2 p'.2)
      (branchPrograms bs ctx) (branchPrograms bs ctx')
  | [], _, ctx, ctx' => by
      rw [branchPrograms, branchPrograms]
      exact .nil
  | (condition, body) :: rest, fits, ctx, ctx' => by
      simp only [Step.branchNodes, List.forall_mem_append] at fits
      rw [branchPrograms, branchPrograms]
      exact .cons ⟨rfl, sequence body fits.1 ctx ctx' .null⟩ (branches rest fits.2 ctx ctx')

theorem arms : (as : List (Pattern × List Step)) → (∀ n ∈ Step.armNodes as, Fits n) →
    (ctx ctx' : Context) → List.Forall₂ (fun p p' => p.1 = p'.1 ∧ R none ctx ctx' Json p.2 p'.2)
      (armPrograms as ctx) (armPrograms as ctx')
  | [], _, ctx, ctx' => by
      rw [armPrograms, armPrograms]
      exact .nil
  | (pattern, body) :: rest, fits, ctx, ctx' => by
      simp only [Step.armNodes, List.forall_mem_append] at fits
      rw [armPrograms, armPrograms]
      exact .cons ⟨rfl, sequence body fits.1 ctx ctx' .null⟩ (arms rest fits.2 ctx ctx')

theorem parallel : (bodies : List (List Step × Option Expr)) →
    (∀ n ∈ Step.parallelNodes bodies, Fits n) → ∀ part ∈ bodies, ∀ ctx ctx',
    R none ctx ctx' Json (runSequence part.1 ctx .null) (runSequence part.1 ctx' .null)
  | [], _ => by
      rintro part ⟨⟩
  | (body, collect) :: rest, fits => by
      simp only [Step.parallelNodes, List.forall_mem_append] at fits
      rintro part (_ | ⟨_, hm⟩) ctx ctx'
      · exact sequence body fits.1 ctx ctx' .null
      · exact parallel rest fits.2 part hm ctx ctx'

end

end Coherent
end FlowEngine

/-!
## Compositional properties of steps

A property of programs that is closed under the ways in which steps are put
together holds of every step, whatever is nested in it. Each such property has to
look only at the few programs that perform effects: sending a request, running a
node in attempts, a deadline, a fan-out and a transaction.
-/
namespace FlowEngine

open Exec Execution

/-- A property of programs in a scope of cancellation that is closed under the
ways in which the programs of steps are put together. -/
structure Compositional (R : Context → (β : Type) → Exec β → Prop) : Prop where
  result {ctx : Context} {β : Type} (r : Except Failure β) : R ctx β (ofResult r)
  alter {ctx : Context} {g : Scope → Scope} : Scope.Update g → R ctx Unit (modify g)
  bind {ctx : Context} {β γ : Type} {x : Exec β} {f : β → Exec γ} :
    R ctx β x → (∀ a, R ctx γ (f a)) → R ctx γ (x >>= f)
  decide {ctx : Context} {β γ : Type} {d : Scope → Except Control.Fault β} {f : β → Exec γ} :
    (∀ s a, d s = .ok a → R ctx γ (f a)) → R ctx γ (decided d >>= f)
  inFrame {ctx : Context} {β : Type} {enter : Scope → Scope} {body : Exec β} :
    Scope.Entry enter → R ctx β body → R ctx β (inFrame enter body)
  send {ctx : Context} (id : String) (request : Request) : R ctx Outcome (send ctx id request)
  node {ctx : Context} {attempt : Exec Reached} (id kind : String) (retry : Option RetryPolicy) :
    R ctx Reached attempt → R ctx Reached (node ctx id kind retry attempt)
  deadline {ctx : Context} {attempt : Context → Exec Reached} (id : String)
    (limit : Option Millis) : (∀ ctx, R ctx Reached (attempt ctx)) →
      R ctx Reached (withDeadline ctx id limit attempt)
  fanOut {ctx : Context} {branches : Context → Scope → Except Control.Fault (List Branch)}
    (id : String) (policy : JoinPolicy) :
    (∀ ctx s bs, branches ctx s = .ok bs → ∀ b ∈ bs, ∃ scope body collect,
      b = .steps ctx scope body collect) → R ctx Reached (fanOut ctx id policy branches)
  transaction {ctx : Context} (body : List Step) (onError : Option (List Step)) (id : String) :
    R ctx Json (runSequence body ctx .null) → (∀ x ∈ optionProgram onError ctx, R ctx Json x) →
      R ctx Reached (transaction ctx id (runSequence body ctx .null) (optionProgram onError ctx))

theorem steps_of_branchesOf {plan : Scope → Except Control.Fault (List Part)} {ctx : Context}
    {s : Scope} {bs : List Branch} (h : branchesOf plan ctx s = .ok bs) :
    ∀ b ∈ bs, ∃ scope body collect, b = .steps ctx scope body collect := by
  unfold branchesOf at h
  cases hp : plan s with
  | error fault =>
      rw [hp] at h
      cases h
  | ok parts =>
      rw [hp] at h
      cases h
      intro b hb
      obtain ⟨p, -, rfl⟩ := List.mem_map.mp hb
      exact ⟨_, _, _, rfl⟩

namespace Compositional

variable {R : Context → (β : Type) → Exec β → Prop} (h : Compositional R)
include h

/-- A property is a relation that does not look at the second program. -/
theorem coherent : Coherent (fun _ => True) (fun _ => True) (fun _ => True)
    fun _ ctx _ β x _ => R ctx β x where
  acts fits := fits
  value a := h.result (.ok a)
  fails _ := h.result (.error _)
  alter hg := h.alter hg
  bind hx hf := h.bind hx hf
  decide hd hf := by
    refine h.decide fun scope a ha => ?_
    obtain ⟨a', hQ⟩ := (hd scope).exists_of_ok ha
    exact hf scope a a' ha hQ
  inFrame henter hb := h.inFrame henter hb
  send _ _ hf := h.bind (h.send _ _) fun outcome => hf outcome trivial
  node _ ha := h.node _ _ _ ha
  inside hb := hb
  deadline _ ha := h.deadline _ _ fun ctx => ha ctx ctx
  fanOut _ _ _ _ := h.fanOut _ _ fun _ _ _ hbs => steps_of_branchesOf hbs
  transaction _ _ hb ho := h.transaction _ _ _ hb (forall_of_rel ho)

theorem sequence (steps : List Step) (ctx : Context) (last : Json) :
    R ctx Json (runSequence steps ctx last) :=
  h.coherent.sequence steps (fun _ _ => trivial) ctx ctx last

theorem action (s : Step) (ctx : Context) : R ctx Reached (s.action.run s.id ctx) :=
  h.coherent.action s s.action rfl trivial (fun _ _ => trivial) ctx ctx

end Compositional
end FlowEngine
