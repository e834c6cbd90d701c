import FlowEngine.Proofs.Execution.Flow
import FlowEngine.Proofs.Flow.Nodes
import FlowEngine.Proofs.Scope.Tidy

/-!
# Tidy programs

As long as it gets tidy answers, the program of a run hands over tidy values only: the inputs of its
requests, the scope chains and results of its branches, and its outputs. A step keeps the scope chain
tidy and ends with a tidy output.
-/
namespace FlowEngine

open Exec Execution

/-! ## Steps -/

/-- The expressions that belong to an action itself and not to a step inside of it. -/
def Action.expressions : Action → List Expr
  | .call _ spec => spec.inputs.map Prod.snd
  | .record _ spec => spec.payload.toList ++ spec.filter.toList
  | .script e _ => [e]
  | .assign _ e _ => [e]
  | .conditional branches _ => branches.map Prod.fst
  | .choose subject _ _ => [subject]
  | .guard condition _ => [condition]
  | .repeatTimes count _ _ => [count]
  | .repeatForEach collection _ _ _ => [collection]
  | .forEach collection _ _ _ collect => collection :: collect.toList
  | .parallel branches _ => branches.filterMap Prod.snd
  | .transaction _ _ => []

/-- The expressions of some steps are tidy. -/
def Step.TidyNodes (nodes : List Step) : Prop := ∀ n ∈ nodes, ∀ e ∈ n.action.expressions, e.Tidy

/-! ## Effects -/

def Outcome.Tidy (o : Outcome) : Prop := ∀ v, o = .ok v → v.Tidy

def BranchOutcome.Tidy (o : BranchOutcome) : Prop := ∀ v, o = .completed v → v.Tidy

def RecordRequest.Tidy : RecordRequest → Prop
  | create _ payload => payload.Tidy
  | update _ filter changes => filter.Tidy ∧ changes.Tidy
  | delete _ filter | query _ filter => filter.Tidy

def Request.Tidy : Request → Prop
  | call _ _ inputs => inputs.Tidy
  | record request => request.Tidy

def Branch.Tidy : Branch → Prop
  | steps _ scope body collect => scope.Tidy ∧ Step.TidyNodes (Step.sequenceNodes body) ∧
      ∀ e ∈ collect, e.Tidy
  | timed _ _ result => Ensures Json.Tidy result

namespace Effect

/-- What an effect hands over is tidy. -/
def Tidy : Effect → Prop
  | request _ _ r => r.Tidy
  | join _ _ _ branches => ∀ b ∈ branches, b.Tidy
  | closeRun _ _ outputs => Fields.Tidy outputs
  | _ => True

/-- What comes back is tidy. -/
def Brings : (e : Effect) → e.Answer → Prop
  | request _ _ _, answer => Ensures Outcome.Tidy answer
  | join _ _ _ _, answer => Ensures (∀ o ∈ ·, BranchOutcome.Tidy o) answer
  | closeRun _ _ _, result | awaitRun _, result => Fields.Tidy result.outputs
  | _, _ => True

end Effect

def tidiness : Protocol Unit where
  allows _ e := e.Tidy
  moves _ e answer _ := e.Brings answer

theorem BranchOutcome.tidy_envelope {o : BranchOutcome} (h : o.Tidy) : o.envelope.Tidy := by
  cases o with
  | completed value => exact Json.tidy_obj.mpr (.pair (by decide) (Json.tidy_bool true) (h value rfl))
  | failed f | cancelled f =>
      exact Json.tidy_obj.mpr (.pair (by decide) f.tidy_toJson (Json.tidy_bool false))

def Execution.Reached.Tidy (r : Reached) : Prop := r.output.Tidy

theorem Scope.Tidy.assignTo {s : Scope} (h : s.Tidy) (target : Target) (declare : Bool) {v : Json}
    (hv : v.Tidy) : (Execution.assignTo target declare v s).Tidy := by
  unfold Execution.assignTo
  split
  · exact h.setStateField _ hv
  · split
    · exact h.declareLocal _ hv
    · exact h.assign _ hv

/-! ## Programs -/

/-- In a tidy scope chain a program hands over tidy values only; it leaves the chain tidy, and its
result has a property. -/
def Builds {α : Type} (P : α → Prop) (x : Exec α) : Prop :=
  ∀ s, s.Tidy → (x.on s).Obeys tidiness (fun _ p => Ensures P p.1 ∧ p.2.Tidy) ()

namespace Builds

variable {α β : Type} {P : α → Prop} {Q : β → Prop} {ctx : Context} {id : String}

theorem value {a : α} (h : P a) : Builds P (pure a : Exec α) := fun _ hs => ⟨.ok h, hs⟩

theorem throw (f : Failure) : Builds P (throw f : Exec α) := fun _ hs => ⟨.error f, hs⟩

theorem bind {x : Exec α} {k : α → Exec β} (hx : Builds P x) (hk : ∀ a, P a → Builds Q (k a)) :
    Builds Q (x >>= k) := by
  intro s hs
  rw [on_bind, Program.obeys_bind]
  refine (hx s hs).mono ?_
  rintro - ⟨r, s'⟩ ⟨hr, hs'⟩
  cases r with
  | ok a => exact hk a (hr a rfl) s' hs'
  | error f => exact ⟨.error f, hs'⟩

theorem map {f : α → β} {x : Exec α} (hx : Builds P x) (hf : ∀ a, P a → Q (f a)) :
    Builds Q (f <$> x) := by
  rw [map_eq_pure_bind]
  exact hx.bind fun a ha => value (hf a ha)

theorem ask {e : Effect} {k : e.Answer → Exec α} (h : e.Tidy) (hk : ∀ a, e.Brings a → Builds P (k a)) :
    Builds P (Exec.ask e >>= k) := fun s hs => ⟨h, fun a _ ha => hk a ha s hs⟩

theorem result {r : Except Failure α} (h : Ensures P r) : Builds P (ofResult r) := by
  intro s hs
  rw [on_ofResult]
  exact ⟨h, hs⟩

theorem orFail (r : Except EngineError α) : Builds (fun _ => True) (orFail r) := result (.any _)

theorem decided {d : Scope → Except Control.Fault α} (h : ∀ s, s.Tidy → Ensures P (d s)) :
    Builds P (decided d) := by
  intro s hs
  rw [on_decided]
  exact ⟨(h s hs).mapError _, hs⟩

theorem evaluate {e : Expr} (h : e.Tidy) : Builds Json.Tidy (evaluate e) :=
  decided fun _ hs => Control.ensures_evaluate h hs

theorem alter {g : Scope → Scope} (h : ∀ s, s.Tidy → (g s).Tidy) :
    Builds (fun _ => True) (modify g : Exec Unit) := fun s hs => ⟨.any _, h s hs⟩

theorem outcome {x : Exec α} (h : Builds P x) : Builds (Ensures P) x.outcome := by
  intro s hs
  rw [on_outcome, Program.obeys_bind]
  exact (h s hs).mono fun _ p hp => ⟨.ok hp.1, hp.2⟩

theorem inFrame {x : Exec α} (h : Builds P x) {enter : Scope → Scope}
    (henter : ∀ s, s.Tidy → (enter s).Tidy) : Builds P (inFrame enter x) := by
  intro s hs
  rw [on_inFrame, Program.obeys_bind]
  exact (h _ (henter s hs)).mono fun _ p hp => ⟨hp.1, hp.2.leave⟩

/-! ## Requests -/

theorem send {request : Request} (h : request.Tidy) :
    Builds Outcome.Tidy (send ctx id request) := by
  refine ask trivial fun (cancelled : Bool) _ => ?_
  cases cancelled with
  | true => exact throw _
  | false =>
      refine ask h fun answer hanswer => ?_
      cases answer with
      | ok outcome => exact value (hanswer outcome rfl)
      | error moment => exact throw _

theorem receive {o : Outcome} (h : o.Tidy) (bind : Option String) (capture : Bool) :
    Builds Json.Tidy (receive bind capture o) := by
  have hresult : Ensures Json.Tidy o.toExcept := by
    cases o with
    | ok v => exact .ok (h v rfl)
    | failed kind message => exact .error _
  have hassigned (name : String) (v : Json) (hv : v.Tidy) : Builds Json.Tidy (do
      modify (Scope.assign name v)
      return v) :=
    (alter fun s hs => hs.assign name hv).bind fun _ _ => value hv
  unfold Execution.receive
  dsimp only
  cases bind with
  | none =>
      split
      · exact (value (o.tidy_envelope h)).bind fun v => value
      · exact (result hresult).bind fun v => value
  | some name =>
      split
      · exact (value (o.tidy_envelope h)).bind (hassigned name)
      · exact (result hresult).bind (hassigned name)

theorem call {route : Route} {spec : CallSpec} (h : ∀ f ∈ spec.inputs, f.2.Tidy) :
    Builds Json.Tidy (call ctx id route spec) := by
  have hinputs (s : Scope) (hs : s.Tidy) : Ensures Json.Tidy (inputsOf spec.inputs s) := by
    refine (Ensures.mapM (P := fun f => Json.Tidy (Prod.snd f)) fun f hf => ?_).bind fun fs hfs =>
      .ok (Json.tidy_object hfs)
    exact (Control.ensures_evaluate (h f hf) hs).bind fun v hv => .ok hv
  refine (decided hinputs).bind fun inputs hinputs => ?_
  have hrequest : (Request.call route spec.target inputs).Tidy := hinputs
  exact (send hrequest).bind fun o ho => receive ho spec.bind spec.capture

theorem record {op : RecordOp} {spec : RecordSpec} (hpayload : ∀ e ∈ spec.payload, e.Tidy)
    (hfilter : ∀ e ∈ spec.filter, e.Tidy) : Builds Json.Tidy (record ctx id op spec) := by
  have hgiven : Builds Json.Tidy (payloadOf spec) := by
    unfold payloadOf
    cases hspec : spec.payload with
    | none => exact throw _
    | some e => exact evaluate (hpayload e hspec)
  have hsent {r : Exec RecordRequest} (hr : Builds RecordRequest.Tidy r) : Builds Json.Tidy (do
      Execution.receive spec.bind spec.capture (← Execution.send ctx id (.record (← r)))) :=
    hr.bind fun request hrequest =>
      have hsend : (Request.record request).Tidy := hrequest
      (send hsend).bind fun o ho => receive ho spec.bind spec.capture
  unfold Execution.record
  dsimp only
  split
  case' h_1 e hspec => refine (evaluate (hfilter e hspec)).bind fun filter hf => ?_
  case' h_2 => refine (value (Json.tidy_obj.mpr .nil)).bind fun filter hf => ?_
  all_goals
    cases op with
    | create => exact hsent (hgiven.map fun v hv => hv)
    | update => exact hsent (hgiven.map fun v hv => ⟨hf, hv⟩)
    | delete => exact hsent (value hf)
    | query => exact hsent (value hf)

/-! ## Bodies -/

theorem inStepFrame {body : Exec Json} (hb : Builds Json.Tidy body) :
    Builds Reached.Tidy (inStepFrame body) :=
  (hb.inFrame fun _ hs => hs.push .step).map fun _ hv => hv

theorem chosen {body : Option (Exec Json)} (hb : ∀ x ∈ body, Builds Json.Tidy x) :
    Builds Reached.Tidy (chosen body) := by
  cases body with
  | none => exact value Json.tidy_null
  | some x => exact inStepFrame (hb x rfl)

theorem chosenArm {arm : Option (Exec Json × Option Control.Binding)}
    (ha : ∀ chosen ∈ arm, Builds Json.Tidy chosen.1 ∧ ∀ b ∈ chosen.2, Json.Tidy b.2) :
    Builds Reached.Tidy (chosenArm arm) := by
  cases arm with
  | none => exact value Json.tidy_null
  | some chosen =>
      obtain ⟨body, binding⟩ := chosen
      obtain ⟨hbody, hbinding⟩ := ha _ rfl
      refine (hbody.inFrame fun s hs => ?_).map fun _ hv => hv
      exact (hs.push .step).declareAll fun b hb => hbinding b (Option.mem_toList.mp hb)

theorem guarded {body : Exec Json} (hb : Builds Json.Tidy body) (condition : Expr) :
    Builds Reached.Tidy (guarded condition body) := by
  refine (decided (P := fun _ => True) fun _ _ => .any _).bind fun holds _ => ?_
  split
  · exact value (Json.tidy_bool true)
  · exact hb.bind fun _ _ => value (Json.tidy_bool false)

theorem times {body : Exec Json} (hb : Builds Json.Tidy body) (counter : Option String)
    (remaining number : Nat) {outputs : List Json} (ho : ∀ v ∈ outputs, v.Tidy) :
    Builds (∀ v ∈ ·, Json.Tidy v) (times counter body remaining number outputs) := by
  induction remaining generalizing number outputs with
  | zero => exact value fun v hv => ho v (List.mem_reverse.mp hv)
  | succ remaining ih =>
      refine (hb.inFrame fun s hs => (hs.push .loopIteration).declareAll fun b hb => ?_).bind
        fun output hv => ih (number + 1) (List.forall_mem_cons.mpr ⟨hv, ho⟩)
      obtain ⟨name, -, rfl⟩ := List.mem_map.mp hb
      exact Json.tidy_ofNat number

theorem each {body : Exec Json} (hb : Builds Json.Tidy body) (binding : LoopBinding)
    (index : Option String) {items : List Json} (hitems : ∀ v ∈ items, v.Tidy) (position : Nat)
    {outputs : List Json} (ho : ∀ v ∈ outputs, v.Tidy) :
    Builds (∀ v ∈ ·, Json.Tidy v) (each binding index body items position outputs) := by
  induction items generalizing position outputs with
  | nil => exact value fun v hv => ho v (List.mem_reverse.mp hv)
  | cons item rest ih =>
      obtain ⟨hitem, hrest⟩ := List.forall_mem_cons.mp hitems
      have hbindings := Control.ensures_loopBindings binding hitem
      have hindex : ∀ b ∈ index.toList.map fun name => (name, Json.ofNat position), b.2.Tidy := by
        intro b hb
        obtain ⟨name, -, rfl⟩ := List.mem_map.mp hb
        exact Json.tidy_ofNat position
      have hiteration := (decided fun _ _ => hbindings).bind fun bindings hbindings =>
        (alter fun s hs => hs.declareAll hbindings).bind fun _ _ =>
          (alter fun s hs => hs.declareAll hindex).bind fun _ _ => hb
      exact (hiteration.inFrame fun s hs => hs.push .loopIteration).bind fun output hv =>
        ih hrest (position + 1) (List.forall_mem_cons.mpr ⟨hv, ho⟩)

/-! ## Fan-outs -/

theorem fanOut {policy : JoinPolicy}
    {branches : Context → Scope → Except Control.Fault (List Branch)}
    (h : ∀ ctx s, s.Tidy → Ensures (∀ b ∈ ·, Branch.Tidy b) (branches ctx s)) :
    Builds Reached.Tidy (fanOut ctx id policy branches) := by
  refine ask trivial fun group _ => (decided (h _)).bind fun branches hbranches => ?_
  refine ask hbranches fun joined hjoined => (result hjoined).bind fun outcomes houtcomes => ?_
  refine ask trivial fun (cancelled : Bool) _ => ?_
  cases cancelled with
  | true => exact throw _
  | false =>
      refine value (Json.tidy_arr.mpr fun v hv => ?_)
      obtain ⟨o, ho, rfl⟩ := List.mem_map.mp hv
      exact BranchOutcome.tidy_envelope (houtcomes o ho)

theorem ensures_elementBranches {body : List Step} {collect : Option Expr} {items : List Json}
    (binding : LoopBinding) (hbody : Step.TidyNodes (Step.sequenceNodes body))
    (hcollect : ∀ e ∈ collect, e.Tidy) (hitems : ∀ v ∈ items, v.Tidy) (ctx : Context) (s : Scope)
    (hs : s.Tidy) : Ensures (∀ b ∈ ·, Branch.Tidy b)
      (elementBranches binding body collect items ctx s) :=
  Ensures.mapM fun item hitem =>
    (Control.ensures_loopBindings binding (hitems item hitem)).bind fun _ hbindings =>
      .ok ⟨(hs.push .loopIteration).declareAll hbindings, hbody, hcollect⟩

theorem ensures_parallelBranches {bodies : List (List Step × Option Expr)}
    (hbodies : Step.TidyNodes (Step.parallelNodes bodies))
    (hcollect : ∀ e ∈ bodies.filterMap Prod.snd, e.Tidy) (ctx : Context) (s : Scope) (hs : s.Tidy) :
    Ensures (∀ b ∈ ·, Branch.Tidy b) (parallelBranches bodies ctx s) := by
  refine .ok fun b hb => ?_
  obtain ⟨part, hpart, rfl⟩ := List.mem_map.mp hb
  refine ⟨hs.push .loopIteration, fun n hn => hbodies n (Step.mem_laneNodes.mpr
    ⟨_, List.mem_map_of_mem hpart, hn⟩), ?_⟩
  exact fun e he => hcollect e (List.mem_filterMap.mpr ⟨part, hpart, he⟩)

/-! ## Transactions -/

theorem boundary {handler : Exec Json} (hh : Builds Json.Tidy handler) (name : String) (f : Failure) :
    Builds (fun _ => True) (boundary ctx name handler f) := by
  unfold Execution.boundary
  split
  · refine ask trivial fun _ _ => (hh.inFrame fun s hs => ?_).outcome.bind fun r _ => result (.any _)
    exact (hs.push .step).declareLocal _ f.tidy_toJson
  · exact throw f

theorem settle : Builds (fun _ => True) (settle ctx) := ask trivial fun _ _ => value trivial

theorem commit (handle : String) : Builds (fun _ => True) (commit ctx handle) :=
  ask trivial fun _ _ => (orFail _).bind fun _ _ => ask trivial fun _ _ => orFail _

theorem rollback (handle : String) : Builds (fun _ => True) (rollback ctx handle) := by
  refine ask trivial fun released _ => ?_
  cases released with
  | error e => exact value trivial
  | ok _ => exact ask trivial fun _ _ => value trivial

theorem recover {handler : Option (Exec Json)} (hh : ∀ x ∈ handler, Builds Json.Tidy x)
    (f : Failure) : Builds Reached.Tidy (recover ctx id handler f) := by
  cases handler with
  | none => exact throw f
  | some x =>
      exact (boundary (hh x rfl) id f).bind fun _ _ => ask trivial fun _ _ => value Json.tidy_null

theorem undo {handler : Option (Exec Json)} (hh : ∀ x ∈ handler, Builds Json.Tidy x)
    (handle : String) (f : Failure) : Builds Reached.Tidy (undo ctx id handle handler f) := by
  refine settle.bind fun _ _ => (rollback handle).bind fun undone _ => ?_
  cases undone with
  | error e => exact throw _
  | ok _ => exact ask trivial fun _ _ => recover hh _

theorem transaction {body : Exec Json} {handler : Option (Exec Json)} (hb : Builds Json.Tidy body)
    (hh : ∀ x ∈ handler, Builds Json.Tidy x) :
    Builds Reached.Tidy (transaction ctx id body handler) := by
  refine settle.bind fun _ _ => ask trivial fun begun _ => (orFail _).bind fun handle _ => ?_
  refine (hb.inFrame fun s hs => hs.push .step).outcome.bind fun r hr => ?_
  cases r with
  | ok output => exact (commit handle).bind fun _ _ => value (hr output rfl)
  | error f => exact undo hh handle f

/-! ## Attempts -/

theorem withDeadline {attempt : Context → Exec α} (limit : Option Millis)
    (ha : ∀ ctx, Builds P (attempt ctx)) : Builds P (withDeadline ctx id limit attempt) := by
  cases limit with
  | none => exact ha ctx
  | some limit =>
      refine ask trivial fun token _ => ask trivial fun deadline _ => (ha _).outcome.bind fun r hr => ?_
      refine ask trivial fun (passed : Bool) _ => ?_
      cases r with
      | ok a => exact value (hr a rfl)
      | error f =>
          refine ask trivial fun (outer : Bool) _ => ?_
          split
          · exact throw _
          · exact throw f

theorem afterAttempt {policy : Option RetryPolicy} {r : Except Failure α}
    {again : Option (Exec (Nat × Except Failure α))} (hr : Ensures P r)
    (hagain : ∀ x ∈ again, Builds (fun p => Ensures P p.2) x) (number : Nat) :
    Builds (fun p => Ensures P p.2) (afterAttempt ctx id policy number again r) := by
  unfold Execution.afterAttempt
  cases r with
  | ok a => exact value hr
  | error f =>
      dsimp only
      split
      · exact value (.error _)
      · exact value (.error _)
      · refine ask trivial fun (waited : Bool) _ => ?_
        cases waited with
        | true => exact hagain _ rfl
        | false => exact value (.error _)

theorem attempts {policy : Option RetryPolicy} {attempt : Exec α} (ha : Builds P attempt)
    (further number : Nat) :
    Builds (fun p => Ensures P p.2) (attempts ctx id policy attempt further number) := by
  induction further generalizing number with
  | zero => exact ha.outcome.bind fun r hr => afterAttempt hr (by simp) number
  | succ further ih =>
      refine ha.outcome.bind fun r hr => afterAttempt hr ?_ number
      rintro x ⟨⟩
      exact ih (number + 1)

theorem node {kind : String} {retry : Option RetryPolicy} {attempt : Exec Reached}
    (ha : Builds Reached.Tidy attempt) : Builds Reached.Tidy (node ctx id kind retry attempt) := by
  refine ask trivial fun (cancelled : Bool) _ => ?_
  cases cancelled with
  | true => exact ask trivial fun _ _ => throw _
  | false =>
      refine ask trivial fun _ _ => (attempts ha _ 1).bind fun p hp => ?_
      obtain ⟨number, r⟩ := p
      refine ask trivial fun _ _ => ask trivial fun _ _ => ?_
      cases r with
      | error f => exact throw f
      | ok reached =>
          have hreached : reached.output.Tidy := hp reached rfl
          exact (alter fun s hs => hs.recordOutput id hreached).bind fun _ _ => value hreached

/-! ## Steps -/

mutual
theorem step : (s : Step) → Step.TidyNodes s.nodes → ∀ ctx, Builds Reached.Tidy (s.run ctx)
  | .mk id action retry timeout, h, ctx => by
      rw [Step.nodes] at h
      obtain ⟨hown, hinner⟩ := List.forall_mem_cons.mp h
      rw [Step.run]
      exact node (withDeadline _ fun ctx => Builds.action action hown hinner id ctx)

theorem action : (a : Action) → (∀ e ∈ a.expressions, e.Tidy) →
    Step.TidyNodes (Step.actionNodes a) → ∀ id ctx, Builds Reached.Tidy (a.run id ctx)
  | .call route spec, own, _, id, ctx => by
      rw [Action.run]
      exact (call fun f hf => own f.2 (List.mem_map_of_mem hf)).map fun _ hv => hv
  | .record op spec, own, _, id, ctx => by
      simp only [Action.expressions, List.forall_mem_append, Option.mem_toList] at own
      rw [Action.run]
      exact (record own.1 own.2).map fun _ hv => hv
  | .script e bind, own, _, id, ctx => by
      rw [Action.run]
      refine (evaluate (own e List.mem_cons_self)).bind fun v hv => ?_
      cases bind with
      | none => exact value hv
      | some name => exact (alter fun s hs => hs.assign name hv).bind fun _ _ => value hv
  | .assign target e declare, own, _, id, ctx => by
      rw [Action.run]
      refine (evaluate (own e List.mem_cons_self)).bind fun v hv => ?_
      exact (alter fun s hs => hs.assignTo _ declare hv).bind fun _ _ => value hv
  | .conditional bs otherwise, _, inner, id, ctx => by
      simp only [Step.actionNodes, Step.TidyNodes, List.forall_mem_append] at inner
      rw [Action.run]
      exact (decided fun s _ => Control.ensures_selectBranch (branches bs inner.1 ctx)
        (option otherwise inner.2 ctx) s).bind fun _ hx => chosen hx
  | .choose subject as otherwise, own, inner, id, ctx => by
      simp only [Step.actionNodes, Step.TidyNodes, List.forall_mem_append] at inner
      rw [Action.run]
      exact (evaluate (own subject List.mem_cons_self)).bind fun v hv =>
        (decided fun _ _ => Control.ensures_selectArm hv (arms as inner.1 ctx)
          (option otherwise inner.2 ctx)).bind fun _ hx => chosenArm hx
  | .guard condition body, _, inner, id, ctx => by
      rw [Action.run]
      exact guarded (sequence body inner ctx Json.tidy_null) condition
  | .repeatTimes count counter body, own, inner, id, ctx => by
      rw [Action.run]
      exact (evaluate (own count List.mem_cons_self)).bind fun v _ =>
        (decided (P := fun _ => True) fun _ _ => .any _).bind fun n _ =>
          (times (sequence body inner ctx Json.tidy_null) counter n 1 (List.forall_mem_nil _)).bind
            fun _ hvs => value (Json.tidy_arr.mpr hvs)
  | .repeatForEach collection binding index body, own, inner, id, ctx => by
      rw [Action.run]
      exact (evaluate (own collection List.mem_cons_self)).bind fun v hv =>
        (decided fun _ _ => Control.ensures_collectionItems hv).bind fun items hitems =>
          (each (sequence body inner ctx Json.tidy_null) binding index hitems 0
            (List.forall_mem_nil _)).bind fun _ hvs => value (Json.tidy_arr.mpr hvs)
  | .forEach collection binding body join collect, own, inner, id, ctx => by
      obtain ⟨hcollection, hcollect⟩ := List.forall_mem_cons.mp own
      rw [Action.run]
      exact (evaluate hcollection).bind fun v hv =>
        (decided fun _ _ => Control.ensures_collectionItems hv).bind fun items hitems =>
          fanOut (ensures_elementBranches binding inner
            (fun e he => hcollect e (Option.mem_toList.mpr he)) hitems)
  | .parallel bodies join, own, inner, id, ctx => by
      rw [Action.run]
      exact fanOut (ensures_parallelBranches inner own)
  | .transaction body onError, _, inner, id, ctx => by
      simp only [Step.actionNodes, Step.TidyNodes, List.forall_mem_append] at inner
      rw [Action.run]
      exact transaction (sequence body inner.1 ctx Json.tidy_null) (option onError inner.2 ctx)

theorem sequence : (body : List Step) → Step.TidyNodes (Step.sequenceNodes body) → ∀ ctx {last},
    last.Tidy → Builds Json.Tidy (runSequence body ctx last)
  | [], _, ctx, last, hlast => by
      rw [runSequence]
      exact value hlast
  | s :: rest, h, ctx, last, _ => by
      simp only [Step.sequenceNodes, Step.TidyNodes, List.forall_mem_append] at h
      rw [runSequence]
      refine (step s h.1 ctx).bind fun reached hreached => ?_
      split
      · exact value hreached
      · exact sequence rest h.2 ctx hreached

theorem option : (body : Option (List Step)) → Step.TidyNodes (Step.optionNodes body) → ∀ ctx,
    ∀ x ∈ optionProgram body ctx, Builds Json.Tidy x
  | none, _, ctx => by
      rw [optionProgram]
      exact fun x hx => absurd hx (Option.not_mem_none x)
  | some body, h, ctx => by
      rw [optionProgram]
      rintro _ ⟨⟩
      exact sequence body h ctx Json.tidy_null

theorem branches : (bs : List (Expr × List Step)) → Step.TidyNodes (Step.branchNodes bs) → ∀ ctx,
    ∀ b ∈ branchPrograms bs ctx, Builds Json.Tidy b.2
  | [], _, ctx => by
      rw [branchPrograms]
      exact List.forall_mem_nil _
  | (condition, body) :: rest, h, ctx => by
      simp only [Step.branchNodes, Step.TidyNodes, List.forall_mem_append] at h
      rw [branchPrograms]
      exact List.forall_mem_cons.mpr
        ⟨sequence body h.1 ctx Json.tidy_null, branches rest h.2 ctx⟩

theorem arms : (as : List (Pattern × List Step)) → Step.TidyNodes (Step.armNodes as) → ∀ ctx,
    ∀ a ∈ armPrograms as ctx, Builds Json.Tidy a.2
  | [], _, ctx => by
      rw [armPrograms]
      exact List.forall_mem_nil _
  | (pattern, body) :: rest, h, ctx => by
      simp only [Step.armNodes, Step.TidyNodes, List.forall_mem_append] at h
      rw [armPrograms]
      exact List.forall_mem_cons.mpr ⟨sequence body h.1 ctx Json.tidy_null, arms rest h.2 ctx⟩
end

end Builds

theorem Branch.Tidy.obeys {b : Branch} (h : b.Tidy) :
    b.program.Obeys tidiness (fun _ r => Ensures Json.Tidy r) () := by
  cases b with
  | timed observed delay result =>
      refine ⟨trivial, fun (waited : Bool) _ _ => ?_⟩
      cases waited with
      | true => exact h
      | false => exact .error _
  | steps ctx scope body collect =>
      obtain ⟨hscope, hbody, hcollect⟩ := h
      refine Program.obeys_bind.mpr ((Builds.sequence body hbody ctx Json.tidy_null scope hscope).mono ?_)
      rintro - ⟨r, s⟩ ⟨hr, hs⟩
      cases r with
      | error f => exact .error f
      | ok v =>
          cases collect with
          | none => exact hr
          | some e => exact (Control.ensures_evaluate (hcollect e rfl) hs).mapError _

/-! ## Flows -/

def Flow.Tidy (f : Flow) : Prop := Step.TidyNodes f.nodes

namespace Flow.Tidy

variable {flow : Flow} {ctx : Context} (h : flow.Tidy)
include h

theorem endAfter (limit : Option UInt64) (timedOut : Bool) (f : Failure) {s : Scope} (hs : s.Tidy) :
    (endAfter flow ctx limit timedOut f s).Obeys tidiness (fun _ p => p.2.Tidy) () := by
  rw [endAfter_eq]
  refine ⟨trivial, fun (cancelled : Bool) _ _ => ?_⟩
  dsimp only
  split
  · exact hs
  · rw [handleFailure_eq]
    cases hhandler : flow.onError with
    | none => exact hs
    | some handler =>
        have hnodes : Step.TidyNodes (Step.sequenceNodes handler) := fun n hn =>
          h n (List.mem_append_right _ (by rwa [hhandler]))
        have hboundary : Builds (fun _ => True)
            (boundary ctx flow.name (runSequence handler ctx .null) f) :=
          .boundary (.sequence handler hnodes ctx Json.tidy_null) flow.name f
        refine Program.obeys_bind.mpr ((hboundary s hs).mono ?_)
        rintro - ⟨r, s'⟩ ⟨-, hs'⟩
        cases r with
        | ok handled => exact ⟨trivial, fun _ _ _ => hs'⟩
        | error escaped => exact hs'

theorem run (config : Config) {inputs : List (String × Json)} (hinputs : ∀ f ∈ inputs, f.2.Tidy)
    (parent : Token) : (run config flow inputs parent).Obeys tidiness
      (fun _ r => Fields.Tidy r.outputs) () := by
  rw [run_eq]
  refine ⟨trivial, fun opened _ _ => ?_⟩
  have hstart : (startRunDeadline opened.2 config.runTimeout).Obeys tidiness (fun _ _ => True) () := by
    unfold startRunDeadline
    split
    · trivial
    · exact ⟨trivial, fun _ _ _ => trivial⟩
  have hstop (deadline : Option Nat) :
      (stopRunDeadline deadline).Obeys tidiness (fun _ _ => True) () := by
    unfold stopRunDeadline
    split
    · trivial
    · exact ⟨trivial, fun _ _ _ => trivial⟩
  have hsettle (ctx : Context) : (settleAll ctx).Obeys tidiness (fun _ _ => True) () :=
    ⟨trivial, fun _ _ _ => trivial⟩
  have hsteps := Builds.sequence flow.steps (fun n hn => h n (List.mem_append_left _ hn))
    ⟨opened.1, opened.2, config.stepTimeout⟩ Json.tidy_null _ (Scope.tidy_ofBindings hinputs)
  refine Program.obeys_bind.mpr (hstart.mono fun _ deadline _ => ?_)
  refine Program.obeys_bind.mpr (hsteps.mono ?_)
  rintro - ⟨r, s⟩ ⟨-, hs⟩
  have hended (timedOut : Bool) : (ended config flow ⟨opened.1, opened.2, config.stepTimeout⟩
      timedOut s r).Obeys tidiness (fun _ p => p.2.Tidy) () := by
    cases r with
    | ok v => exact hs
    | error f => exact h.endAfter _ _ _ hs
  rw [conclude_eq_ended]
  refine Program.obeys_bind.mpr ((hsettle _).mono fun _ _ _ => ?_)
  refine Program.obeys_bind.mpr ((hstop deadline).mono fun _ timedOut _ => ?_)
  refine Program.obeys_bind.mpr ((hended timedOut).mono fun _ p hp => ?_)
  refine Program.obeys_bind.mpr ((hsettle _).mono fun _ _ _ => ?_)
  exact ⟨hp.flow, fun _ _ hresult => hresult⟩

theorem submitted (config : Config) {inputs : List (String × Json)}
    (hinputs : ∀ f ∈ inputs, f.2.Tidy) (parent : Token) :
    (submitted config flow inputs parent).Obeys tidiness (fun _ r => Fields.Tidy r.outputs) () := by
  rw [submitted_eq]
  refine ⟨trivial, fun _ _ _ => Program.obeys_bind.mpr ?_⟩
  exact (h.run config hinputs parent).mono fun _ _ hr => ⟨trivial, fun _ _ _ => hr⟩

end Flow.Tidy
end FlowEngine
