import FlowEngine.Proofs.Execution.Coherent
import FlowEngine.Proofs.Execution.Flow
import FlowEngine.Proofs.Run.Joins
import Mathlib.Algebra.Ring.Nat

/-!
# How often a step is written down

A flow without loops and retries goes through each of its steps at most once. So the records that
its program writes, and those that the branches of its joins may still write, are no more than the
steps that are there. What one part of a program leaves of an allowance is there for the next.
-/
namespace FlowEngine

open Exec Execution

/-! ## Straight steps -/

/-- An action that goes through the steps inside it at most once. -/
def Action.Straight : Action → Prop
  | .repeatTimes _ _ _ | .repeatForEach _ _ _ _ | .forEach _ _ _ _ _ => False
  | _ => True

instance : DecidablePred Action.Straight
  | .repeatTimes .. | .repeatForEach .. | .forEach .. => isFalse id
  | .conditional .. | .choose .. | .transaction .. | .parallel .. | .guard .. | .call .. |
    .record .. | .script .. | .assign .. => isTrue trivial

/-- A step that is attempted once and goes through the steps inside it at most once. -/
def Step.Straight (s : Step) : Prop := Retry.maxAttempts s.retry = 1 ∧ s.action.Straight

instance (s : Step) : Decidable s.Straight := inferInstanceAs (Decidable (_ ∧ _))

def Step.occurrences (id : String) (nodes : List Step) : Nat := (nodes.map Step.id).count id

theorem Step.occurrences_append (id : String) (nodes more : List Step) :
    occurrences id (nodes ++ more) = occurrences id nodes + occurrences id more := by
  simp [occurrences]

namespace Branch

def Straight : Branch → Prop
  | steps _ _ body _ => ∀ n ∈ Step.sequenceNodes body, n.Straight
  | timed _ _ _ => True

def demand (id : String) : Branch → Nat
  | steps _ _ body _ => Step.occurrences id (Step.sequenceNodes body)
  | timed _ _ _ => 0

end Branch

/-! ## Allowances -/

namespace Effect

def demand (id : String) : Effect → Nat
  | .note _ (.record r) => if r.stepId = id then 1 else 0
  | .join _ _ _ bs => (bs.map (Branch.demand id)).sum
  | _ => 0

/-- An effect of a run of straight steps: it starts branches of such steps, and closes this run
only. -/
def Fair (run : Nat) : Effect → Prop
  | .join _ _ _ bs => ∀ b ∈ bs, b.Straight
  | .closeRun number _ _ => number = run
  | _ => True

def Closes : Effect → Prop
  | .closeRun _ _ _ => True
  | _ => False

def Plain : Effect → Prop
  | .note _ (.record _) | .join _ _ _ _ | .closeRun _ _ _ => False
  | _ => True

theorem Plain.demand {e : Effect} (h : e.Plain) (id : String) : e.demand id = 0 := by
  cases e with
  | note number entry =>
      cases entry with
      | record r => exact h.elim
      | _ => rfl
  | join => exact h.elim
  | _ => rfl

theorem Plain.fair {e : Effect} (h : e.Plain) (run : Nat) : e.Fair run := by
  cases e with
  | join => exact h.elim
  | closeRun => exact h.elim
  | _ => trivial

end Effect

variable {α β : Type} {id : String} {run n m : Nat}

namespace Program

def Within (id : String) (run : Nat) : Program α → Nat → Prop
  | pure _, _ => True
  | perform e next, n => e.demand id ≤ n ∧ e.Fair run ∧
    (¬ e.Closes → ∀ a, (next a).Within id run (n - e.demand id))

theorem Within.mono {p : Program α} (h : p.Within id run n) (hnm : n ≤ m) : p.Within id run m := by
  induction p generalizing n m with
  | pure a => trivial
  | perform e next ih =>
      exact ⟨Nat.le_trans h.1 hnm, h.2.1, fun hopen a =>
        ih a (h.2.2 hopen a) (Nat.sub_le_sub_right hnm _)⟩

theorem Within.bind {p : Program α} {f : α → Program β} (hp : p.Within id run n)
    (hf : ∀ a, (f a).Within id run m) : (p.bind f).Within id run (n + m) := by
  induction p generalizing n with
  | pure a => exact (hf a).mono (Nat.le_add_left _ _)
  | perform e next ih =>
      refine ⟨Nat.le_trans hp.1 (Nat.le_add_right _ _), hp.2.1, fun hopen a => ?_⟩
      have hrest := ih a (hp.2.2 hopen a)
      rwa [← Nat.sub_add_comm hp.1] at hrest

end Program

namespace Exec

def Within (id : String) (run : Nat) (x : Exec α) (n : Nat) : Prop :=
  ∀ s, (x.on s).Within id run n

namespace Within

theorem mono {x : Exec α} (h : x.Within id run n) (hnm : n ≤ m) : x.Within id run m :=
  fun s => (h s).mono hnm

theorem ofResult (r : Except Failure α) : (ofResult r).Within id run n := by
  intro s
  rw [on_ofResult]
  trivial

theorem pure (a : α) : (Pure.pure a : Exec α).Within id run n := ofResult (.ok a)

theorem throw (f : Failure) : (MonadExcept.throw f : Exec α).Within id run n := ofResult (.error f)

theorem alter (g : Scope → Scope) : (modify g : Exec Unit).Within id run n := fun _ => trivial

theorem bind {x : Exec α} {f : α → Exec β} (hx : x.Within id run n)
    (hf : ∀ a, (f a).Within id run m) : (x >>= f).Within id run (n + m) := by
  intro s
  rw [on_bind]
  refine (hx s).bind ?_
  rintro ⟨r, s'⟩
  cases r with
  | ok a => exact hf a s'
  | error f => trivial

/-- What needs no allowance of its own leaves it all to what comes after. -/
theorem before {x : Exec α} {f : α → Exec β} (hx : x.Within id run 0)
    (hf : ∀ a, (f a).Within id run n) : (x >>= f).Within id run n := by
  have h := hx.bind hf
  rwa [Nat.zero_add] at h

theorem map {x : Exec α} (g : α → β) (hx : x.Within id run n) : (g <$> x).Within id run n := by
  rw [map_eq_pure_bind]
  exact hx.bind (m := 0) fun a => pure (g a)

theorem decided_bind {d : Scope → Except Control.Fault α} {f : α → Exec β}
    (hf : ∀ s a, d s = .ok a → (f a).Within id run n) : (decided d >>= f).Within id run n := by
  intro s
  rw [on_bind, on_decided, Program.bind_pure_left]
  cases hd : d s with
  | error fault => trivial
  | ok a => exact hf s a hd s

theorem decided (d : Scope → Except Control.Fault α) : (decided d).Within id run n := by
  rw [← bind_pure (Exec.decided d)]
  exact decided_bind fun _ a _ => pure a

theorem outcome {x : Exec α} (hx : x.Within id run n) : x.outcome.Within id run n := by
  intro s
  rw [on_outcome]
  exact (hx s).bind (m := 0) fun _ => trivial

theorem inFrame {x : Exec α} (hx : x.Within id run n) (enter : Scope → Scope) :
    (inFrame enter x).Within id run n := by
  intro s
  rw [on_inFrame]
  exact (hx (enter s)).bind (m := 0) fun _ => trivial

theorem spend {e : Effect} {f : e.Answer → Exec α} (fair : e.Fair run)
    (hf : ∀ a, (f a).Within id run n) : (ask e >>= f).Within id run (e.demand id + n) := by
  intro s
  refine ⟨Nat.le_add_right _ _, fair, fun _ a => ?_⟩
  rw [Nat.add_sub_cancel_left]
  exact hf a s

theorem ask {e : Effect} {f : e.Answer → Exec α} (he : e.Plain)
    (hf : ∀ a, (f a).Within id run n) : (ask e >>= f).Within id run n := by
  have h := spend (he.fair run) hf
  rwa [he.demand, Nat.zero_add] at h

/-! ## Parts of steps -/

variable {ctx : Context}

theorem send (step : String) (request : Request) : (send ctx step request).Within id run n := by
  refine ask trivial fun (cancelled : Bool) => ?_
  cases cancelled with
  | true => exact throw _
  | false =>
      refine ask trivial fun answer => ?_
      cases answer with
      | ok outcome => exact pure outcome
      | error moment => exact throw _

theorem receive (bound : Option String) (capture : Bool) (outcome : Outcome) :
    (receive bound capture outcome).Within id run n := by
  unfold Execution.receive
  cases bound with
  | none =>
      cases capture with
      | true => exact (pure _).before pure
      | false => exact (ofResult _).before pure
  | some name =>
      cases capture with
      | true => exact (pure _).before fun value => (alter _).before fun _ => pure value
      | false => exact (ofResult _).before fun value => (alter _).before fun _ => pure value

theorem call (step : String) (route : Route) (spec : CallSpec) :
    (call ctx step route spec).Within id run n :=
  decided_bind fun _ _ _ => (send _ _).before fun outcome => receive _ _ outcome

theorem payloadOf (spec : RecordSpec) : (payloadOf spec).Within id run n := by
  unfold Execution.payloadOf
  split
  · exact decided _
  · exact throw _

theorem record (step : String) (op : RecordOp) (spec : RecordSpec) :
    (record ctx step op spec).Within id run n := by
  have sent (request : RecordRequest) : (do
      Execution.receive spec.bind spec.capture (← Execution.send ctx step (.record request)) :
        Exec Json).Within id run n := (send _ _).before fun outcome => receive _ _ outcome
  have loaded (g : Json → RecordRequest) : (do
      let request ← g <$> Execution.payloadOf spec
      Execution.receive spec.bind spec.capture (← Execution.send ctx step (.record request)) :
        Exec Json).Within id run n := ((payloadOf spec).map g).before sent
  have filtered (go : Json → Exec Json) (hgo : ∀ filter, (go filter).Within id run n) :
      (overFilter spec go).Within id run n := by
    unfold overFilter
    cases spec.filter with
    | some e => exact decided_bind fun _ filter _ => hgo filter
    | none => exact (pure _).before hgo
  unfold Execution.record
  cases op with
  | create => exact filtered _ fun _ => loaded _
  | update => exact filtered _ fun filter => loaded (.update spec.record filter)
  | delete => exact filtered _ fun filter => sent (.delete spec.record filter)
  | query => exact filtered _ fun filter => sent (.query spec.record filter)

theorem chosen {body : Option (Exec Json)} (hb : ∀ x ∈ body, x.Within id run n) :
    (chosen body).Within id run n := by
  cases body with
  | none => exact pure _
  | some x => exact ((hb x rfl).inFrame _).map _

theorem chosenArm {arm : Option (Exec Json × Option Control.Binding)}
    (hb : ∀ x ∈ arm, x.1.Within id run n) : (chosenArm arm).Within id run n := by
  cases arm with
  | none => exact pure _
  | some x => exact ((hb x rfl).inFrame _).map _

theorem guarded {body : Exec Json} (hb : body.Within id run n) (condition : Expr) :
    (guarded condition body).Within id run n := by
  refine decided_bind fun _ holds _ => ?_
  split
  · exact pure _
  · exact hb.bind (m := 0) fun _ => pure _

/-- A step that is attempted once is written down once, besides what is inside it. -/
theorem node {attempt : Exec Reached} {retry : Option RetryPolicy}
    (once : Retry.maxAttempts retry = 1) (ha : attempt.Within id run n) (step kind : String) :
    (node ctx step kind retry attempt).Within id run ((if step = id then 1 else 0) + n) := by
  have hattempts : (attempts ctx step retry attempt (Retry.maxAttempts retry - 1) 1).Within
      id run n := by
    rw [once]
    refine ha.outcome.bind (m := 0) fun r => ?_
    unfold afterAttempt
    cases r with
    | ok a => exact pure _
    | error f =>
        dsimp only
        split
        · exact pure _
        · exact pure _
        · rename_i h
          cases h
  refine ask trivial fun (cancelled : Bool) => ?_
  cases cancelled with
  | true =>
      have hskipped (f : Failure) : (do
          let _ : Unit ← Exec.ask (.note ctx.run (.record ⟨step, kind, .skipped, 0, some f⟩))
          MonadExcept.throw f : Exec Reached).Within id run ((if step = id then 1 else 0) + 0) :=
        spend trivial fun _ => throw f
      exact (hskipped _).mono (Nat.add_le_add_left (Nat.zero_le n) _)
  | false =>
      rw [Nat.add_comm]
      refine ask trivial fun _ => hattempts.bind fun p => ?_
      refine spend (n := 0) trivial fun _ => ask trivial fun _ => ?_
      cases p.2 with
      | ok reached => exact (alter _).before fun _ => pure _
      | error f => exact throw f

theorem withDeadline {attempt : Context → Exec Reached} (ha : ∀ ctx, (attempt ctx).Within id run n)
    (step : String) (limit : Option Millis) :
    (withDeadline ctx step limit attempt).Within id run n := by
  cases limit with
  | none => exact ha ctx
  | some limit =>
      refine ask trivial fun token => ask trivial fun deadline => ?_
      refine (ha _).outcome.bind (m := 0) fun r => ask trivial fun passed => ?_
      cases r with
      | ok a => exact pure a
      | error f =>
          refine ask trivial fun outer => ?_
          split
          · exact throw _
          · exact throw _

theorem boundary {handler : Exec Json} (hh : handler.Within id run n) (name : String)
    (f : Failure) : (boundary ctx name handler f).Within id run n := by
  unfold Execution.boundary
  split
  · exact ask trivial fun _ => (hh.inFrame _).outcome.bind (m := 0) fun _ => ofResult _
  · exact throw f

theorem settle : (settle ctx).Within id run n := ask trivial fun _ => pure _

theorem rollback (handle : String) : (rollback ctx handle).Within id run n := by
  refine ask trivial fun released => ?_
  cases released with
  | error e => exact pure _
  | ok _ => exact ask trivial fun restored => pure _

theorem undo {handler : Option (Exec Json)} (hh : ∀ x ∈ handler, x.Within id run n)
    (step handle : String) (f : Failure) : (undo ctx step handle handler f).Within id run n := by
  refine settle.before fun _ => (rollback handle).before fun undone => ?_
  cases undone with
  | error e => exact throw _
  | ok _ =>
      refine ask trivial fun _ => ?_
      cases handler with
      | none => exact throw _
      | some x =>
          exact (boundary (hh x rfl) step _).bind (m := 0) fun _ => ask trivial fun _ => pure _

theorem transaction {body : Exec Json} {handler : Option (Exec Json)} (hb : body.Within id run n)
    (hh : ∀ x ∈ handler, x.Within id run m) (step : String) :
    (transaction ctx step body handler).Within id run (n + m) := by
  refine settle.before fun _ => ask trivial fun begun => (ofResult _).before fun handle => ?_
  refine (hb.inFrame _).outcome.bind fun r => ?_
  cases r with
  | error f => exact undo hh step handle f
  | ok output =>
      refine before (ask trivial fun released => (ofResult _).before fun _ => ?_) fun _ => pure _
      exact ask trivial fun discarded => ofResult _

/-- The branches of a parallel step need what their steps need together. -/
theorem parallel {bodies : List (List Step × Option Expr)}
    (straight : ∀ s ∈ Step.parallelNodes bodies, s.Straight) (step : String) (policy : JoinPolicy) :
    (fanOut ctx step policy (parallelBranches bodies)).Within id run
      (Step.occurrences id (Step.parallelNodes bodies)) := by
  have hdemand (ctx : Context) (s : Scope) : ((bodies.map fun part =>
      Branch.steps ctx s part.1 part.2).map (Branch.demand id)).sum =
        Step.occurrences id (Step.parallelNodes bodies) := by
    clear straight
    induction bodies with
    | nil => rfl
    | cons head rest ih =>
        rw [List.map_cons, List.map_cons, List.sum_cons, ih, Step.parallelNodes,
          Step.occurrences_append]
        rfl
  refine ask trivial fun group => decided_bind fun s bs hbs => ?_
  cases hbs
  rw [← hdemand { ctx with token := group } (s.fork .loopIteration)]
  refine spend (n := 0) ?_ fun joined => (ofResult joined).before fun outcomes => ?_
  · intro b hb
    obtain ⟨part, hpart, rfl⟩ := List.mem_map.mp hb
    exact fun n hn => straight n (Step.mem_parallelNodes hpart hn)
  · refine ask trivial fun (cancelled : Bool) => ?_
    cases cancelled with
    | true => exact throw _
    | false => exact pure _

/-! ## Steps -/

theorem rel_of_forall {γ : Type} {Q : γ → Prop} {o : Option γ} (h : ∀ a ∈ o, Q a) :
    Option.Rel (fun a _ => Q a) o o := by
  cases o with
  | none => exact .none
  | some a => exact .some (h a rfl)

theorem conditional {bs : List (Expr × Exec Json)} {otherwise : Option (Exec Json)}
    (hb : ∀ b ∈ bs, b.2.Within id run n) (ho : ∀ x ∈ otherwise, x.Within id run n) :
    (do Execution.chosen (← Exec.decided (Control.selectBranch bs otherwise)) :
      Exec Reached).Within id run n := by
  refine decided_bind fun s body hbody => chosen ?_
  obtain ⟨body', hrel⟩ := (Control.selectBranch_alike (Q := fun x _ => x.Within id run n)
    (List.forall₂_same.mpr fun b h => ⟨rfl, hb b h⟩) (rel_of_forall ho) s).exists_of_ok hbody
  exact forall_of_rel hrel

theorem choose {as : List (Pattern × Exec Json)} {otherwise : Option (Exec Json)}
    (ha : ∀ a ∈ as, a.2.Within id run n) (ho : ∀ x ∈ otherwise, x.Within id run n) (subject : Json) :
    (do Execution.chosenArm (← Exec.decided fun _ => Control.selectArm subject as otherwise) :
      Exec Reached).Within id run n := by
  refine decided_bind fun s arm harm => chosenArm ?_
  obtain ⟨arm', hrel⟩ := (Control.selectArm_alike (Q := fun x _ => x.Within id run n)
    (List.forall₂_same.mpr fun a h => ⟨rfl, ha a h⟩)
    (rel_of_forall ho)).exists_of_ok harm
  cases hrel with
  | none => nofun
  | some hx =>
      rintro _ ⟨⟩
      exact hx.1

mutual

/-- A step and what is inside it are written down no more often than they are there. -/
theorem step : (s : Step) → (∀ n ∈ s.nodes, n.Straight) → (ctx : Context) →
    (s.run ctx).Within id run (Step.occurrences id s.nodes)
  | .mk name a retry timeout, straight, ctx => by
      rw [Step.nodes] at straight
      have hs := straight _ List.mem_cons_self
      have hcount : Step.occurrences id (Step.nodes (.mk name a retry timeout)) =
          (if name = id then 1 else 0) + Step.occurrences id (Step.actionNodes a) := by
        simp only [Step.occurrences, Step.nodes, List.map_cons, List.count_cons, Step.id, beq_iff_eq]
        exact Nat.add_comm _ _
      rw [hcount, Step.run]
      refine node hs.1 (withDeadline (fun ctx => ?_) name _) name a.kind
      exact action a hs.2 (fun n hn => straight n (List.mem_cons_of_mem _ hn)) name ctx

theorem action : (a : Action) → a.Straight → (∀ n ∈ Step.actionNodes a, n.Straight) →
    (name : String) → (ctx : Context) →
    (a.run name ctx).Within id run (Step.occurrences id (Step.actionNodes a))
  | .call route spec, _, _, name, ctx => by
      rw [Action.run]
      exact (call name route spec).map _
  | .record op spec, _, _, name, ctx => by
      rw [Action.run]
      exact (record name op spec).map _
  | .script e bind, _, _, name, ctx => by
      rw [Action.run]
      refine decided_bind fun _ value _ => ?_
      cases bind with
      | none => exact pure _
      | some name => exact (alter _).before fun _ => pure _
  | .assign target e declare, _, _, name, ctx => by
      rw [Action.run]
      exact decided_bind fun _ value _ => (alter _).before fun _ => pure _
  | .conditional bs otherwise, _, straight, name, ctx => by
      simp only [Step.actionNodes, List.forall_mem_append] at straight
      rw [Action.run, Step.actionNodes, Step.occurrences_append]
      exact conditional
        (fun b hb => (branches bs straight.1 ctx b hb).mono (Nat.le_add_right _ _))
        (fun x hx => (option otherwise straight.2 ctx x hx).mono (Nat.le_add_left _ _))
  | .choose subject as otherwise, _, straight, name, ctx => by
      simp only [Step.actionNodes, List.forall_mem_append] at straight
      rw [Action.run, Step.actionNodes, Step.occurrences_append]
      exact decided_bind fun _ value _ => choose
        (fun a ha => (arms as straight.1 ctx a ha).mono (Nat.le_add_right _ _))
        (fun x hx => (option otherwise straight.2 ctx x hx).mono (Nat.le_add_left _ _)) value
  | .guard condition body, _, straight, name, ctx => by
      rw [Action.run]
      exact guarded (sequence body straight ctx .null) condition
  | .repeatTimes _ _ _, single, _, _, _ => single.elim
  | .repeatForEach _ _ _ _, single, _, _, _ => single.elim
  | .forEach _ _ _ _ _, single, _, _, _ => single.elim
  | .parallel bodies join, _, straight, name, ctx => by
      rw [Action.run]
      exact parallel straight name join
  | .transaction body onError, _, straight, name, ctx => by
      simp only [Step.actionNodes, List.forall_mem_append] at straight
      rw [Action.run, Step.actionNodes, Step.occurrences_append]
      exact transaction (sequence body straight.1 ctx .null) (option onError straight.2 ctx) name

/-- The steps of a sequence are written down no more often than they are there. -/
theorem sequence : (steps : List Step) → (∀ n ∈ Step.sequenceNodes steps, n.Straight) →
    (ctx : Context) → (last : Json) →
    (runSequence steps ctx last).Within id run (Step.occurrences id (Step.sequenceNodes steps))
  | [], _, ctx, last => by
      rw [runSequence]
      exact pure last
  | s :: rest, straight, ctx, last => by
      simp only [Step.sequenceNodes, List.forall_mem_append] at straight
      rw [runSequence, Step.sequenceNodes, Step.occurrences_append]
      refine (step s straight.1 ctx).bind fun reached => ?_
      split
      · exact pure _
      · exact sequence rest straight.2 ctx _

theorem option : (body : Option (List Step)) → (∀ n ∈ Step.optionNodes body, n.Straight) →
    (ctx : Context) → ∀ x ∈ optionProgram body ctx,
    x.Within id run (Step.occurrences id (Step.optionNodes body))
  | none, _, ctx => by
      rw [optionProgram]
      rintro x ⟨⟩
  | some body, straight, ctx => by
      rw [optionProgram]
      rintro x ⟨⟩
      exact sequence body straight ctx .null

theorem branches : (bs : List (Expr × List Step)) → (∀ n ∈ Step.branchNodes bs, n.Straight) →
    (ctx : Context) → ∀ b ∈ branchPrograms bs ctx,
    b.2.Within id run (Step.occurrences id (Step.branchNodes bs))
  | [], _, ctx => by
      rw [branchPrograms]
      rintro b ⟨⟩
  | (condition, body) :: rest, straight, ctx => by
      simp only [Step.branchNodes, List.forall_mem_append] at straight
      rw [branchPrograms, Step.branchNodes, Step.occurrences_append]
      rintro b (_ | ⟨_, hb⟩)
      · exact (sequence body straight.1 ctx .null).mono (Nat.le_add_right _ _)
      · exact (branches rest straight.2 ctx b hb).mono (Nat.le_add_left _ _)

theorem arms : (as : List (Pattern × List Step)) → (∀ n ∈ Step.armNodes as, n.Straight) →
    (ctx : Context) → ∀ a ∈ armPrograms as ctx,
    a.2.Within id run (Step.occurrences id (Step.armNodes as))
  | [], _, ctx => by
      rw [armPrograms]
      rintro a ⟨⟩
  | (pattern, body) :: rest, straight, ctx => by
      simp only [Step.armNodes, List.forall_mem_append] at straight
      rw [armPrograms, Step.armNodes, Step.occurrences_append]
      rintro a (_ | ⟨_, ha⟩)
      · exact (sequence body straight.1 ctx .null).mono (Nat.le_add_right _ _)
      · exact (arms rest straight.2 ctx a ha).mono (Nat.le_add_left _ _)

end

end Within
end Exec

/-! ## Branches and runs -/

theorem Branch.within {b : Branch} (straight : b.Straight) :
    b.program.Within id run (b.demand id) := by
  cases b with
  | steps ctx scope body collect =>
      rw [Branch.program_steps]
      exact (Exec.Within.sequence body straight ctx .null scope).bind (m := 0) fun _ => trivial
  | timed observed delay result =>
      refine ⟨Nat.le_refl 0, trivial, fun _ (waited : Bool) => ?_⟩
      cases waited with
      | true => trivial
      | false => trivial

namespace Execution

variable {ctx : Context} {flow : Flow}

theorem settleAll_within (ctx : Context) : (settleAll ctx).Within id run 0 :=
  ⟨Nat.le_refl 0, trivial, fun _ _ => trivial⟩

theorem endAfter_within (straight : ∀ s ∈ Step.optionNodes flow.onError, s.Straight)
    (ctx : Context) (limit : Option UInt64) (timedOut : Bool) (f : Failure) (s : Scope) :
    (endAfter flow ctx limit timedOut f s).Within id run
      (Step.occurrences id (Step.optionNodes flow.onError)) := by
  rw [endAfter_eq]
  refine ⟨Nat.zero_le _, trivial, fun _ (cancelled : Bool) => ?_⟩
  dsimp only
  split
  · trivial
  · rw [handleFailure_eq]
    cases hhandler : flow.onError with
    | none => trivial
    | some handler =>
        rw [hhandler] at straight
        refine (Exec.Within.boundary (Exec.Within.sequence handler straight ctx .null) flow.name f s).bind
          (m := 0) ?_
        rintro ⟨r, s'⟩
        cases r with
        | ok handled => exact ⟨Nat.le_refl 0, trivial, fun _ _ => trivial⟩
        | error escaped => trivial

/-- The program of a run of straight steps writes a step down no more often than it is there; what
comes after the end of the run does not count. -/
theorem afterOpening_within {α : Type} (straight : ∀ s ∈ flow.nodes, s.Straight) (config : Config)
    (inputs : List (String × Json)) (opened : Nat × Token) (k : RunResult → Program α) :
    ((afterOpening config flow inputs opened).bind k).Within id opened.1
      (Step.occurrences id flow.nodes) := by
  have hstart : (startRunDeadline opened.2 config.runTimeout).Within id opened.1 0 := by
    unfold startRunDeadline
    split
    · trivial
    · exact ⟨Nat.le_refl 0, trivial, fun _ _ => trivial⟩
  have hstop (deadline : Option Nat) : (stopRunDeadline deadline).Within id opened.1 0 := by
    unfold stopRunDeadline
    split
    · trivial
    · exact ⟨Nat.le_refl 0, trivial, fun _ _ => trivial⟩
  have hended (ctx : Context) (timedOut : Bool) (s : Scope) (r : Except Failure Json) :
      (ended config flow ctx timedOut s r).Within id opened.1
        (Step.occurrences id (Step.optionNodes flow.onError)) := by
    cases r with
    | ok value => trivial
    | error f =>
        exact endAfter_within (fun s hs => straight s (List.mem_append_right _ hs)) _ _ _ f s
  have hsteps := @Exec.Within.sequence id opened.1 flow.steps
    (fun s hs => straight s (List.mem_append_left _ hs)) ⟨opened.1, opened.2, config.stepTimeout⟩ .null
    (Scope.ofBindings inputs)
  unfold afterOpening
  rw [Flow.nodes, Step.occurrences_append, Program.bind_assoc, ← Nat.zero_add (_ + _)]
  refine hstart.bind fun deadline => ?_
  rw [Program.bind_assoc]
  refine hsteps.bind ?_
  rintro ⟨r, s⟩
  simp only [conclude_eq_ended, Program.bind_assoc]
  rw [← Nat.zero_add (Step.occurrences _ _)]
  refine (settleAll_within _).bind fun _ => ?_
  rw [← Nat.zero_add (Step.occurrences _ _)]
  refine (hstop deadline).bind fun timedOut => ?_
  refine (hended _ timedOut s r).bind (m := 0) fun p => ⟨Nat.le_refl 0, trivial, fun _ _ => ?_⟩
  exact ⟨Nat.le_refl 0, rfl, fun hopen => absurd trivial hopen⟩

end Execution
end FlowEngine
