import FlowEngine.Proofs.Execution.Coherent
import FlowEngine.Proofs.Execution.Watching
import FlowEngine.Proofs.Flow.Checks
import FlowEngine.Proofs.Flow.Nodes
import FlowEngine.Proofs.Program.History

/-!
# Watched programs go the way of the others

A watched program performs the effects of the program that it watches and comes to the same results
and scope chains. What holds before a run and is kept by every change of the scope chain that its steps
may make holds after it, too.
-/
namespace FlowEngine

open Exec Execution

theorem map_fst_armWatches (arms : List (Pattern × List Step)) (ctx : Context) :
    (armWatches arms ctx).map Prod.fst = arms.map Prod.fst := by
  induction arms with
  | nil =>
      rw [armWatches]
      rfl
  | cons arm rest ih => rw [armWatches, List.map_cons, List.map_cons, ih]

theorem mem_boundNames_of_selectArm {v : Json} {arms : List (Pattern × List Step)} {ctx : Context}
    {otherwise : Option (Watch Json)} {body : Watch Json} {b : Control.Binding}
    (h : Control.selectArm v (armWatches arms ctx) otherwise = .ok (some (body, some b)))
    (subject : Expr) (other : Option (List Step)) :
    b.1 ∈ (Action.choose subject arms other).boundNames := by
  obtain ⟨pattern, hpattern, hname⟩ := Control.exists_pattern_of_selectArm h
  rw [map_fst_armWatches] at hpattern
  obtain ⟨⟨_, steps⟩, harm, rfl⟩ := List.mem_map.mp hpattern
  refine List.mem_filterMap.mpr ⟨_, harm, ?_⟩
  obtain rfl | rfl := hname
  · rfl
  · rfl

/-- The branches of a loop have the names of the loop bound in a copy of the scope chain. -/
theorem exists_of_elementBranches {binding : LoopBinding} {body : List Step} {collect : Option Expr}
    {items : List Json} {ctx : Context} {s : Scope} {bs : List Branch}
    (h : elementBranches binding body collect items ctx s = .ok bs) : ∀ b ∈ bs, ∃ item bound,
      Control.loopBindings binding item = .ok bound ∧
        b = .steps ctx (Control.declareAll bound (s.fork .loopIteration)) body collect := by
  unfold elementBranches at h
  induction items generalizing bs with
  | nil =>
      cases h
      exact fun b hb => nomatch hb
  | cons item rest ih =>
      rw [List.mapM_cons] at h
      obtain ⟨b, hb, h⟩ := Flow.bind_eq_ok_iff.mp h
      obtain ⟨more, hmore, h⟩ := Flow.bind_eq_ok_iff.mp h
      obtain ⟨bound, hbound, hb⟩ := Flow.bind_eq_ok_iff.mp hb
      cases hb
      cases h
      exact List.forall_mem_cons.mpr ⟨⟨item, bound, hbound, rfl⟩, ih hmore⟩

def Step.Binds (Free : String → Prop) (n : Step) : Prop := ∀ name ∈ n.action.boundNames, Free name

/-- A branch has a body that binds free names only, and a scope chain that came from the one that it was
made in. -/
def Branch.Stems (Free : String → Prop) (Turns : Scope → Scope → Prop) (s : Scope) (b : Branch) : Prop :=
  ∃ ctx s' body collect, b = .steps ctx s' body collect ∧ Turns s s' ∧
    ∀ n ∈ Step.sequenceNodes body, n.Binds Free

/-- Which names are free to be bound, how scope chains may change when only those are bound, and what is
kept at the ends of lines by such changes. -/
structure Upkeep (Free : String → Prop) (Turns : Scope → Scope → Prop) (Kept : Watched → Prop) :
    Prop where
  refl (s : Scope) : Turns s s
  trans {s s' s'' : Scope} : Turns s s' → Turns s' s'' → Turns s s''
  assign {name : String} (v : Json) (s : Scope) : Free name → Turns s (s.assign name v)
  declare {name : String} (v : Json) (s : Scope) : Free name → Turns s (s.declareLocal name v)
  field (name : String) (v : Json) (s : Scope) : Turns s (s.setStateField name v)
  push (kind : ScopeKind) (s : Scope) : Turns s (s.push kind)
  leave (s : Scope) : Turns s s.leave
  error : Free Boundary.errorName
  turn {u : Watched} {s : Scope} : Kept u → Turns u.scope s → Kept (u.turn s)
  complete {u : Watched} (id : String) (output : Json) : Kept u → Kept (u.complete id output)
  fork {u : Watched} {bs : List Branch} : Kept u → (∀ b ∈ bs, b.Stems Free Turns u.scope) →
    Kept (u.fork bs)

theorem Upkeep.trivial : Upkeep (fun _ => True) (fun _ _ => True) fun _ => True := by
  constructor <;> intros <;> exact True.intro

namespace Exec

variable {α β : Type} {Turns : Scope → Scope → Prop}

def Turning (Turns : Scope → Scope → Prop) (x : Exec α) : Prop :=
  ∀ s, (x.on s).Ends fun p => Turns s p.2

end Exec

namespace Watch

variable {α β : Type}

theorem on_bind (w : Watch α) (f : α → Watch β) (u : Watched) :
    (w >>= f).on u = (w.on u).bind fun
      | (.ok a, u) => (f a).on u
      | (.error e, u) => .pure (.error e, u) := by
  change (w.on u).bind _ = _
  congr 1
  funext ⟨r, u'⟩
  cases r <;> rfl

theorem on_outcome (w : Watch α) (u : Watched) :
    w.outcome.on u = (w.on u).bind fun p => .pure (.ok p.1, p.2) := rfl

/-- At the end of every line that is kept, the watched program goes the way of the other one and comes
to a line that is kept. -/
def Tracks (Kept : Watched → Prop) (w : Watch α) (x : Exec α) : Prop := ∀ u, Kept u →
  Program.Lockstep (fun p q => p.1 = q.1 ∧ p.2.scope = q.2 ∧ Kept p.2) (w.on u) (x.on u.scope)

variable {Kept : Watched → Prop}

namespace Tracks

theorem pure (a : α) : Tracks Kept (Pure.pure a) (Pure.pure a) := fun _ hu => .pure ⟨rfl, rfl, hu⟩

theorem throw (f : Failure) : Tracks (α := α) Kept (MonadExcept.throw f) (MonadExcept.throw f) :=
  fun _ hu => .pure ⟨rfl, rfl, hu⟩

theorem bind {w : Watch α} {x : Exec α} {f : α → Watch β} {g : α → Exec β} (h : Tracks Kept w x)
    (hf : ∀ a, Tracks Kept (f a) (g a)) : Tracks Kept (w >>= f) (x >>= g) := by
  intro u hu
  rw [on_bind, Exec.on_bind]
  refine (h u hu).bind ?_
  rintro ⟨r, u'⟩ ⟨r', s'⟩ ⟨rfl, rfl, hu'⟩
  cases r with
  | ok a => exact hf a u' hu'
  | error f => exact .pure ⟨rfl, rfl, hu'⟩

theorem map {w : Watch α} {x : Exec α} (g : α → β) (h : Tracks Kept w x) :
    Tracks Kept (g <$> w) (g <$> x) := by
  rw [map_eq_pure_bind, map_eq_pure_bind]
  exact h.bind fun a => .pure (g a)

theorem outcome {w : Watch α} {x : Exec α} (h : Tracks Kept w x) :
    Tracks Kept w.outcome x.outcome := by
  intro u hu
  rw [on_outcome, Exec.on_outcome]
  refine (h u hu).bind ?_
  rintro ⟨r, u'⟩ ⟨r', s'⟩ ⟨rfl, rfl, hu'⟩
  exact .pure ⟨rfl, rfl, hu'⟩

end Tracks

end Watch

namespace Upkeep

open Watch

variable {Free : String → Prop} {Turns : Scope → Scope → Prop} {Kept : Watched → Prop}
  (h : Upkeep Free Turns Kept) {α β : Type} {ctx : Context}
include h

/-! ## Programs without bodies -/

theorem ofResult (r : Except Failure α) : (ofResult r).Turning Turns := by
  intro s
  rw [on_ofResult]
  exact h.refl s

theorem ask (e : Effect) : (ask e).Turning Turns := fun s _ => h.refl s

theorem decided (d : Scope → Except Control.Fault α) : (decided d).Turning Turns := by
  intro s
  rw [on_decided]
  exact h.refl s

theorem bind {x : Exec α} {f : α → Exec β} (hx : x.Turning Turns)
    (hf : ∀ a, (f a).Turning Turns) : (x >>= f).Turning Turns := by
  intro s
  rw [Exec.on_bind]
  refine (hx s).bind ?_
  rintro ⟨r, s'⟩ hs
  cases r with
  | error e => exact hs
  | ok a => exact (hf a s').mono fun p hp => h.trans hs hp

theorem map (g : α → β) {x : Exec α} (hx : x.Turning Turns) : (g <$> x).Turning Turns := by
  rw [map_eq_pure_bind]
  exact h.bind hx fun a => h.ofResult (.ok (g a))

theorem settle : (settle ctx).Turning Turns := h.bind (h.ask _) fun _ => h.ofResult (.ok ())

theorem commit (handle : String) : (commit ctx handle).Turning Turns :=
  h.bind (h.ask _) fun _ => h.bind (h.ofResult _) fun _ => h.bind (h.ask _) fun _ => h.ofResult _

theorem rollback (handle : String) : (rollback ctx handle).Turning Turns := by
  refine h.bind (h.ask _) fun released => ?_
  cases released with
  | error e => exact h.ofResult (.ok _)
  | ok _ => exact h.bind (h.ask _) fun _ => h.ofResult (.ok _)

theorem send (id : String) (request : Request) : (send ctx id request).Turning Turns := by
  refine h.bind (h.ask _) fun (cancelled : Bool) => ?_
  cases cancelled with
  | true => exact h.ofResult (.error _)
  | false =>
      refine h.bind (h.ask _) fun answer => ?_
      cases answer with
      | ok outcome => exact h.ofResult (.ok outcome)
      | error moment => exact h.ofResult (.error _)

theorem receive {name : Option String} (hname : ∀ n ∈ name, Free n) (capture : Bool)
    (outcome : Outcome) : (receive name capture outcome).Turning Turns := by
  unfold Execution.receive
  cases name with
  | none =>
      cases capture with
      | true => exact h.bind (h.ofResult (.ok _)) fun v => h.ofResult (.ok v)
      | false => exact h.bind (h.ofResult _) fun v => h.ofResult (.ok v)
  | some name =>
      have hbound (v : Json) :
          (modify (Scope.assign name v) >>= fun _ => pure v : Exec Json).Turning Turns :=
        h.bind (fun s => h.assign v s (hname name rfl)) fun _ => h.ofResult (.ok v)
      cases capture with
      | true => exact h.bind (h.ofResult (.ok _)) hbound
      | false => exact h.bind (h.ofResult _) hbound

theorem call (id : String) (route : Route) {spec : CallSpec} (hname : ∀ n ∈ spec.bind, Free n) :
    (call ctx id route spec).Turning Turns :=
  h.bind (h.decided _) fun _ => h.bind (h.send _ _) fun _ => h.receive hname _ _

theorem record (id : String) (op : RecordOp) {spec : RecordSpec}
    (hname : ∀ n ∈ spec.bind, Free n) : (record ctx id op spec).Turning Turns := by
  have sent (request : RecordRequest) : (do
      Execution.receive spec.bind spec.capture (← Execution.send ctx id (.record request)) :
        Exec Json).Turning Turns := h.bind (h.send _ _) fun _ => h.receive hname _ _
  have loaded (g : Json → RecordRequest) : (do
      let request ← g <$> Execution.payloadOf spec
      Execution.receive spec.bind spec.capture (← Execution.send ctx id (.record request)) :
        Exec Json).Turning Turns := by
    refine h.bind (h.map g ?_) sent
    unfold payloadOf
    split
    · exact h.decided _
    · exact h.ofResult (.error _)
  have filtered (go : Json → Exec Json) (hgo : ∀ filter, (go filter).Turning Turns) :
      (overFilter spec go).Turning Turns := by
    unfold overFilter
    cases spec.filter with
    | some e => exact h.bind (h.decided _) hgo
    | none => exact h.bind (h.ofResult (.ok _)) hgo
  unfold Execution.record
  cases op with
  | create => exact filtered _ fun _ => loaded _
  | update => exact filtered _ fun filter => loaded (.update spec.record filter)
  | delete => exact filtered _ fun filter => sent (.delete spec.record filter)
  | query => exact filtered _ fun filter => sent (.query spec.record filter)

theorem script (e : Expr) {name : Option String} (hname : ∀ n ∈ name, Free n) (id : String) :
    ((Action.script e name).run id ctx).Turning Turns := by
  rw [Action.run]
  cases name with
  | none => exact h.bind (h.decided _) fun v => h.ofResult (.ok _)
  | some name =>
      exact h.bind (h.decided _) fun v => h.bind (fun s => h.assign v s (hname name rfl)) fun _ =>
        h.ofResult (.ok _)

theorem assignTo {text : String} {e : Expr} {declare : Bool}
    (hname : ∀ n ∈ (Action.assign text e declare).boundNames, Free n) (v : Json) (s : Scope) :
    Turns s (assignTo (.ofText text) declare v s) := by
  cases htarget : Target.ofText text with
  | field name => exact h.field name v s
  | binding name =>
      have hfree : Free name := hname name (by simp [Action.boundNames, htarget])
      cases declare with
      | true => exact h.declare v s hfree
      | false => exact h.assign v s hfree

theorem assignment {text : String} {e : Expr} {declare : Bool}
    (hname : ∀ n ∈ (Action.assign text e declare).boundNames, Free n) (id : String) :
    ((Action.assign text e declare).run id ctx).Turning Turns := by
  rw [Action.run]
  exact h.bind (h.decided _) fun v => h.bind (fun s => h.assignTo hname v s) fun _ => h.ofResult (.ok _)

/-! ## Programs with bodies -/

theorem lift {x : Exec α} (hx : x.Turning Turns) : Tracks Kept (.lift x) x := fun u hu =>
  .of_ends (hx u.scope) fun _ hp => ⟨rfl, rfl, h.turn hu hp⟩

theorem lift_ask (e : Effect) : Tracks Kept (.lift (Exec.ask e)) (Exec.ask e) := h.lift (h.ask e)

theorem declareAll {bindings : List Control.Binding} (hnames : ∀ b ∈ bindings, Free b.1) (s : Scope) :
    Turns s (Control.declareAll bindings s) := by
  induction bindings generalizing s with
  | nil => exact h.refl s
  | cons b rest ih =>
      obtain ⟨hb, hrest⟩ := List.forall_mem_cons.mp hnames
      exact h.trans (h.declare b.2 s hb) (ih hrest _)

theorem enter (kind : ScopeKind) {bindings : List Control.Binding}
    (hnames : ∀ b ∈ bindings, Free b.1) (s : Scope) :
    Turns s ((Control.declareAll bindings ∘ Scope.push kind) s) :=
  h.trans (h.push kind s) (h.declareAll hnames _)

theorem inFrame {w : Watch α} {x : Exec α} (hw : Tracks Kept w x) {enter : Scope → Scope}
    (henter : ∀ s, Turns s (enter s)) : Tracks Kept (.inFrame enter w) (inFrame enter x) :=
  (h.lift (x := modify enter) henter).bind fun _ => hw.outcome.bind fun r =>
    (h.lift (x := modify Scope.leave) h.leave).bind fun _ => h.lift (h.ofResult r)

theorem decide {γ γ' : Type} {Q : γ → γ' → Prop} {d : Scope → Except Control.Fault γ}
    {d' : Scope → Except Control.Fault γ'} {f : γ → Watch α} {g : γ' → Exec α}
    (hd : ∀ s, Control.Alike Q (d s) (d' s))
    (hf : ∀ s a a', d s = .ok a → Q a a' → Tracks Kept (f a) (g a')) :
    Tracks Kept (.lift (Exec.decided d) >>= f) (Exec.decided d' >>= g) := by
  intro u hu
  rw [Watch.on_bind, Exec.on_bind, Watch.on, Watch.lift, on_decided, on_decided]
  have hd := hd u.scope
  generalize hr : d u.scope = r at hd
  generalize d' u.scope = r' at hd
  have hturn := h.turn hu (h.refl u.scope)
  cases hd with
  | ok related => exact hf u.scope _ _ hr related _ hturn
  | error fault => exact .pure ⟨rfl, rfl, hturn⟩

theorem decided_bind {d : Scope → Except Control.Fault β} {f : β → Watch α} {g : β → Exec α}
    (hf : ∀ s b, d s = .ok b → Tracks Kept (f b) (g b)) :
    Tracks Kept (.lift (Exec.decided d) >>= f) (Exec.decided d >>= g) := by
  refine h.decide (fun s => .refl (d s)) ?_
  rintro s b _ hb rfl
  exact hf s b hb

theorem ask_bind {e : Effect} {f : e.Answer → Watch α} {g : e.Answer → Exec α}
    (hf : ∀ a, Tracks Kept (f a) (g a)) :
    Tracks Kept (.lift (Exec.ask e) >>= f) (Exec.ask e >>= g) := (h.lift_ask e).bind hf

theorem withDeadline {w : Context → Watch α} {x : Context → Exec α}
    (hw : ∀ ctx, Tracks Kept (w ctx) (x ctx)) (id : String) (limit : Option Millis) :
    Tracks Kept (.withDeadline ctx id limit w) (withDeadline ctx id limit x) := by
  cases limit with
  | none => exact hw ctx
  | some limit =>
      refine h.ask_bind fun token => h.ask_bind fun deadline => (hw _).outcome.bind fun r =>
        h.ask_bind fun passed => ?_
      cases r with
      | ok a => exact .pure a
      | error f =>
          refine h.ask_bind fun outer => ?_
          split
          · exact .throw _
          · exact .throw _

theorem afterAttempt {again : Option (Watch (Nat × Except Failure α))}
    {again' : Option (Exec (Nat × Except Failure α))}
    (hagain : Option.Rel (Tracks Kept) again again') (id : String) (policy : Option RetryPolicy)
    (number : Nat) (r : Except Failure α) :
    Tracks Kept (.afterAttempt ctx id policy number again r)
      (afterAttempt ctx id policy number again' r) := by
  unfold Watch.afterAttempt Execution.afterAttempt
  cases r with
  | ok a => exact .pure _
  | error f =>
      dsimp only
      cases Retry.decide policy number (f.atStep id) with
      | giveUp f => exact .pure _
      | retryAfter delay =>
          cases hagain with
          | none => exact .pure _
          | some hagain =>
              refine h.ask_bind fun (waited : Bool) => ?_
              cases waited with
              | true => exact hagain
              | false => exact .pure _

theorem attempts {w : Watch α} {x : Exec α} (hw : Tracks Kept w x) (id : String)
    (policy : Option RetryPolicy) (further number : Nat) :
    Tracks Kept (.attempts ctx id policy w further number)
      (attempts ctx id policy x further number) := by
  induction further generalizing number with
  | zero => exact hw.outcome.bind fun r => h.afterAttempt .none id policy number r
  | succ further ih =>
      exact hw.outcome.bind fun r => h.afterAttempt (.some (ih (number + 1))) id policy number r

theorem recordOutput (id : String) (output : Json) :
    Tracks Kept (.complete id output) (modify (Scope.recordOutput id output)) := fun _ hu =>
  .pure ⟨rfl, rfl, h.complete id output hu⟩

theorem node {w : Watch Reached} {x : Exec Reached} (hw : Tracks Kept w x) (id kind : String)
    (retry : Option RetryPolicy) :
    Tracks Kept (.node ctx id kind retry w) (node ctx id kind retry x) := by
  refine h.ask_bind fun (cancelled : Bool) => ?_
  cases cancelled with
  | true => exact h.ask_bind fun _ => .throw _
  | false =>
      refine h.ask_bind fun _ => (h.attempts hw id retry _ 1).bind fun p => ?_
      refine h.ask_bind fun _ => h.ask_bind fun _ => ?_
      cases p.2 with
      | error f => exact .throw _
      | ok reached => exact (h.recordOutput id reached.output).bind fun _ => .pure _

theorem chosen {body : Option (Watch Json)} {body' : Option (Exec Json)}
    (hb : Option.Rel (Tracks Kept) body body') : Tracks Kept (.chosen body) (chosen body') := by
  cases hb with
  | none => exact .pure _
  | some hx => exact (h.inFrame hx (h.push .step)).map _

theorem chosenArm {arm : Option (Watch Json × Option Control.Binding)}
    {arm' : Option (Exec Json × Option Control.Binding)}
    (hb : Option.Rel (fun a a' => Tracks Kept a.1 a'.1 ∧ a.2 = a'.2) arm arm')
    (hnames : ∀ a ∈ arm, ∀ b ∈ a.2, Free b.1) : Tracks Kept (.chosenArm arm) (chosenArm arm') := by
  cases hb with
  | none => exact .pure _
  | @some a a' hx =>
      obtain ⟨body, binding⟩ := a
      obtain ⟨body', binding'⟩ := a'
      obtain ⟨hbody, rfl⟩ := hx
      refine (h.inFrame hbody (h.enter .step fun b hb => ?_)).map _
      exact hnames _ rfl b (Option.mem_toList.mp hb)

theorem guarded {w : Watch Json} {x : Exec Json} (hw : Tracks Kept w x) (condition : Expr) :
    Tracks Kept (.guarded condition w) (guarded condition x) := by
  refine h.decided_bind fun s holds _ => ?_
  cases holds with
  | true => exact .pure _
  | false => exact hw.bind fun _ => .pure _

theorem times {w : Watch Json} {x : Exec Json} (hw : Tracks Kept w x) {counter : Option String}
    (hname : ∀ n ∈ counter, Free n) (remaining number : Nat) (outputs : List Json) :
    Tracks Kept (.times counter w remaining number outputs)
      (times counter x remaining number outputs) := by
  induction remaining generalizing number outputs with
  | zero => exact .pure _
  | succ remaining ih =>
      refine (h.inFrame hw (h.enter .loopIteration fun b hb => ?_)).bind fun output => ih _ _
      obtain ⟨name, hmem, rfl⟩ := List.mem_map.mp hb
      exact hname name (Option.mem_toList.mp hmem)

theorem each {w : Watch Json} {x : Exec Json} (hw : Tracks Kept w x) {binding : LoopBinding}
    {index : Option String} (hnames : ∀ n ∈ binding.names, Free n) (hindex : ∀ n ∈ index, Free n)
    (items : List Json) (position : Nat) (outputs : List Json) :
    Tracks Kept (.each binding index w items position outputs)
      (each binding index x items position outputs) := by
  induction items generalizing position outputs with
  | nil => exact .pure _
  | cons item rest ih =>
      refine (h.inFrame ?_ (h.push .loopIteration)).bind fun output => ih _ _
      refine h.decided_bind fun s bound hbound => ?_
      refine (h.lift (x := modify _) (h.declareAll fun b hb =>
        hnames b.1 (Control.name_of_loopBindings hbound b hb))).bind fun _ => ?_
      refine (h.lift (x := modify _) (h.declareAll fun b hb => ?_)).bind fun _ => hw
      obtain ⟨name, hmem, rfl⟩ := List.mem_map.mp hb
      exact hindex name (Option.mem_toList.mp hmem)

theorem boundary {w : Watch Json} {x : Exec Json} (hw : Tracks Kept w x) (name : String)
    (f : Failure) : Tracks Kept (.boundary ctx name w f) (boundary ctx name x f) := by
  unfold Watch.boundary Execution.boundary
  split
  · refine h.ask_bind fun _ => (h.inFrame hw fun s => ?_).outcome.bind fun r => h.lift (h.ofResult _)
    exact h.trans (h.push .step s) (h.declare _ _ h.error)
  · exact .throw _

theorem recover {handler : Option (Watch Json)} {handler' : Option (Exec Json)}
    (hh : Option.Rel (Tracks Kept) handler handler') (id : String) (f : Failure) :
    Tracks Kept (.recover ctx id handler f) (recover ctx id handler' f) := by
  cases hh with
  | none => exact .throw _
  | some hx => exact (h.boundary hx id f).bind fun _ => h.ask_bind fun _ => .pure _

theorem undo {handler : Option (Watch Json)} {handler' : Option (Exec Json)}
    (hh : Option.Rel (Tracks Kept) handler handler') (id handle : String) (f : Failure) :
    Tracks Kept (.undo ctx id handle handler f) (undo ctx id handle handler' f) := by
  refine (h.lift h.settle).bind fun _ => (h.lift (h.rollback handle)).bind fun undone => ?_
  cases undone with
  | error e => exact .throw _
  | ok _ => exact h.ask_bind fun _ => h.recover hh id _

theorem transaction {w : Watch Json} {x : Exec Json} (hw : Tracks Kept w x)
    {handler : Option (Watch Json)} {handler' : Option (Exec Json)}
    (hh : Option.Rel (Tracks Kept) handler handler') (id : String) :
    Tracks Kept (.transaction ctx id w handler) (transaction ctx id x handler') := by
  refine (h.lift h.settle).bind fun _ => h.ask_bind fun begun =>
    (h.lift (h.ofResult _)).bind fun handle => (h.inFrame hw (h.push .step)).outcome.bind fun r => ?_
  cases r with
  | ok output => exact (h.lift (h.commit handle)).bind fun _ => .pure _
  | error f => exact h.undo hh id handle f

theorem forked {branches : Scope → Except Control.Fault (List Branch)}
    (hb : ∀ s bs, branches s = .ok bs → ∀ b ∈ bs, b.Stems Free Turns s) :
    Tracks Kept (.fork branches) (Exec.decided branches) := by
  intro u hu
  have hturn := h.turn hu (h.refl u.scope)
  rw [Watch.fork, Watch.on_bind, Watch.on, Watch.lift, on_decided]
  cases hr : branches u.scope with
  | error fault => exact .pure ⟨rfl, rfl, hturn⟩
  | ok bs => exact .pure ⟨rfl, rfl, h.fork hturn (hb _ _ hr)⟩

theorem fanOut {branches : Context → Scope → Except Control.Fault (List Branch)}
    (hb : ∀ ctx s bs, branches ctx s = .ok bs → ∀ b ∈ bs, b.Stems Free Turns s) (id : String)
    (policy : JoinPolicy) :
    Tracks Kept (.fanOut ctx id policy branches) (fanOut ctx id policy branches) := by
  refine h.ask_bind fun group => (h.forked (hb _)).bind fun bs => h.ask_bind fun joined =>
    (h.lift (h.ofResult _)).bind fun outcomes => h.ask_bind fun (cancelled : Bool) => ?_
  cases cancelled with
  | true => exact .throw _
  | false => exact .pure _

theorem stems_element {binding : LoopBinding} {body : List Step} (hnames : ∀ n ∈ binding.names, Free n)
    (hbody : ∀ n ∈ Step.sequenceNodes body, n.Binds Free) (collect : Option Expr)
    (items : List Json) (ctx : Context) (s : Scope) (bs : List Branch)
    (hbs : elementBranches binding body collect items ctx s = .ok bs) :
    ∀ b ∈ bs, b.Stems Free Turns s := by
  intro b hmem
  obtain ⟨item, bound, hbound, rfl⟩ := exists_of_elementBranches hbs b hmem
  exact ⟨ctx, _, body, collect, rfl, h.trans (h.push .loopIteration s) (h.declareAll (fun b hb =>
    hnames b.1 (Control.name_of_loopBindings hbound b hb)) _), hbody⟩

theorem stems_parallel {bodies : List (List Step × Option Expr)}
    (hbodies : ∀ n ∈ Step.parallelNodes bodies, n.Binds Free) (ctx : Context) (s : Scope)
    (bs : List Branch) (hbs : parallelBranches bodies ctx s = .ok bs) :
    ∀ b ∈ bs, b.Stems Free Turns s := by
  cases hbs
  intro b hmem
  obtain ⟨part, hpart, rfl⟩ := List.mem_map.mp hmem
  exact ⟨ctx, _, part.1, part.2, rfl, h.push .loopIteration s, fun n hn =>
    hbodies n (Step.mem_parallelNodes hpart hn)⟩

/-! ## Steps -/

set_option linter.unusedSectionVars false in
mutual

/-- The watched program of a step tracks that of the step if all nodes bind free names only. -/
theorem step : (s : Step) → (∀ n ∈ s.nodes, n.Binds Free) → (ctx : Context) →
    Tracks Kept (s.watch ctx) (s.run ctx)
  | .mk id a retry timeout, binds, ctx => by
      rw [Step.nodes, List.forall_mem_cons] at binds
      rw [Step.watch, Step.run]
      exact h.node (h.withDeadline (action a binds.1 binds.2 id) id _) id _ retry

theorem action : (a : Action) → (∀ name ∈ a.boundNames, Free name) →
    (∀ n ∈ Step.actionNodes a, n.Binds Free) → (id : String) → (ctx : Context) →
    Tracks Kept (a.watch id ctx) (a.run id ctx)
  | .call route spec, free, _, id, ctx => by
      rw [Action.watch, Action.run]
      exact h.lift (h.map _ (h.call id route fun n hn => free n (Option.mem_toList.mpr hn)))
  | .record op spec, free, _, id, ctx => by
      rw [Action.watch, Action.run]
      exact h.lift (h.map _ (h.record id op fun n hn => free n (Option.mem_toList.mpr hn)))
  | .script e bind, free, _, id, ctx => by
      rw [Action.watch]
      exact h.lift (h.script e (fun n hn => free n (Option.mem_toList.mpr hn)) id)
  | .assign target e declare, free, _, id, ctx => by
      rw [Action.watch]
      exact h.lift (h.assignment free id)
  | .conditional bs otherwise, _, binds, id, ctx => by
      simp only [Step.actionNodes, List.forall_mem_append] at binds
      rw [Action.watch, Action.run]
      exact h.decide (Control.selectBranch_alike (branches bs binds.1 ctx)
        (option otherwise binds.2 ctx)) fun _ _ _ _ hx => h.chosen hx
  | .choose subject as otherwise, free, binds, id, ctx => by
      simp only [Step.actionNodes, List.forall_mem_append] at binds
      rw [Action.watch, Action.run]
      refine h.decided_bind fun _ v _ => h.decide (fun _ => Control.selectArm_alike
        (arms as binds.1 ctx) (option otherwise binds.2 ctx)) fun _ _ _ hchosen hx =>
          h.chosenArm hx ?_
      rintro ⟨body, binding⟩ rfl b rfl
      exact free _ (mem_boundNames_of_selectArm hchosen subject otherwise)
  | .guard condition body, _, binds, id, ctx => by
      rw [Action.watch, Action.run]
      exact h.guarded (sequence body binds ctx .null) condition
  | .repeatTimes count counter body, free, binds, id, ctx => by
      rw [Action.watch, Action.run]
      exact h.decided_bind fun _ v _ => h.decided_bind fun _ n _ =>
        (h.times (sequence body binds ctx .null) (fun n hn => free n (Option.mem_toList.mpr hn)) n 1
          []).bind fun _ => .pure _
  | .repeatForEach collection binding index body, free, binds, id, ctx => by
      obtain ⟨hnames, hindex⟩ := List.forall_mem_append.mp free
      rw [Action.watch, Action.run]
      exact h.decided_bind fun _ v _ => h.decided_bind fun _ items _ =>
        (h.each (sequence body binds ctx .null) hnames
          (fun n hn => hindex n (Option.mem_toList.mpr hn)) items 0 []).bind fun _ => .pure _
  | .forEach collection binding body join collect, free, binds, id, ctx => by
      rw [Action.watch, Action.run]
      exact h.decided_bind fun _ v _ => h.decided_bind fun _ items _ =>
        h.fanOut (h.stems_element free binds collect items) id join
  | .parallel bodies join, _, binds, id, ctx => by
      rw [Action.watch, Action.run]
      exact h.fanOut (h.stems_parallel binds) id join
  | .transaction body onError, _, binds, id, ctx => by
      simp only [Step.actionNodes, List.forall_mem_append] at binds
      rw [Action.watch, Action.run]
      exact h.transaction (sequence body binds.1 ctx .null) (option onError binds.2 ctx) id

theorem sequence : (steps : List Step) → (∀ n ∈ Step.sequenceNodes steps, n.Binds Free) →
    (ctx : Context) → (last : Json) →
    Tracks Kept (watchSequence steps ctx last) (runSequence steps ctx last)
  | [], _, ctx, last => by
      rw [watchSequence, runSequence]
      exact .pure last
  | s :: rest, binds, ctx, last => by
      simp only [Step.sequenceNodes, List.forall_mem_append] at binds
      rw [watchSequence, runSequence]
      refine (step s binds.1 ctx).bind fun reached => ?_
      split
      · exact .pure _
      · exact sequence rest binds.2 ctx _

theorem option : (body : Option (List Step)) → (∀ n ∈ Step.optionNodes body, n.Binds Free) →
    (ctx : Context) → Option.Rel (Tracks Kept) (optionWatch body ctx) (optionProgram body ctx)
  | none, _, ctx => by
      rw [optionWatch, optionProgram]
      exact .none
  | some body, binds, ctx => by
      rw [optionWatch, optionProgram]
      exact .some (sequence body binds ctx .null)

theorem branches : (bs : List (Expr × List Step)) → (∀ n ∈ Step.branchNodes bs, n.Binds Free) →
    (ctx : Context) → List.Forall₂ (fun p p' => p.1 = p'.1 ∧ Tracks Kept p.2 p'.2)
      (branchWatches bs ctx) (branchPrograms bs ctx)
  | [], _, ctx => by
      rw [branchWatches, branchPrograms]
      exact .nil
  | (condition, body) :: rest, binds, ctx => by
      simp only [Step.branchNodes, List.forall_mem_append] at binds
      rw [branchWatches, branchPrograms]
      exact .cons ⟨rfl, sequence body binds.1 ctx .null⟩ (branches rest binds.2 ctx)

theorem arms : (as : List (Pattern × List Step)) → (∀ n ∈ Step.armNodes as, n.Binds Free) →
    (ctx : Context) → List.Forall₂ (fun p p' => p.1 = p'.1 ∧ Tracks Kept p.2 p'.2)
      (armWatches as ctx) (armPrograms as ctx)
  | [], _, ctx => by
      rw [armWatches, armPrograms]
      exact .nil
  | (pattern, body) :: rest, binds, ctx => by
      simp only [Step.armNodes, List.forall_mem_append] at binds
      rw [armWatches, armPrograms]
      exact .cons ⟨rfl, sequence body binds.1 ctx .null⟩ (arms rest binds.2 ctx)

end

end Upkeep

/-! ## Runs -/

namespace Execution

variable {config : Config} {flow : Flow} {inputs : List (String × Json)} {opened : Nat × Token}
  {d : List Deed} {result : RunResult} {u : Watched}

section

variable {Free : String → Prop} {Turns : Scope → Scope → Prop} {Kept : Watched → Prop}
  (h : Upkeep Free Turns Kept) (hflow : ∀ n ∈ flow.nodes, n.Binds Free)
include h hflow

theorem watchEnd_lockstep (ctx : Context) (timedOut : Bool) (r : Except Failure Json) (hu : Kept u) :
    Program.Lockstep (fun p q => p.1 = q.1 ∧ p.2.scope = q.2 ∧ Kept p.2)
      (watchEnd config flow ctx timedOut (r, u)) (ended config flow ctx timedOut u.scope r) := by
  cases r with
  | ok _ => exact .pure ⟨rfl, rfl, hu⟩
  | error f =>
      rw [ended, endAfter_eq, watchEnd]
      refine .perform fun (cancelled : Bool) => ?_
      split
      · exact .pure ⟨rfl, rfl, hu⟩
      · rw [handleFailure_eq]
        cases howned : flow.onError with
        | none => exact .pure ⟨rfl, rfl, hu⟩
        | some handler =>
            have hbinds : ∀ n ∈ Step.sequenceNodes handler, n.Binds Free := fun n hn =>
              hflow n (List.mem_append_right _ (by rwa [howned]))
            refine (h.boundary (h.sequence handler hbinds ctx .null) flow.name f u hu).bind ?_
            rintro ⟨r, u'⟩ ⟨_, s'⟩ ⟨rfl, rfl, hu'⟩
            cases r with
            | ok handled => exact .perform fun _ => .pure ⟨rfl, rfl, hu'⟩
            | error escaped => exact .pure ⟨rfl, rfl, hu'⟩

/-- A watched run does what the run does, and comes to a line that is kept. -/
theorem watchOpened_lockstep (hstart : Kept ⟨Scope.ofBindings inputs, []⟩) (opened : Nat × Token) :
    Program.Lockstep (fun p q => p.1 = q ∧ Kept p.2) (watchOpened config flow inputs opened)
      (afterOpening config flow inputs opened) := by
  refine (Program.Lockstep.refl _).bind ?_
  rintro deadline _ rfl
  refine (h.sequence flow.steps (fun n hn => hflow n (List.mem_append_left _ hn)) _ .null _
    (h.turn hstart (h.refl _))).bind ?_
  rintro ⟨r, u⟩ ⟨_, _⟩ ⟨rfl, rfl, hu⟩
  rw [conclude_eq_ended]
  refine (Program.Lockstep.refl _).bind fun _ _ _ => (Program.Lockstep.refl _).bind ?_
  rintro timedOut _ rfl
  refine (watchEnd_lockstep h hflow _ timedOut r hu).bind ?_
  rintro ⟨ending, u'⟩ ⟨_, _⟩ ⟨rfl, rfl, hu'⟩
  exact (Program.Lockstep.refl _).bind fun _ _ _ => .perform fun result => .pure ⟨rfl, hu'⟩

end

/-- The last thing that a run does is to close with the flow scope at the end of its line. -/
theorem watchOpened_follows
    (h : (watchOpened config flow inputs opened).Follows d (.pure (result, u))) :
    ∃ d' ending, d = d' ++ [⟨.closeRun opened.1 ending u.scope.flow, result⟩] := by
  obtain ⟨d₁, e₁, deadline, rfl, -, h⟩ := h.bind_pure
  obtain ⟨d₂, e₂, p, rfl, -, h⟩ := h.bind_pure
  obtain ⟨d₃, e₃, -, rfl, -, h⟩ := h.bind_pure
  obtain ⟨d₄, e₄, timedOut, rfl, -, h⟩ := h.bind_pure
  obtain ⟨d₅, e₅, ⟨ending, u'⟩, rfl, -, h⟩ := h.bind_pure
  obtain ⟨d₆, e₆, -, rfl, -, h⟩ := h.bind_pure
  obtain ⟨-, h⟩ | ⟨answer, rest, rfl, hrest⟩ := h.cons_of_perform
  · cases h
  · obtain ⟨rfl, hpure⟩ := Program.Follows.pure_iff.mp hrest
    cases hpure
    exact ⟨d₁ ++ (d₂ ++ (d₃ ++ (d₄ ++ (d₅ ++ d₆)))), ending, by simp only [List.append_assoc]⟩

end Execution
end FlowEngine
