import FlowEngine.Proofs.Execution.Flow
import FlowEngine.Proofs.Execution.Node
import FlowEngine.Proofs.Run.Joins
import FlowEngine.Proofs.Run.Waiting
import FlowEngine.Proofs.Session.Course

/-!
# Results of fan-outs

A step that fans out gets one envelope for each branch, in the order of the branches and
not in that in which they end. Under the fail-fast policy it gets the failure that came
first instead, if there is one.
-/
namespace FlowEngine

open Exec Execution

/-- A step fans out into branches: the bodies of a parallel step, or the body of a loop for each
item of its collection. The branches run in a context of their own. -/
inductive Action.FansOut (scope : Scope) : Action → JoinPolicy → (Context → List Branch) → Prop where
  | parallel (branches : List (List Step × Option Expr)) (join : JoinPolicy) :
      FansOut scope (.parallel branches join) join fun ctx =>
        branches.map fun (body, collect) => .steps ctx (scope.fork .loopIteration) body collect
  | forEach {collection : Expr} {binding : LoopBinding} {body : List Step} {join : JoinPolicy}
      {collect : Option Expr} {value : Json} {items : List Json}
      {bindings : List (List Control.Binding)}
      (evaluates : Control.evaluate collection scope = .ok value)
      (iterates : Control.collectionItems value = .ok items)
      (binds : items.mapM (Control.loopBindings binding) = .ok bindings) :
      FansOut scope (.forEach collection binding body join collect) join fun ctx =>
        bindings.map fun bound =>
          .steps ctx (Control.declareAll bound (scope.fork .loopIteration)) body collect

def resultEnvelope : Except Failure Json → Json
  | .ok value => .obj [("ok", .bool true), ("value", value)]
  | .error f => .obj [("error", f.toJson), ("ok", .bool false)]

theorem envelope_ofExcept (r : Except Failure Json) :
    (BranchOutcome.ofExcept r).envelope = resultEnvelope r := by
  cases r with
  | ok value => rfl
  | error f =>
      rw [BranchOutcome.ofExcept]
      split <;> rfl

def Execution.afterJoin (ctx : Context) (id : String) (scope : Scope) :
    Except Failure (List BranchOutcome) → Program (Except Failure Reached × Scope)
  | .error f => .pure (.error f, scope)
  | .ok outcomes => .perform (.isCancelled ctx.token) fun (cancelled : Bool) => .pure
    (if cancelled then .error ((Failure.cancelled "cancelled during fan-out").atStep id)
      else .ok (.value (.arr (outcomes.map BranchOutcome.envelope))), scope)

theorem fanOut_on {ctx : Context} {id : String} {policy : JoinPolicy} {scope : Scope}
    {make : Context → Scope → Except Control.Fault (List Branch)} {branches : Context → List Branch}
    (h : ∀ ctx, make ctx scope = .ok (branches ctx)) : (fanOut ctx id policy make).on scope =
      .perform (.childToken ctx.token) fun group =>
        .perform (.join ctx.run policy group (branches { ctx with token := group }))
          (afterJoin ctx id scope) := by
  refine congrArg (Program.perform (.childToken ctx.token)) (funext fun group => ?_)
  change (decided (make { ctx with token := group }) >>= _).on scope = _
  rw [on_bind, on_decided, h]
  refine congrArg (Program.perform _) (funext fun joined => ?_)
  cases joined with
  | error f => rfl
  | ok outcomes =>
      refine congrArg (Program.perform (.isCancelled ctx.token)) (funext fun (cancelled : Bool) => ?_)
      cases cancelled <;> rfl

theorem elementBranches_of_bindings {binding : LoopBinding} {items : List Json}
    {bindings : List (List Control.Binding)}
    (h : items.mapM (Control.loopBindings binding) = .ok bindings) (body : List Step)
    (collect : Option Expr) (ctx : Context) (scope : Scope) :
    elementBranches binding body collect items ctx scope = .ok (bindings.map fun bound =>
      .steps ctx (Control.declareAll bound (scope.fork .loopIteration)) body collect) := by
  unfold elementBranches
  induction items generalizing bindings with
  | nil =>
      cases h
      rfl
  | cons item rest ih =>
      rw [List.mapM_cons] at h
      obtain ⟨bound, hbound, h⟩ := exists_of_bind_eq_ok h
      obtain ⟨more, hmore, h⟩ := exists_of_bind_eq_ok h
      cases h
      rw [List.mapM_cons, ih hmore, hbound]
      rfl

theorem Action.FansOut.run_on {action : Action} {policy : JoinPolicy}
    {branches : Context → List Branch} {scope : Scope} (h : action.FansOut scope policy branches)
    (id : String) (ctx : Context) : (action.run id ctx).on scope =
      .perform (.childToken ctx.token) fun group =>
        .perform (.join ctx.run policy group (branches { ctx with token := group }))
          (afterJoin ctx id scope) := by
  cases h with
  | parallel bodies join =>
      rw [Action.run]
      have hmake (ctx : Context) : parallelBranches bodies ctx scope = .ok (bodies.map
          fun (body, collect) => .steps ctx (scope.fork .loopIteration) body collect) := rfl
      exact fanOut_on hmake
  | forEach evaluates iterates binds =>
      rw [Action.run, on_bind, on_evaluate, evaluates]
      change ((decided fun _ => _) >>= _).on scope = _
      rw [on_bind, on_decided, iterates]
      exact fanOut_on fun ctx => elementBranches_of_bindings binds _ _ ctx scope

variable {config : Config} {before after : List Occurrence} {s s' : System RunResult} {t : TaskId}
  {ctx : Context} {id : String} {action : Action} {scope : Scope} {policy : JoinPolicy}
  {branches : Context → List Branch}

theorem Session.join_of_fanOut {next : Except Failure (List BranchOutcome) → Program t.Result}
    {run : Nat} {group : Token} {bs : List Branch}
    (h : Session config before s)
    (ht : s.task? t = some (.active (.perform (.join run policy group bs) next) .fresh))
    {l : List Occurrence} {u : System RunResult} (hr : s.Reaches config l u)
    (hd : deedsOf t l = []) {joined : Except Failure (List BranchOutcome)} {m m' : Machine}
    (move : u.Moves config [.poll ⟨t, .join run policy group bs, some joined, m, m'⟩] s') :
    ∃ first meanwhile, meanwhile <:+ l ∧
      ((∃ f, joined = .error f ∧ policy = .failFast ∧ Branch.FailsFirst bs first meanwhile f) ∨
        ∃ results : List (Except Failure Json), joined = .ok (results.map .ofExcept) ∧
          Branch.EndAll bs first meanwhile results ∧
          (policy = .failFast → ∀ f, .error f ∉ results)) := by
  rcases hr.forks ht hd with hfresh | ⟨l₁, m₁, m₁', meanwhile, v, rfl, hv, hforks, hwait⟩
  · obtain ⟨-, next', w, hw, hpolls⟩ := move.polls_of_answer
    rw [hfresh] at hw
    cases hw
    obtain ⟨-, ⟨hjoined, rfl⟩ | ⟨-, hturn⟩⟩ := hpolls
    · cases hjoined
      exact ⟨0, [], List.nil_suffix, Or.inr ⟨[], rfl, ⟨rfl, by simp⟩, by simp⟩⟩
    · cases hturn
  · obtain ⟨s₀, hs₀, hbefore⟩ := h
    have hsession : Session config _ v := ⟨s₀, hs₀, hbefore.trans hv⟩
    exact ⟨m₁.branches.size, meanwhile, (List.suffix_cons _ _).trans (List.suffix_append _ _),
      hforks.answered hsession hwait move⟩

theorem Session.branches_of_fanOut {k : Except Failure Reached × Scope → Program t.Result}
    (h : Session config before s) (hat : s.At t (((action.run id ctx).on scope).bind k))
    (hfan : action.FansOut scope policy branches) (hr : s.Reaches config after s') {group : Token}
    {joined : Except Failure (List BranchOutcome)} {more : List Deed}
    (hdeeds : deedsOf t after = ⟨.childToken ctx.token, group⟩ ::
      ⟨.join ctx.run policy group (branches { ctx with token := group }), joined⟩ :: more) :
    ∃ first meanwhile, meanwhile <:+: after ∧
      ((∃ f, joined = .error f ∧ policy = .failFast ∧
          Branch.FailsFirst (branches { ctx with token := group }) first meanwhile f) ∨
        ∃ results : List (Except Failure Json), joined = .ok (results.map .ofExcept) ∧
          Branch.EndAll (branches { ctx with token := group }) first meanwhile results ∧
          (policy = .failFast → ∀ f, .error f ∉ results)) := by
  rw [hfan.run_on, Program.bind_perform] at hat
  obtain ⟨l₁, m, m', l₂, rfl, -, hl₁, hl₂⟩ := deedsOf_split (show deedsOf t after = [] ++ _ from hdeeds)
  obtain ⟨u, v, hu, move, hv⟩ := hr.moment
  obtain ⟨l₃, m₁, m₁', later, rfl, -, hl₃, -⟩ := deedsOf_split (show deedsOf t l₂ = [] ++ _ from hl₂)
  obtain ⟨u', v', hu', move', -⟩ := hv.moment
  obtain ⟨s₀, hs₀, hr₀⟩ := h
  have hbefore : Session config _ v := ⟨s₀, hs₀, hr₀.trans (hu.trans (.single move))⟩
  have hjoin := move.goes_on (hu.stays hat hl₁).1
  obtain ⟨first, meanwhile, ⟨l₄, rfl⟩, hanswer⟩ := hbefore.join_of_fanOut hjoin hu' hl₃ move'
  refine ⟨first, meanwhile, ?_, hanswer⟩
  simp only [List.append_assoc, ← List.cons_append]
  rw [← List.append_assoc _ meanwhile]
  exact (List.infix_append _ _ _).trans (List.suffix_append _ _).isInfix

/-- A task that was told that a token is cancelled was told so for good. -/
theorem System.Reaches.cancelled_of_deed {token : Token} (hr : s.Reaches config after s')
    (hd : ⟨.isCancelled token, true⟩ ∈ deedsOf t after) : s'.machine.isCancelled token = true := by
  obtain ⟨m, m', hm⟩ := mem_of_deed hd
  obtain ⟨l, l', rfl⟩ := List.append_of_mem hm
  obtain ⟨u, v, -, move, hv⟩ := hr.moment
  obtain ⟨-, next, w, -, hpolls⟩ := move.polls_of_answer
  have hu : u.machine.isCancelled token = true := by
    have hanswer : Turn.answered true = .answered (u.outline.isCancelled token) := hpolls.1
    exact (Turn.answered.inj hanswer).symm
  exact ((System.Reaches.single move).trans hv).isCancelled hu

/-- What a step that fans out comes to, by the ends of its branches in a part of a log. -/
inductive FanOutResult (policy : JoinPolicy) (bs : List Branch) (log : List Occurrence) :
    Except Failure Reached → Prop where
  | envelopes {first : Nat} {meanwhile : List Occurrence} {results : List (Except Failure Json)}
      (within : meanwhile <:+: log) (ends : Branch.EndAll bs first meanwhile results)
      (quiet : policy = .failFast → ∀ f, .error f ∉ results) :
      FanOutResult policy bs log (.ok (.value (.arr (results.map resultEnvelope))))
  | failure {first : Nat} {meanwhile : List Occurrence} {f : Failure}
      (within : meanwhile <:+: log) (fast : policy = .failFast)
      (fails : Branch.FailsFirst bs first meanwhile f) : FanOutResult policy bs log (.error f)

def Solo.forked : Solo where
  world := quietWorld
    [("slow", .delayed 20 (.value (.str "late"))), ("broken", .delayed 10 (.failure .stepExecution "no"))]
  flow :=
    { name := "forked"
      description := none
      steps := [.mk "fork" (.parallel
        [([calls "ship" "slow"], none), ([calls "pay" "broken"], none)] .waitAll) none none]
      onError := none }

end FlowEngine
