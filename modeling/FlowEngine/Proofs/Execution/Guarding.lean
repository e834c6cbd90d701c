import FlowEngine.Proofs.Execution.Completion
import FlowEngine.Proofs.Execution.Matching

/-!
# Guards

A guard whose condition does not hold ends the sequence that it stands in, after its body and with the
value false. What the sequence is a part of cannot tell this from any other way to complete.
-/
namespace FlowEngine

open Exec Execution

/-! ## Sequences -/

/-- The steps of a list succeed one after the other, and none of them leaves the sequence. -/
inductive Passes (ctx : Context) : List Step → Json → Scope → List Deed → Json → Scope → Prop where
  | nil (last : Json) (s : Scope) : Passes ctx [] last s [] last s
  | cons {step : Step} {rest : List Step} {last v : Json} {s t u : Scope} {deeds more : List Deed}
      {reached : Reached} (ran : ((step.run ctx).on s).Follows deeds (.pure (.ok reached, t)))
      (stays : reached.leaves = false) (passes : Passes ctx rest reached.output t more v u) :
      Passes ctx (step :: rest) last s (deeds ++ more) v u

/-- A guard leaves its sequence: in its last attempt the condition does not hold, and the body, which
has no frame of its own, completes. -/
inductive Step.Leaves (g : Step) (condition : Expr) (body : List Step) (ctx : Context) (s : Scope) :
    List Deed → Scope → Prop where
  | last {number : Nat} {before opening during closing : List Deed} {ctx' : Context} {t u : Scope}
      {v : Json} (tried : g.Tried ctx s number before t)
      (attempts : g.Attempts ctx ctx' opening closing)
      (fails : Control.evalCondition condition t = .ok false)
      (ran : ((runSequence body ctx' .null).on t).Follows during (.pure (.ok v, u)))
      (closed : Except EngineError Unit) :
      Leaves g condition body ctx s (before ++ (opening ++ during ++ closing) ++
        [g.recorded ctx .completed number (.ok ⟨.bool false, true⟩),
          ⟨.endSpan ctx g.id .completed, closed⟩]) (u.recordOutput g.id (.bool false))

/-- What a sequence of steps is the body of. After some deeds a program runs the body in a scope chain,
and when the body completes, it goes on as it is said here. -/
inductive Encloses (ctx : Context) (body : List Step) : {α : Type} → List Deed → Program α → Scope →
    (Json → Scope → Program α) → Prop where
  | branch {before after : List (Expr × List Step)} {condition : Expr} {s : Scope}
      (refused : ∀ b ∈ before, Control.evalCondition b.1 s = .ok false)
      (holds : Control.evalCondition condition s = .ok true) (otherwise : Option (List Step))
      (id : String) : Encloses ctx body []
        (((Action.conditional (before ++ (condition, body) :: after) otherwise).run id ctx).on s)
        (s.under ⟨.step, []⟩) fun v u => .pure (.ok (.value v), u.leave)
  | otherwise {branches : List (Expr × List Step)} {s : Scope}
      (refused : ∀ b ∈ branches, Control.evalCondition b.1 s = .ok false) (id : String) :
      Encloses ctx body [] (((Action.conditional branches (some body)).run id ctx).on s)
        (s.under ⟨.step, []⟩) fun v u => .pure (.ok (.value v), u.leave)
  | arm {e : Expr} {subject : Json} {before after : List (Pattern × List Step)} {pattern : Pattern}
      {binding : Option Control.Binding} {s : Scope}
      (evaluated : Control.evaluate e s = .ok subject) (refused : NoneAccepts subject before)
      (accepts : pattern.Accepts subject binding) (otherwise : Option (List Step)) (id : String) :
      Encloses ctx body []
        (((Action.choose e (before ++ (pattern, body) :: after) otherwise).run id ctx).on s)
        (s.under ⟨.step, binding.toList⟩) fun v u => .pure (.ok (.value v), u.leave)
  | noArm {e : Expr} {subject : Json} {arms : List (Pattern × List Step)} {s : Scope}
      (evaluated : Control.evaluate e s = .ok subject) (refused : NoneAccepts subject arms)
      (id : String) : Encloses ctx body [] (((Action.choose e arms (some body)).run id ctx).on s)
        (s.under ⟨.step, []⟩) fun v u => .pure (.ok (.value v), u.leave)
  | time (counter : Option String) (remaining number : Nat) (outputs : List Json) (s : Scope) :
      Encloses ctx body []
        ((times counter (runSequence body ctx .null) (remaining + 1) number outputs).on s)
        (Control.declareAll (counter.toList.map fun name => (name, Json.ofNat number))
          (s.push .loopIteration))
        fun v u => (times counter (runSequence body ctx .null) remaining (number + 1)
          (v :: outputs)).on u.leave
  | element {binding : LoopBinding} {item : Json} {bindings : List Control.Binding}
      (unpacked : Control.loopBindings binding item = .ok bindings) (index : Option String)
      (items : List Json) (position : Nat) (outputs : List Json) (s : Scope) : Encloses ctx body []
        ((each binding index (runSequence body ctx .null) (item :: items) position outputs).on s)
        (Control.declareAll (index.toList.map fun name => (name, Json.ofNat position))
          (Control.declareAll bindings (s.push .loopIteration)))
        fun v u => (each binding index (runSequence body ctx .null) items (position + 1)
          (v :: outputs)).on u.leave
  | fanned (scope : Scope) (collect : Option Expr) :
      Encloses ctx body [] (Branch.steps ctx scope body collect).program scope
        fun v u => .pure (match collect with
          | none => .ok v
          | some e => (Control.evaluate e u).mapError fun f => f.toError.toFailure)
  | transaction {settled : Except Failure Nat} {handle : String} (onError : Option (List Step))
      (id : String) (s : Scope) : Encloses ctx body
        [⟨.settle ctx.run (some ctx.token), settled⟩, ⟨.beginTransaction ctx, .ok handle⟩]
        (((Action.transaction body onError).run id ctx).on s) (s.under ⟨.step, []⟩)
        fun v u => ((do commit ctx handle; return .value v : Exec Reached)).on u.leave
  | handler {f : Failure} (intercepts : Boundary.intercepts f = true) (id : String) (s : Scope) :
      Encloses ctx body [⟨.note ctx.run (.boundary id f), ()⟩]
        ((recover ctx id (some (runSequence body ctx .null)) f).on s) (Boundary.enter f s)
        fun _ u => .perform (.note ctx.run (.handled f)) fun _ => .pure (.ok (.value .null), u.leave)
  | lastHandler {flow : Flow} {f : Failure} (handler : flow.onError = some body)
      (intercepts : Boundary.intercepts f = true) (limit : Option UInt64) (timedOut : Bool)
      (s : Scope) : Encloses ctx body [⟨.note ctx.run (.boundary flow.name f), ()⟩]
        (handleFailure flow ctx limit timedOut f s) (Boundary.enter f s)
        fun _ u => .perform (.note ctx.run (.handled f)) fun _ => .pure (.completed, u.leave)
  /-- The body of another guard. That guard leaves its own sequence, as its condition does not hold. -/
  | guard {condition : Expr} {s : Scope} (fails : Control.evalCondition condition s = .ok false)
      (id : String) : Encloses ctx body [] (((Action.guard condition body).run id ctx).on s) s
        fun _ u => .pure (.ok ⟨.bool false, true⟩, u)

section

variable {α : Type} {ctx : Context} {body pre post rest : List Step} {g step : Step} {s s' t u : Scope}
  {before deeds outer : List Deed} {last v w : Json} {condition : Expr} {reached : Reached}

theorem runSequence_cons (step : Step) (rest : List Step) (ctx : Context) (last : Json) (s : Scope) :
    (runSequence (step :: rest) ctx last).on s = ((step.run ctx).on s).bind (after fun reached =>
      if reached.leaves then return reached.output else runSequence rest ctx reached.output) := by
  rw [runSequence, on_bind]

/-- When the first steps of a sequence have passed, the others are left. -/
theorem Passes.follows (h : Passes ctx pre last s before v t) (rest : List Step) :
    ((runSequence (pre ++ rest) ctx last).on s).Follows before ((runSequence rest ctx v).on t) := by
  induction h with
  | nil last s => exact .start _
  | @cons step others last v s t u deeds more reached ran stays passes ih =>
      rw [List.cons_append, runSequence_cons]
      refine (ran.bind _).append ?_
      rw [Program.bind_pure_left, after_ok, stays]
      exact ih

/-- A sequence that completes is left in its first part, or its first part passes. -/
theorem Passes.of_follows
    (h : ((runSequence (pre ++ rest) ctx last).on s).Follows deeds (.pure (.ok w, s'))) :
    (∀ others, ((runSequence (pre ++ others) ctx last).on s).Follows deeds (.pure (.ok w, s'))) ∨
    ∃ before after v t, deeds = before ++ after ∧ Passes ctx pre last s before v t ∧
      ((runSequence rest ctx v).on t).Follows after (.pure (.ok w, s')) := by
  induction pre generalizing last s deeds with
  | nil => exact Or.inr ⟨[], deeds, last, s, rfl, .nil last s, h⟩
  | cons step steps ih =>
      rw [List.cons_append, runSequence_cons] at h
      obtain ⟨d, more, ⟨r, t⟩, rfl, hstep, hmore⟩ := h.bind_pure
      cases r with
      | error f => cases (Program.Follows.pure_iff.mp hmore).2
      | ok reached =>
          have hfollows (others : List Step) :
              ((runSequence (step :: (steps ++ others)) ctx last).on s).Follows d
                ((if reached.leaves then return reached.output
                  else runSequence (steps ++ others) ctx reached.output : Exec Json).on t) := by
            rw [runSequence_cons]
            exact hstep.bind _
          rw [after_ok] at hmore
          cases hleaves : reached.leaves with
          | true =>
              simp only [hleaves, if_true] at hmore hfollows
              exact Or.inl fun others => (hfollows others).append hmore
          | false =>
              simp only [hleaves, Bool.false_eq_true, if_false] at hmore hfollows
              rcases ih hmore with hleft | ⟨before, after, v, u, rfl, hpasses, hrest⟩
              · exact Or.inl fun others => (hfollows others).append (hleft others)
              · refine Or.inr ⟨d ++ before, after, v, u, by simp, ?_, hrest⟩
                exact .cons hstep hleaves hpasses

/-! ## Guards -/

theorem Action.guard_follows_iff {id : String} :
    (((Action.guard condition body).run id ctx).on s).Follows deeds (.pure (.ok reached, s')) ↔
      (Control.evalCondition condition s = .ok true ∧ deeds = [] ∧ reached = ⟨.bool true, false⟩ ∧
        s' = s) ∨
      (Control.evalCondition condition s = .ok false ∧ reached = ⟨.bool false, true⟩ ∧
        ∃ v, ((runSequence body ctx .null).on s).Follows deeds (.pure (.ok v, s'))) := by
  rw [Action.run, guarded, on_bind, on_decided]
  cases hcondition : Control.evalCondition condition s with
  | error fault => simp [Except.mapError, Program.Follows.pure_iff]
  | ok holds =>
      cases holds with
      | true =>
          change (Program.pure (Except.ok (Reached.value (.bool true)), s)).Follows deeds
            (.pure (.ok reached, s')) ↔ _
          simp [Program.Follows.pure_iff, Reached.value]
      | false =>
          change (on (runSequence body ctx .null >>= fun _ =>
            (pure ⟨.bool false, true⟩ : Exec Reached)) s).Follows deeds (.pure (.ok reached, s')) ↔ _
          rw [on_bind]
          constructor
          · intro h
            obtain ⟨d, more, ⟨r, t⟩, rfl, hran, hend⟩ := h.bind_pure
            cases r with
            | error f => cases (Program.Follows.pure_iff.mp hend).2
            | ok v =>
                obtain ⟨rfl, hlast⟩ := Program.Follows.pure_iff.mp hend
                cases hlast
                exact Or.inr ⟨rfl, rfl, v, by simpa using hran⟩
          · rintro (⟨hholds, -⟩ | ⟨-, rfl, v, hran⟩)
            · cases hholds
            · exact hran.bind _

/-- A guard leaves its sequence in one way, whatever its policy and its deadline are. -/
theorem Step.leaves_iff (hg : g.action = .guard condition body) :
    ((g.run ctx).on s).Follows deeds (.pure (.ok ⟨v, true⟩, s')) ↔
      v = .bool false ∧ g.Leaves condition body ctx s deeds s' := by
  rw [← Step.succeeds_iff]
  constructor
  · intro h
    cases h with
    | last tried ran closed =>
        obtain ⟨ctx', opening, during, closing, hattempts, rfl, hran⟩ := Step.Attempts.of_follows ran
        rw [hg, Action.guard_follows_iff] at hran
        rcases hran with ⟨-, -, hreached, -⟩ | ⟨hfails, hreached, w, hbody⟩
        · cases hreached
        · cases hreached
          exact ⟨rfl, .last tried hattempts hfails hbody closed⟩
  · rintro ⟨rfl, h⟩
    cases h with
    | @last number before opening during closing ctx' t u w tried hattempts fails ran closed =>
        have hran : ((g.action.run g.id ctx').on t).Follows during
            (.pure (.ok ⟨.bool false, true⟩, u)) := by
          rw [hg, Action.guard_follows_iff]
          exact Or.inr ⟨fails, rfl, w, ran⟩
        exact .last tried (hattempts.follows hran) closed

/-- A guard that does not leave its sequence has the value true. -/
theorem Step.output_of_stays (hg : g.action = .guard condition body)
    (h : ((g.run ctx).on s).Follows deeds (.pure (.ok reached, s'))) (hstays : reached.leaves = false) :
    reached.output = .bool true := by
  obtain ⟨-, ran, -⟩ := Step.succeeds_iff.mpr h
  obtain ⟨ctx', opening, during, closing, -, -, hran⟩ := Step.Attempts.of_follows ran
  rw [hg, Action.guard_follows_iff] at hran
  rcases hran with ⟨-, -, rfl, -⟩ | ⟨-, rfl, -⟩
  · rfl
  · cases hstays

theorem Step.Leaves.follows (hg : g.action = .guard condition body)
    (h : g.Leaves condition body ctx s deeds s') (post : List Step) (last : Json) :
    ((runSequence (g :: post) ctx last).on s).Follows deeds (.pure (.ok (.bool false), s')) := by
  have hran := (Step.leaves_iff hg).mpr ⟨rfl, h⟩
  rw [runSequence_cons]
  exact hran.bind _

/-- What a guard ends with false does not depend on what comes after the guard. -/
theorem Step.follows_of_guard (hg : g.action = .guard condition body)
    (h : ((runSequence (pre ++ [g]) ctx last).on s).Follows deeds (.pure (.ok (.bool false), s')))
    (post : List Step) : ((runSequence (pre ++ g :: post) ctx last).on s).Follows deeds
      (.pure (.ok (.bool false), s')) := by
  rcases Passes.of_follows h with hleft | ⟨before, after, v, t, rfl, hpasses, hguard⟩
  · exact hleft (g :: post)
  · refine (hpasses.follows _).append ?_
    rw [runSequence_cons] at hguard
    obtain ⟨d, more, ⟨r, u⟩, rfl, hran, hend⟩ := hguard.bind_pure
    cases r with
    | error f => cases (Program.Follows.pure_iff.mp hend).2
    | ok reached =>
        obtain ⟨output, leaves⟩ := reached
        cases leaves with
        | true =>
            rw [runSequence_cons]
            exact (hran.bind _).append hend
        | false =>
            obtain rfl : output = .bool true := Step.output_of_stays hg hran rfl
            rw [after_ok, if_neg Bool.false_ne_true, runSequence, on_pure] at hend
            cases (Program.Follows.pure_iff.mp hend).2

/-! ## What is around a sequence -/

theorem Control.selectBranch_append {α : Type} {before after : List (Expr × α)} {condition : Expr}
    {body : α} (refused : ∀ b ∈ before, Control.evalCondition b.1 s = .ok false)
    (holds : Control.evalCondition condition s = .ok true) (otherwise : Option α) :
    Control.selectBranch (before ++ (condition, body) :: after) otherwise s = .ok (some body) := by
  induction before with
  | nil =>
      rw [List.nil_append, Control.selectBranch, holds]
      rfl
  | cons b rest ih =>
      rw [List.cons_append, Control.selectBranch, refused b List.mem_cons_self]
      exact ih fun b hb => refused b (List.mem_cons_of_mem _ hb)

theorem Control.selectBranch_of_refused {α : Type} {branches : List (Expr × α)}
    (refused : ∀ b ∈ branches, Control.evalCondition b.1 s = .ok false) (otherwise : Option α) :
    Control.selectBranch branches otherwise s = .ok otherwise := by
  induction branches with
  | nil => rfl
  | cons b rest ih =>
      rw [Control.selectBranch, refused b List.mem_cons_self]
      exact ih fun b hb => refused b (List.mem_cons_of_mem _ hb)

theorem Execution.branchPrograms_append (before after : List (Expr × List Step)) (ctx : Context) :
    branchPrograms (before ++ after) ctx = branchPrograms before ctx ++ branchPrograms after ctx := by
  induction before with
  | nil => rw [branchPrograms, List.nil_append, List.nil_append]
  | cons b rest ih => rw [List.cons_append, branchPrograms, ih, branchPrograms, List.cons_append]

theorem Execution.refused_branchPrograms {branches : List (Expr × List Step)}
    (refused : ∀ b ∈ branches, Control.evalCondition b.1 s = .ok false) :
    ∀ b ∈ branchPrograms branches ctx, Control.evalCondition b.1 s = .ok false := by
  induction branches with
  | nil =>
      rw [branchPrograms]
      nofun
  | cons b rest ih =>
      rw [branchPrograms]
      intro c hc
      rcases List.mem_cons.mp hc with rfl | hc
      · exact refused b List.mem_cons_self
      · exact ih (fun b hb => refused b (List.mem_cons_of_mem _ hb)) c hc

theorem Execution.inFrame_follows {body : Exec Json} {f : Frame}
    (h : (body.on (s.under f)).Follows deeds (.pure (.ok v, u))) :
    ((Reached.value <$> inFrame (Scope.under f) body).on s).Follows deeds
      (.pure (.ok (.value v), u.leave)) := by
  rw [on_map, on_inFrame, Program.bind_assoc]
  exact h.bind _

theorem Execution.boundary_follows {handler : Exec Json} {f : Failure}
    (hf : Boundary.intercepts f = true) (name : String)
    (h : (handler.on (Boundary.enter f s)).Follows deeds (.pure (.ok v, u))) :
    ((boundary ctx name handler f).on s).Follows (⟨.note ctx.run (.boundary name f), ()⟩ :: deeds)
      (.pure (.ok f, u.leave)) := by
  have hhandled : ((do
      let result ← (inFrame (Boundary.enter f) handler).outcome
      ofResult (Boundary.resolve f (result.map fun _ => ())) : Exec Failure).on s).Follows deeds
      (.pure (.ok f, u.leave)) := by
    rw [on_bind, on_outcome, on_inFrame, Program.bind_assoc, Program.bind_assoc]
    exact h.bind _
  rw [boundary, if_pos hf]
  exact .deed hhandled

theorem Encloses.follows {p : Program α} {finish : Json → Scope → Program α}
    (h : Encloses ctx body outer p s finish)
    (hran : ((runSequence body ctx .null).on s).Follows deeds (.pure (.ok v, u))) :
    p.Follows (outer ++ deeds) (finish v u) := by
  cases h with
  | @branch before after condition s refused holds otherwise id =>
      rw [Action.run, on_bind, on_decided, branchPrograms_append, branchPrograms,
        Control.selectBranch_append (refused_branchPrograms refused) holds]
      exact inFrame_follows hran
  | otherwise refused id =>
      rw [Action.run, on_bind, on_decided,
        Control.selectBranch_of_refused (refused_branchPrograms refused)]
      exact inFrame_follows hran
  | arm evaluated refused accepts otherwise id =>
      rw [(Action.choose_matched evaluated).first rfl refused accepts]
      exact inFrame_follows hran
  | noArm evaluated refused id =>
      rw [(Action.choose_matched evaluated).fallback refused rfl]
      exact inFrame_follows hran
  | time counter remaining number outputs t =>
      rw [times, on_bind, on_inFrame, Program.bind_assoc]
      exact hran.bind _
  | @element binding item bindings unpacked index items position outputs t =>
      rw [each, on_bind, on_inFrame, unpacked, Program.bind_assoc]
      exact hran.bind _
  | fanned scope collect =>
      cases collect with
      | none => exact hran.bind _
      | some e => exact hran.bind _
  | @transaction settled handle onError id t =>
      have hbody : ((enclose ctx id handle (runSequence body ctx .null)
          (optionProgram onError ctx)).on t).Follows deeds
          ((do commit ctx handle; return .value v : Exec Reached).on u.leave) := by
        unfold enclose
        rw [on_bind, on_outcome, on_inFrame, Program.bind_assoc, Program.bind_assoc]
        exact hran.bind _
      rw [Action.run]
      exact .deed (.deed hbody)
  | @handler f intercepts id t =>
      rw [recover, on_bind]
      exact (boundary_follows intercepts id hran).bind _
  | @lastHandler flow f handler intercepts limit timedOut t =>
      rw [handleFailure_eq, handler]
      exact (boundary_follows intercepts flow.name hran).bind _
  | guard fails id =>
      exact Action.guard_follows_iff.mpr (Or.inr ⟨fails, rfl, v, hran⟩)

/-! ## Other steps -/

theorem Action.stays {action : Action} (h : ∀ condition body, action ≠ .guard condition body)
    (id : String) (ctx : Context) :
    (action.run id ctx).Attains fun reached _ => reached.leaves = false := by
  have hvalue {x : Exec Json} : (Reached.value <$> x).Attains fun reached _ => reached.leaves = false := by
    refine .map fun s => (Program.Ends.trivial _).mono fun p _ a _ => rfl
  have hfanOut (policy : JoinPolicy) (branches : Context → Scope → Except Control.Fault (List Branch)) :
      (fanOut ctx id policy branches).Attains fun reached _ => reached.leaves = false := by
    refine .bind fun group => .bind fun bs => .bind fun joined => .bind fun outcomes =>
      .bind fun (cancelled : Bool) => ?_
    cases cancelled with
    | true => exact .throw _
    | false => exact .pure fun _ => rfl
  cases action with
  | call route spec =>
      rw [Action.run]
      exact hvalue
  | record op spec =>
      rw [Action.run]
      exact hvalue
  | script e bind =>
      rw [Action.run]
      refine .bind fun v => ?_
      cases bind with
      | none => exact .pure fun _ => rfl
      | some name => exact .bind fun _ => .pure fun _ => rfl
  | assign target e declare =>
      rw [Action.run]
      exact .bind fun v => .bind fun _ => .pure fun _ => rfl
  | conditional branches otherwise =>
      rw [Action.run]
      refine .bind fun body => ?_
      cases body with
      | none => exact .pure fun _ => rfl
      | some body => exact hvalue
  | choose e arms otherwise =>
      rw [Action.run]
      refine .bind fun subject => .bind fun arm => ?_
      cases arm with
      | none => exact .pure fun _ => rfl
      | some arm => exact hvalue
  | guard condition body => exact absurd rfl (h condition body)
  | repeatTimes count counter body =>
      rw [Action.run]
      exact .bind fun v => .bind fun n => .bind fun outputs => .pure fun _ => rfl
  | repeatForEach collection binding index body =>
      rw [Action.run]
      exact .bind fun v => .bind fun items => .bind fun outputs => .pure fun _ => rfl
  | forEach collection binding body join collect =>
      rw [Action.run]
      exact .bind fun v => .bind fun items => hfanOut _ _
  | parallel branches join =>
      rw [Action.run]
      exact hfanOut _ _
  | transaction body onError =>
      rw [Action.run]
      refine .bind fun _ => .bind fun begun => .bind fun handle => .bind fun result => ?_
      cases result with
      | ok output => exact .bind fun _ => .pure fun _ => rfl
      | error f =>
          refine .bind fun _ => .bind fun undone => ?_
          cases undone with
          | error e => exact .throw _
          | ok restored =>
              refine .bind fun _ => ?_
              unfold recover
              cases optionProgram onError ctx with
              | none => exact .throw _
              | some handler => exact .bind fun handled => .bind fun _ => .pure fun _ => rfl

/-- When a step that is not a guard completes its action in an attempt, the next step comes. -/
theorem Step.Tried.goes_on {number : Nat} {ctx' : Context} {opening during closing : List Deed}
    (hstep : ∀ condition body, step.action ≠ .guard condition body)
    (tried : step.Tried ctx s number before t) (attempts : step.Attempts ctx ctx' opening closing)
    (ran : ((step.action.run step.id ctx').on t).Follows during (.pure (.ok reached, u)))
    (closed : Except EngineError Unit) (rest : List Step) (last : Json) :
    ((runSequence (step :: rest) ctx last).on s).Follows
      (before ++ (opening ++ during ++ closing) ++
        [step.recorded ctx .completed number (.ok reached), ⟨.endSpan ctx step.id .completed, closed⟩])
      ((runSequence rest ctx reached.output).on (u.recordOutput step.id reached.output)) := by
  have hstays : reached.leaves = false :=
    (Action.stays hstep step.id ctx' t).of_follows ran reached rfl
  have hrun := Step.succeeds_iff.mp (.last tried (attempts.follows ran) closed)
  have hnext := hrun.bind (after fun reached =>
    if reached.leaves then return reached.output else runSequence rest ctx reached.output)
  rw [Program.bind_pure_left, after_ok, if_neg (Bool.eq_false_iff.mp hstays)] at hnext
  rw [runSequence_cons]
  exact hnext

end

/-- A guard whose condition does not hold ends its sequence after its body, with the value false: with
the steps after it the sequence does what it does without them. What the sequence is a part of goes on
as it does after any body that completes. No other step leaves a sequence, so the next one comes. -/
theorem guard_leaves_only_its_sequence {g : Step} {condition : Expr} {body : List Step}
    (hg : g.action = .guard condition body) :
    (∀ (ctx : Context) (s s' : Scope) (deeds : List Deed) (v : Json),
      ((g.run ctx).on s).Follows deeds (.pure (.ok ⟨v, true⟩, s')) ↔
        v = .bool false ∧ g.Leaves condition body ctx s deeds s') ∧
    (∀ (pre post : List Step) (ctx : Context) (last v : Json) (s t s' : Scope)
      (before deeds : List Deed), Passes ctx pre last s before v t →
      g.Leaves condition body ctx t deeds s' →
      ((runSequence (pre ++ [g]) ctx last).on s).Follows (before ++ deeds)
          (.pure (.ok (.bool false), s')) ∧
        ((runSequence (pre ++ g :: post) ctx last).on s).Follows (before ++ deeds)
          (.pure (.ok (.bool false), s'))) ∧
    (∀ (pre post : List Step) (ctx : Context) (last : Json) (s s' : Scope) (deeds : List Deed),
      ((runSequence (pre ++ [g]) ctx last).on s).Follows deeds (.pure (.ok (.bool false), s')) →
      ((runSequence (pre ++ g :: post) ctx last).on s).Follows deeds (.pure (.ok (.bool false), s'))) ∧
    (∀ (α : Type) (p : Program α) (pre post : List Step) (ctx : Context) (v : Json) (s t s' : Scope)
      (outer before deeds : List Deed) (finish : Json → Scope → Program α),
      Encloses ctx (pre ++ g :: post) outer p s finish → Passes ctx pre .null s before v t →
      g.Leaves condition body ctx t deeds s' →
      p.Follows (outer ++ (before ++ deeds)) (finish (.bool false) s')) ∧
    ∀ (step : Step) (rest : List Step) (ctx ctx' : Context) (last : Json) (s t u : Scope)
      (number : Nat) (before opening during closing : List Deed) (reached : Reached)
      (closed : Except EngineError Unit), (∀ condition body, step.action ≠ .guard condition body) →
      step.Tried ctx s number before t → step.Attempts ctx ctx' opening closing →
      ((step.action.run step.id ctx').on t).Follows during (.pure (.ok reached, u)) →
      ((runSequence (step :: rest) ctx last).on s).Follows
        (before ++ (opening ++ during ++ closing) ++
          [step.recorded ctx .completed number (.ok reached),
            ⟨.endSpan ctx step.id .completed, closed⟩])
        ((runSequence rest ctx reached.output).on (u.recordOutput step.id reached.output)) := by
  have hall {pre : List Step} {ctx : Context} {last v : Json} {s t s' : Scope}
      {before deeds : List Deed} (hpasses : Passes ctx pre last s before v t)
      (hleaves : g.Leaves condition body ctx t deeds s') (post : List Step) :
      ((runSequence (pre ++ g :: post) ctx last).on s).Follows (before ++ deeds)
        (.pure (.ok (.bool false), s')) :=
    (hpasses.follows _).append (hleaves.follows hg post v)
  refine ⟨fun ctx s s' deeds v => Step.leaves_iff hg, fun pre post ctx last v s t s' before deeds
      hpasses hleaves => ⟨hall hpasses hleaves [], hall hpasses hleaves post⟩,
    fun pre post ctx last s s' deeds h => Step.follows_of_guard hg h post,
    fun α p pre post ctx v s t s' outer before deeds finish hencloses hpasses hleaves => ?_,
    fun step rest ctx ctx' last s t u number before opening during closing reached closed hstep tried
      attempts ran => tried.goes_on hstep attempts ran closed rest last⟩
  exact hencloses.follows (hall hpasses hleaves post)

/-- The body of a loop is left in its first iteration, after a write to the flow scope, and the second
iteration begins. -/
theorem guard_leaves_only_its_sequence_looped : ∃ (g : Step) (rest : List Step) (ctx : Context)
    (condition : Expr) (body : List Step) (s s' : Scope) (deeds : List Deed),
    g.action = .guard condition body ∧ Control.evalCondition condition s = .ok false ∧ rest ≠ [] ∧
    ((times none (runSequence (g :: rest) ctx .null) 2 1 []).on s).Follows deeds
      ((times none (runSequence (g :: rest) ctx .null) 1 2 [.bool false]).on s') ∧
    s.lookup? "seen" = some (.bool false) ∧ s'.lookup? "seen" = some (.bool true) := by
  let body := [Step.mk "set" (.assign "seen" (.literal (.bool true)) false) none none]
  let g := Step.mk "check" (.guard (.var "seen") body) none none
  let rest := [Step.mk "tell" (.script (.var "seen") none) none none]
  let ctx : Context := ⟨0, .root 0, none⟩
  let s := Scope.ofBindings [("seen", .bool false)]
  have hset : ((runSequence body ctx .null).on (s.push .loopIteration)).Follows
      [⟨.isCancelled ctx.token, false⟩, ⟨.startSpan ctx "set", .ok ()⟩,
        ⟨.note 0 (.record ⟨"set", "set-variable", .completed, 1, none⟩), ()⟩,
        ⟨.endSpan ctx "set" .completed, .ok ()⟩] (.pure (.ok (.bool true), _)) :=
    .deed (.deed (.deed (.deed (.start _))))
  have hleaves : g.Leaves (.var "seen") body ctx (s.push .loopIteration) _ _ :=
    .last (.first (.ok ())) (.free rfl) rfl hset (.ok ())
  have hg : g.action = .guard (.var "seen") body := rfl
  obtain ⟨-, -, -, hencloses, -⟩ := guard_leaves_only_its_sequence hg
  exact ⟨g, rest, ctx, .var "seen", body, s, _, _, hg, rfl, List.cons_ne_nil _ _,
    hencloses _ _ [] rest ctx _ _ _ _ _ _ _ _ (.time none 1 1 [] s) (.nil _ _) hleaves, rfl, rfl⟩

end FlowEngine
