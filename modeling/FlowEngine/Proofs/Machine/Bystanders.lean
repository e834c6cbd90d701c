import FlowEngine.Proofs.Machine.Polls

/-!
# What polls leave alone

Whoever waits for branches starts them, is told when they end, observes a token, and leaves branches
to a run or takes them from it. Most readings of a machine do not depend on any of that, and so they
are the same after a join or a settle has been polled.

A request or a wait for time is made of a few operations, and what only writes to runs and to the
world of fewer still. A relation between machines that holds across these operations holds across
the polls.
-/
namespace FlowEngine

namespace Gate

variable {ι : Type} {g g' : Gate ι}

theorem tryAcquire?_eq_some : g.tryAcquire? = some g' ↔
    g.free ≠ 0 ∧ { g with free := g.free - 1 } = g' := by
  simp [tryAcquire?]

theorem tryAcquire?_eq_none : g.tryAcquire? = none ↔ g.free = 0 := by
  simp [tryAcquire?]

variable [DecidableEq ι] {i : ι}

theorem claim?_eq_some : g.claim? i = some g' ↔
    i ∈ g.granted ∧ { g with granted := g.granted.erase i } = g' := by
  simp [claim?]

theorem claim?_eq_none : g.claim? i = none ↔ i ∉ g.granted := by
  simp [claim?]

end Gate

def Effect.clerical : Effect → Bool
  | .isCancelled _ | .note _ _ | .beginTransaction _ | .releaseTransaction _ _
  | .discardSnapshot _ | .restoreSnapshot _ | .closeRun _ _ _ => true
  | _ => false

namespace Machine

/-! ## Joins and settling -/

variable {α : Type} {f : Machine → α}

def Settling.machine : Settling → Machine
  | settled _ m => m
  | interrupted m => m
  | waiting _ _ m => m

/-- A reading of machines that depends neither on branches nor on who waits under a token. -/
structure Bystander (f : Machine → α) : Prop where
  observers (m : Machine) (observers : List (Token × TaskId)) : f { m with observers } = f m
  branches (m : Machine) (branches : Array (Task (Except Failure Json))) :
    f { m with branches } = f m
  stragglers (m : Machine) (run : Nat) (g : List Nat → List Nat) :
    f (m.modifyRun run fun r => { r with stragglers := g r.stragglers }) = f m

namespace Bystander

theorem observe (h : Bystander f) (m : Machine) (token : Token) (t : TaskId) :
    f (m.observe token t) = f m := by
  unfold Machine.observe
  split
  · rfl
  · exact h.observers m _

theorem setWaiters (h : Bystander f) (m : Machine) (waiter : Option TaskId) (numbers : List Nat) :
    f (m.setWaiters waiter numbers) = f m := by
  induction numbers generalizing m with
  | nil => rfl
  | cons number rest ih => exact (ih _).trans (h.branches m _)

theorem settleList (h : Bystander f) (m : Machine) (me : TaskId) (run : Nat) (token : Option Token)
    (tasks : List Nat) (count : Nat) : f (settleList me run token tasks count m).machine = f m := by
  induction tasks generalizing m count with
  | nil => rfl
  | cons n rest ih =>
      have hforget : f (m.forget me) = f m := h.observers m _
      unfold Machine.settleList
      split
      · exact (h.stragglers _ run (· ++ n :: rest)).trans ((h.branches _ _).trans hforget)
      · split
        · exact (ih _ _).trans hforget
        · have hwaiter : f (m.setWaiter (some me) n) = f m := h.branches m _
          cases token with
          | none => exact hwaiter
          | some token => exact (h.observe _ token me).trans hwaiter

theorem settleRun (h : Bystander f) (m : Machine) (me : TaskId) (run : Nat) (token : Option Token)
    (tasks : List Nat) (count : Nat) : f (m.settleRun me run token tasks count).machine = f m := by
  have hlist := h.settleList m me run token tasks count
  unfold Machine.settleRun
  cases hs : Machine.settleList me run token tasks count m with
  | settled count m' =>
      rw [hs] at hlist
      have htake : f (m'.takeStragglers run).2 = f m' := h.stragglers m' run fun _ => []
      exact (h.settleList _ me run token _ count).trans (htake.trans hlist)
  | _ =>
      rw [hs] at hlist
      exact hlist

theorem pollSettle (h : Bystander f) (m : Machine) (me : TaskId) (run : Nat) (token : Option Token)
    (wait : Wait) : f (m.pollSettle me run token wait).machine = f m := by
  unfold Machine.pollSettle
  split
  rename_i tasks count _
  have hrun := h.settleRun m me run token tasks count
  cases hs : m.settleRun me run token tasks count <;>
    · rw [hs] at hrun
      exact hrun

end Bystander

structure Outsider (f : Machine → α) : Prop extends Bystander f where
  wake (m : Machine) (t : TaskId) : f (m.wake t) = f m

namespace Outsider

theorem spawn (h : Outsider f) (m : Machine) (programs : List (Program (Except Failure Json))) :
    f (m.spawn programs).2 = f m := by
  induction programs generalizing m with
  | nil => rfl
  | cons p rest ih => exact (ih _).trans ((h.wake _ _).trans (h.branches m _))

theorem cancel (h : Outsider f) (hcancelled : ∀ m cancelled, f { m with cancelled } = f m)
    (m : Machine) (token : Token) : f (m.cancel token) = f m := by
  have hfold (released : List (Token × TaskId)) (m' : Machine) :
      f (released.foldl (fun m p => m.wake p.2) m') = f m' := by
    induction released generalizing m' with
    | nil => rfl
    | cons p rest ih => exact (ih _).trans (h.wake m' p.2)
  have hmarked : f { m with cancelled := token :: m.cancelled } = f m := hcancelled m _
  exact (hfold _ _).trans ((h.observers { m with cancelled := token :: m.cancelled } _).trans hmarked)

theorem ring (h : Outsider f) (hcancelled : ∀ m cancelled, f { m with cancelled } = f m)
    (m : Machine) (alarm : Alarm) : f (m.ring alarm) = f m := by
  cases alarm with
  | wake t => exact h.wake m t
  | cancel token => exact h.cancel hcancelled m token

theorem rings (h : Outsider f) (hcancelled : ∀ m cancelled, f { m with cancelled } = f m)
    (m : Machine) (fired : List Timer) : f (fired.foldl (fun m t => m.ring t.alarm) m) = f m := by
  induction fired generalizing m with
  | nil => rfl
  | cons t rest ih => exact (ih _).trans (h.ring hcancelled m t.alarm)

/-- A join cancels a scope under the fail-fast policy only. -/
theorem pollJoin (h : Outsider f) (policy : JoinPolicy)
    (hcancel : policy = .failFast → ∀ m token, f (Machine.cancel m token) = f m) (m : Machine)
    (me : TaskId) (run : Nat) (group : Token) (branches : List Branch) (wait : Wait) :
    f (m.pollJoin me run policy group branches wait).machine = f m := by
  unfold Machine.pollJoin
  cases wait with
  | branches tasks =>
      dsimp only
      unfold checkJoin
      split
      · exact (h.stragglers _ run (· ++ _)).trans ((h.setWaiters _ none _).trans (hcancel rfl m group))
      · unfold gather
        split <;> rfl
  | _ =>
      dsimp only
      split
      · exact h.spawn m _
      · exact (h.setWaiters _ (some me) _).trans (h.spawn m _)

end Outsider

/-! ## Runs and the world -/

variable {R : Machine → Machine → Prop}

/-- A relation between machines that holds whatever is written to a run beside its gate and its
spans, and to the world beside the span sink. -/
structure Clerical (R : Machine → Machine → Prop) : Prop where
  refl (m : Machine) : R m m
  trans {m m' m'' : Machine} : R m m' → R m' m'' → R m m''
  modifyRun (m : Machine) (run : Nat) {f : ActiveRun → ActiveRun} (gate : ∀ r, (f r).gate = r.gate)
    (spans : ∀ r, (f r).spans = r.spans) : R m (m.modifyRun run f)
  modifyWorld (m : Machine) {f : World → World} (sink : ∀ w, (f w).sink = w.sink) :
    R m (m.modifyWorld f)

namespace Clerical

theorem setStore (h : Clerical R) (m : Machine) (store : ScriptedStore) : R m (m.setStore store) :=
  h.modifyWorld m fun _ => rfl

theorem setSlot (h : Clerical R) (m : Machine) (run : Nat) (slot : TransactionSlot) :
    R m (m.setSlot run slot) :=
  h.modifyRun m run (fun _ => rfl) fun _ => rfl

theorem hangUp (h : Clerical R) (m : Machine) (request : Request) : R m (m.hangUp request) := by
  cases request with
  | call route target inputs => exact h.modifyWorld m fun w => sink_setCollaborator w route _
  | record operation => exact h.refl m

theorem storeAnswer (h : Clerical R) (m : Machine) (r : Except EngineError ScriptedStore) :
    R m (m.storeAnswer r).machine := by
  cases r with
  | ok store => exact h.setStore m store
  | error e => exact h.refl m

theorem poll (h : Clerical R) (m : Machine) (me : TaskId) (wait : Wait) {e : Effect}
    (he : e.clerical = true) : R m (m.poll me wait e).machine := by
  cases e with
  | isCancelled token => exact h.refl m
  | note run entry => exact h.modifyRun m run (fun _ => rfl) fun _ => rfl
  | beginTransaction ctx =>
      unfold Machine.poll beginTransaction
      dsimp only
      split
      · exact h.trans (h.setSlot m ctx.run _) (h.setStore _ _)
      · exact h.refl m
  | releaseTransaction run handle =>
      unfold Machine.poll Machine.releaseTransaction
      dsimp only
      split
      · exact h.setSlot m run _
      · exact h.refl m
  | discardSnapshot handle => exact h.storeAnswer m _
  | restoreSnapshot handle => exact h.storeAnswer m _
  | closeRun run ending outputs =>
      unfold Machine.poll closeRun
      dsimp only
      split
      · exact h.refl m
      · exact h.modifyRun m run (fun _ => rfl) fun _ => rfl
  | _ => cases he

end Clerical

/-! ## Requests and waits for time -/

variable {me : TaskId}

structure Sleeper (R : Machine → Machine → Prop) (me : TaskId) : Prop extends Clerical R where
  forget (m : Machine) : R m (m.forget me)
  observe (m : Machine) (token : Token) : R m (m.observe token me)
  schedule (m : Machine) (span : Nat) : R m (m.schedule span (.wake me)).2
  stopTimer (m : Machine) (number : Nat) : R m (m.stopTimer number)

theorem Sleeper.pollSleep (h : Sleeper R me) (m : Machine) (token : Option Token) (span : Nat)
    (wait : Wait) : R m (m.pollSleep me token span wait).machine := by
  have hpoll := m.pollSleep_sleeps me token span wait
  generalize m.pollSleep me token span wait = polled at hpoll ⊢
  cases hpoll with
  | refused | instant | waits => exact h.refl m
  | interrupted => exact h.trans (h.stopTimer m _) (h.forget _)
  | starts =>
      cases token with
      | none => exact h.schedule m span
      | some token => exact h.trans (h.schedule m span) (h.observe _ token)
  | woken => exact h.forget m

/-- A relation between machines that holds across all that a request is made of, too. In the line for
a permit nobody but the task that is polled is new. -/
structure Errand (R : Machine → Machine → Prop) (me : TaskId) : Prop extends Sleeper R me where
  setGate (m : Machine) {run : Nat} {r : ActiveRun} {gate : Gate TaskId}
    (there : m.runs[run]? = some r) (line : ∀ t ∈ gate.waiting, t ∈ r.gate.waiting ∨ t = me) :
    R m (m.setGate run gate)
  releasePermit (m : Machine) (run : Nat) : R m (m.releasePermit run)
  withdraw (m : Machine) (run : Nat) : R m (m.withdraw run me)

namespace Errand

variable {run : Nat} {request : Request}

/-- Permits come and go by what is done to gates, and whoever is handed one is woken. -/
theorem of_wake (h : Sleeper R me) (wake : ∀ m t, R m (m.wake t))
    (setGate : ∀ m run gate, R m (m.setGate run gate)) : Errand R me := by
  have hwakes (m : Machine) (t : Option TaskId) : R m (m.wakeIfSome t) := by
    cases t with
    | none => exact h.refl m
    | some t => exact wake m t
  refine ⟨h, fun m _ _ _ _ _ => setGate m _ _, fun m run => ?_, fun m run => ?_⟩
  · unfold Machine.releasePermit
    split
    · exact h.refl m
    · exact h.trans (setGate m run _) (hwakes _ _)
  · unfold Machine.withdraw
    split
    · exact h.refl m
    · exact h.trans (setGate m run _) (hwakes _ _)

theorem answerRequest (h : Errand R me) (m : Machine) (outcome : Outcome) :
    R m (m.answerRequest me run request outcome).machine :=
  h.trans (h.trans (h.hangUp m request) (h.forget _)) (h.releasePermit _ run)

theorem abandonRequest (h : Errand R me) (m : Machine) (timer : Nat) :
    R m (m.abandonRequest me run request timer).machine :=
  h.trans (h.trans (h.trans (h.stopTimer m timer) (h.hangUp _ request)) (h.forget _))
    (h.releasePermit _ run)

theorem startRequest (h : Errand R me) (m : Machine) (token : Token) :
    R m (m.startRequest me run token request).machine := by
  have hbegins := m.startRequest_begins me run token request
  generalize m.startRequest me run token request = polled at hbegins ⊢
  cases hbegins with
  | answers sink outcome =>
      exact h.trans (h.trans (h.forget m) (h.modifyWorld _ sink)) (h.answerRequest _ outcome)
  | calls sink call span outcome =>
      have hcalled := h.trans (h.forget m) (h.modifyWorld _ sink)
      exact h.trans (h.trans hcalled (h.schedule _ span)) (h.observe _ token)
  | operates record span =>
      exact h.trans (h.trans (h.forget m) (h.schedule _ span)) (h.observe _ token)

theorem pollRequest (h : Errand R me) (m : Machine) (run : Nat) (token : Token) (request : Request)
    (wait : Wait) : R m (m.pollRequest me run token request wait).machine := by
  have hpoll := m.pollRequest_requests me run token request wait
  generalize m.pollRequest me run token request wait = polled at hpoll ⊢
  cases hpoll with
  | refused | queued | waits | unsuited => exact h.refl m
  | leaves => exact h.trans (h.withdraw m run) (h.forget _)
  | abandoned => exact h.abandonRequest m _
  | @starts _ r gate valid there taken =>
      refine h.trans (h.setGate m there fun t ht => Or.inl ?_) (h.startRequest _ token)
      rcases taken with ⟨-, hclaim⟩ | ⟨-, hfree⟩
      · obtain ⟨-, rfl⟩ := Gate.claim?_eq_some.mp hclaim
        exact ht
      · obtain ⟨-, rfl⟩ := Gate.tryAcquire?_eq_some.mp hfree
        exact ht
  | queues first valid there full =>
      refine h.trans (h.setGate m there fun t ht => ?_) (h.observe _ token)
      exact (List.mem_append.mp ht).imp_right List.mem_singleton.mp
  | replied => exact h.answerRequest m _
  | performed => exact h.trans (h.setStore m _) (h.answerRequest _ _)

end Errand

end Machine
end FlowEngine
