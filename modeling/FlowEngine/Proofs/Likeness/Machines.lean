import FlowEngine.Machine.System
import FlowEngine.Proofs.Likeness.Programs
import FlowEngine.Proofs.Machine.Clocks
import Mathlib.Data.List.Map2

/-!
# Machines that are alike

Two machines are alike when one of them is the other one with other numbers, up to what makes no
difference. A machine that is ahead may have branches, runs and cancelled tokens from before, which
nothing refers to any more. Whatever is done to both of them keeps them alike.
-/
namespace FlowEngine

/-! ## Arrays with something in front -/

/-- The second array has some elements in front, and after them elements that are related to those
of the first one. -/
structure Ahead {α β : Type} (R : α → β → Prop) (k : Nat) (a : Array α) (a' : Array β) : Prop where
  size : a'.size = a.size + k
  get (i : Nat) : Option.Rel R a[i]? a'[i + k]?

namespace Ahead

variable {α β : Type} {R : α → β → Prop} {k : Nat} {a : Array α} {a' : Array β}

theorem empty (R : α → β → Prop) (a' : Array β) : Ahead R a'.size #[] a' where
  size := (Nat.zero_add _).symm
  get i := by simp

theorem push (h : Ahead R k a a') {x : α} {y : β} (hxy : R x y) :
    Ahead R k (a.push x) (a'.push y) where
  size := by simp only [Array.size_push, h.size]; omega
  get i := by
    rw [Array.getElem?_push, Array.getElem?_push, h.size]
    by_cases hi : i = a.size
    · rw [if_pos hi, if_pos (by omega)]
      exact .some hxy
    · rw [if_neg hi, if_neg (by omega)]
      exact h.get i

theorem modify (h : Ahead R k a a') {i : Nat} {f : α → α} {g : β → β}
    (hfg : ∀ x y, R x y → R (f x) (g y)) : Ahead R k (a.modify i f) (a'.modify (i + k) g) where
  size := by simp only [Array.size_modify, h.size]
  get j := by
    rw [Array.getElem?_modify, Array.getElem?_modify]
    have hj := h.get j
    by_cases hij : i = j
    · rw [if_pos hij, if_pos (by omega)]
      generalize a[j]? = x, a'[j + k]? = y at hj
      cases hj with
      | none => exact .none
      | some hxy => exact .some (hfg _ _ hxy)
    · rw [if_neg hij, if_neg (by omega)]
      exact hj

end Ahead

/-! ## Gates -/

namespace Shift

variable (d : Shift) (g : Gate TaskId) (t : TaskId)

theorem tryAcquire?_gate : (d.gate g).tryAcquire? = g.tryAcquire?.map d.gate := by
  unfold Gate.tryAcquire?
  by_cases hfree : g.free = 0
  · rw [if_pos hfree, if_pos (show (d.gate g).free = 0 from hfree)]
    rfl
  · rw [if_neg hfree, if_neg (show (d.gate g).free ≠ 0 from hfree)]
    rfl

theorem enqueue_gate : (d.gate g).enqueue (d.task t) = d.gate (g.enqueue t) := by
  simp [Gate.enqueue, gate]

theorem mem_map_task {l : List TaskId} : d.task t ∈ l.map d.task ↔ t ∈ l :=
  List.mem_map_of_injective d.task_injective

theorem erase_map_task (l : List TaskId) :
    (l.map d.task).erase (d.task t) = (l.erase t).map d.task :=
  (List.map_erase d.task_injective l).symm

theorem claim?_gate : (d.gate g).claim? (d.task t) = (g.claim? t).map d.gate := by
  unfold Gate.claim?
  simp only [gate, mem_map_task, erase_map_task]
  split <;> rfl

theorem release_gate : (d.gate g).release = (d.gate g.release.1, g.release.2.map d.task) := by
  unfold Gate.release
  cases hw : g.waiting with
  | nil => simp [gate, hw]
  | cons t rest => simp [gate, hw]

theorem withdraw_gate :
    (d.gate g).withdraw (d.task t) = (d.gate (g.withdraw t).1, (g.withdraw t).2.map d.task) := by
  unfold Gate.withdraw
  rw [claim?_gate]
  cases g.claim? t with
  | none => simp [gate, erase_map_task]
  | some g' => exact release_gate d g'

end Shift

/-! ## Machines -/

inductive TaskState.Like (v : Likeness) {α β : Type} (R : α → β → Prop) :
    TaskState α → TaskState β → Prop where
  | active {p : Program α} {p' : Program β} (w : Wait) (programs : Program.Like v R p p') :
      Like v R (.active p w) (.active p' (v.shift.wait w))
  | ended {a : α} {b : β} (order : Nat) (related : R a b) :
      Like v R (.ended a order) (.ended b (v.shift.moved order))

structure Task.Like (v : Likeness) (t t' : Task (Except Failure Json)) : Prop where
  state : TaskState.Like v Eq t.state t'.state
  waiter : t'.waiter = t.waiter.map v.shift.task

structure ActiveRun.Like (d : Shift) (r r' : ActiveRun) : Prop where
  gate : r'.gate = d.gate r.gate
  slot : r'.slot = r.slot
  stragglers : r'.stragglers = r.stragglers.map (· + d.branches)
  journal : r'.journal = r.journal

def Likeness.Disturbed (v : Likeness) (m : Machine) : Prop :=
  ∃ token, v.expects token ∧ v.shift.stale token = false ∧ m.isCancelled token = true

namespace Machine

structure Like (v : Likeness) (m m' : Machine) : Prop where
  world : v.worlds m.world m'.world
  maxConcurrency : m'.maxConcurrency = m.maxConcurrency
  now : m'.now = m.now + v.shift.time
  next : m'.next = m.next + v.shift.number + v.shift.gap
  resumed : v.shift.resumes ≤ m.next
  cancelled : m'.cancelled.filter (fun c => !v.shift.stale c) = m.cancelled.map v.shift.token
  observers : m'.observers = m.observers.map fun p => (v.shift.token p.1, v.shift.task p.2)
  timers : m'.timers.filter (fun x => !v.shift.skips x.number) = m.timers.map v.shift.timer
  foreign {x : Timer} : x ∈ m'.timers → v.shift.skips x.number = true →
    ∃ token, x.alarm = .cancel token ∧ v.expects token
  ready : m'.ready = m.ready.map v.shift.task
  mainReady : m'.mainReady = m.mainReady
  running : m'.running = m.running.map v.shift.task
  branches : Ahead (Task.Like v) v.shift.branches m.branches m'.branches
  submissions : m.submissions = #[] ∧ m'.submissions = #[]
  runs : Ahead (ActiveRun.Like v.shift) v.shift.runs m.runs m'.runs

/-- A mark changes nothing but the spans that are kept of a run. -/
theorem exists_mark (m : Machine) (run : Nat) (step : String) (status : Option StepStatus) :
    ∃ f : ActiveRun → ActiveRun, (∀ r, f r = { r with spans := (f r).spans }) ∧
      (m.mark run step status).2 = m.modifyRun run f := by
  have hsame : m = m.modifyRun run id := by
    have hruns : m.runs.modify run id = m.runs := by
      ext i
      · exact Array.size_modify
      · simp [Array.getElem_modify]
    rw [modifyRun, hruns]
  unfold mark
  split
  · exact ⟨_, fun _ => rfl, rfl⟩
  · exact ⟨id, fun _ => rfl, hsame⟩
  · exact ⟨id, fun _ => rfl, hsame⟩

namespace Like

variable {v : Likeness} {m m' : Machine} (h : m.Like v m')
include h

/-! ### Tasks -/

theorem wake (t : TaskId) : (m.wake t).Like v (m'.wake (v.shift.task t)) := by
  have hready (t : TaskId) : Machine.Like v
      (if t ∈ m.ready then m else { m with ready := m.ready ++ [t] })
      (if v.shift.task t ∈ m'.ready then m'
        else { m' with ready := m'.ready ++ [v.shift.task t] }) := by
    by_cases ht : t ∈ m.ready
    · rw [if_pos ht, if_pos (h.ready ▸ (v.shift.mem_map_task t).mpr ht)]
      exact h
    · rw [if_neg ht, if_neg (h.ready ▸ (v.shift.mem_map_task t).not.mpr ht)]
      exact { h with ready := by simp [h.ready] }
  cases t with
  | main => exact { h with mainReady := rfl }
  | branch number => exact hready (.branch number)
  | submission number => exact hready (.submission number)

theorem wakeIfSome (t : Option TaskId) :
    (m.wakeIfSome t).Like v (m'.wakeIfSome (t.map v.shift.task)) := by
  cases t with
  | none => exact h
  | some t => exact h.wake t

omit h in
theorem spawn (h : m.Like v m') {programs programs' : List (Program (Except Failure Json))}
    (hp : List.Forall₂ (Program.Like v Eq) programs programs') :
    (m'.spawn programs').1 = (m.spawn programs).1.map (· + v.shift.branches) ∧
      (m.spawn programs).2.Like v (m'.spawn programs').2 := by
  induction hp generalizing m m' with
  | nil => exact ⟨rfl, h⟩
  | @cons p p' rest rest' hp _ ih =>
      have hpushed : Machine.Like v { m with branches := m.branches.push (.new p) }
          { m' with branches := m'.branches.push (.new p') } :=
        { h with branches := h.branches.push ⟨.active .fresh hp, rfl⟩ }
      have hwoken := hpushed.wake (.branch m.branches.size)
      rw [Shift.task, ← h.branches.size] at hwoken
      obtain ⟨hnumbers, hlike⟩ := ih hwoken
      refine ⟨?_, hlike⟩
      simp only [Machine.spawn, List.map_cons, h.branches.size] at hnumbers ⊢
      rw [hnumbers]

theorem setWaiter (waiter : Option TaskId) (number : Nat) : (m.setWaiter waiter number).Like v
    (m'.setWaiter (waiter.map v.shift.task) (number + v.shift.branches)) :=
  { h with
    branches := h.branches.modify (f := fun task => { task with waiter })
      (g := fun task => { task with waiter := waiter.map v.shift.task })
      fun _ _ ht => ⟨ht.state, rfl⟩ }

omit h in
theorem setWaiters (h : m.Like v m') (waiter : Option TaskId) (numbers : List Nat) :
    (m.setWaiters waiter numbers).Like v
      (m'.setWaiters (waiter.map v.shift.task) (numbers.map (· + v.shift.branches))) := by
  induction numbers generalizing m m' with
  | nil => exact h
  | cons number rest ih => exact ih (h.setWaiter waiter number)

theorem branchResult? (number : Nat) : m'.branchResult? (number + v.shift.branches) =
    (m.branchResult? number).map fun r => (r.1, v.shift.moved r.2) := by
  unfold Machine.branchResult?
  have htask := h.branches.get number
  revert htask
  generalize m.branches[number]? = a, m'.branches[number + v.shift.branches]? = a'
  rintro (⟨htask⟩ | -)
  · obtain ⟨hstate, -⟩ := htask
    rename_i t t'
    obtain ⟨state, waiter⟩ := t
    obtain ⟨state', waiter'⟩ := t'
    cases hstate with
    | active w programs => rfl
    | ended order related => exact congrArg (fun a => some (a, v.shift.moved order)) related.symm
  · rfl

/-! ### Tokens and timers -/

theorem moved_next : m'.next = v.shift.moved m.next :=
  h.next.trans (v.shift.moved_of_le h.resumed).symm

theorem count : Machine.Like v { m with next := m.next + 1 } { m' with next := m'.next + 1 } :=
  { h with
    next := by
      change m'.next + 1 = m.next + 1 + v.shift.number + v.shift.gap
      rw [h.next]
      omega
    resumed := Nat.le_succ_of_le h.resumed }

theorem newToken : m'.newToken.1 = v.shift.token m.newToken.1 ∧ m.newToken.2.Like v m'.newToken.2 :=
  ⟨congrArg Token.root h.moved_next, h.count⟩

theorem childToken (t : Token) :
    (m'.childToken (v.shift.token t)).1 = v.shift.token (m.childToken t).1 ∧
    (m.childToken t).2.Like v (m'.childToken (v.shift.token t)).2 :=
  ⟨congrArg (Token.child _) h.moved_next, h.count⟩

theorem isCancelled (t : Token) : m'.isCancelled (v.shift.token t) = m.isCancelled t := by
  have hall : m'.isCancelled (v.shift.token t) =
      (m'.cancelled.filter fun c => !v.shift.stale c).any fun c => c.covers (v.shift.token t) := by
    rw [List.any_filter]
    refine congrArg (fun f => m'.cancelled.any f) (funext fun c => ?_)
    cases hstale : v.shift.stale c with
    | true => rw [v.shift.not_covers_of_stale hstale]; rfl
    | false => exact (Bool.true_and _).symm
  rw [hall, h.cancelled, List.any_map]
  exact congrArg (fun f => m.cancelled.any f) (funext fun c => v.shift.covers_token c t)

theorem observe (token : Token) (t : TaskId) :
    (m.observe token t).Like v (m'.observe (v.shift.token token) (v.shift.task t)) := by
  have hlisted : (m'.observers.any fun p => p.2 = v.shift.task t) =
      m.observers.any fun p => p.2 = t := by
    rw [h.observers, List.any_map]
    exact congrArg (fun f => m.observers.any f) (funext fun p => by
      simp [v.shift.task_injective.eq_iff])
  unfold Machine.observe
  rw [hlisted]
  split
  · exact h
  · exact { h with observers := by simp [h.observers] }

theorem forget (t : TaskId) : (m.forget t).Like v (m'.forget (v.shift.task t)) :=
  { h with
    observers := by
      simp only [Machine.forget, h.observers, List.filter_map]
      congr 1
      refine List.filter_congr fun p _ => ?_
      simp [v.shift.task_injective.eq_iff] }

theorem cancel (token : Token) : (m.cancel token).Like v (m'.cancel (v.shift.token token)) := by
  have hfold {m m' : Machine} (h : m.Like v m') (released : List (Token × TaskId)) :
      (released.foldl (fun m p => m.wake p.2) m).Like v
        ((released.map fun p => (v.shift.token p.1, v.shift.task p.2)).foldl (fun m p => m.wake p.2)
          m') := by
    induction released generalizing m m' with
    | nil => exact h
    | cons p rest ih => exact ih (h.wake p.2)
  unfold Machine.cancel
  simp only [List.partition_eq_filter_filter, h.observers, List.filter_map]
  have hcovers (p : Token × TaskId) :
      (v.shift.token token).covers (v.shift.token p.1) = token.covers p.1 :=
    v.shift.covers_token token p.1
  simp only [Function.comp_def, hcovers]
  refine hfold ?_ _
  exact { h with
    cancelled := by simp [v.shift.stale_token, h.cancelled]
    observers := rfl }

/-- When the other machine cancels a token of its own, nobody notices. -/
theorem cancel_stale {token : Token} (hstale : v.shift.stale token = true) :
    m.Like v (m'.cancel token) := by
  have hnone : m'.observers.partition (fun p => token.covers p.1) = ([], m'.observers) := by
    have hall : ∀ p ∈ m'.observers, token.covers p.1 = false := by
      intro p hp
      rw [h.observers] at hp
      obtain ⟨q, -, rfl⟩ := List.mem_map.mp hp
      exact v.shift.not_covers_of_stale hstale q.1
    rw [List.partition_eq_filter_filter]
    refine Prod.ext (List.filter_eq_nil_iff.mpr fun p hp => ?_)
      (List.filter_eq_self.mpr fun p hp => ?_)
    · simp [hall p hp]
    · simp [hall p hp]
  unfold Machine.cancel
  rw [hnone]
  exact { h with cancelled := by simp [hstale, h.cancelled] }

theorem schedule (span : Nat) (alarm : Alarm) :
    (m'.schedule span (v.shift.alarm alarm)).1 = v.shift.moved (m.schedule span alarm).1 ∧
      (m.schedule span alarm).2.Like v (m'.schedule span (v.shift.alarm alarm)).2 := by
  refine ⟨h.moved_next, { h.count with timers := ?_, foreign := fun {x} hx hskips => ?_ }⟩
  · simp only [Machine.schedule, List.filter_append, h.timers, List.map_append, List.map_cons,
      List.map_nil, List.filter_cons, List.filter_nil, Shift.timer, h.moved_next, h.now,
      v.shift.skips_moved, Nat.add_right_comm, Bool.not_false, if_true]
  · rcases List.mem_append.mp hx with hx | hx
    · exact h.foreign hx hskips
    · rw [List.mem_singleton.mp hx, h.moved_next, v.shift.skips_moved] at hskips
      cases hskips

/-- A property of timers with numbers that both machines use is tested on the common timers. -/
theorem any_timers {f : Timer → Bool} {g : Timer → Bool}
    (hf : ∀ x, v.shift.skips x.number = true → f x = false)
    (hfg : ∀ x, f (v.shift.timer x) = g x) : m'.timers.any f = m.timers.any g := by
  have hall : m'.timers.any f = (m'.timers.filter fun x => !v.shift.skips x.number).any f := by
    rw [List.any_filter]
    refine congrArg (fun f => m'.timers.any f) (funext fun x => ?_)
    cases hskips : v.shift.skips x.number with
    | true => rw [hf x hskips]; rfl
    | false => exact (Bool.true_and _).symm
  rw [hall, h.timers, List.any_map]
  exact congrArg (fun f => m.timers.any f) (funext hfg)

theorem isPending (number : Nat) : m'.isPending (v.shift.moved number) = m.isPending number := by
  refine h.any_timers (fun x hskips => decide_eq_false fun hx => ?_) fun x => ?_
  · rw [hx, v.shift.skips_moved] at hskips
    cases hskips
  · simp [Shift.timer, v.shift.moved_inj]

theorem stopTimer (number : Nat) :
    (m.stopTimer number).Like v (m'.stopTimer (v.shift.moved number)) :=
  { h with
    timers := by
      simp only [Machine.stopTimer]
      rw [List.filter_comm, h.timers, List.filter_map]
      congr 1
      refine List.filter_congr fun x _ => ?_
      simp [Shift.timer, v.shift.moved_inj]
    foreign := fun hx => h.foreign (List.mem_filter.mp hx).1 }

theorem ring (alarm : Alarm) : (m.ring alarm).Like v (m'.ring (v.shift.alarm alarm)) := by
  cases alarm with
  | wake t => exact h.wake t
  | cancel token => exact h.cancel token

/-! ### The clock -/

omit h in
/-- Timers fire alike, and those of the other machine alone go unnoticed, unless they cancel a token
that makes a difference. -/
theorem rings (h : m.Like v m') {fired fired' : List Timer}
    (hfired : fired'.filter (fun x => !v.shift.skips x.number) = fired.map v.shift.timer)
    (foreign : ∀ x ∈ fired', v.shift.skips x.number = true →
      ∃ token, x.alarm = .cancel token ∧ v.expects token) :
    (fired.foldl (fun m x => m.ring x.alarm) m).Like v
        (fired'.foldl (fun m x => m.ring x.alarm) m') ∨
      v.Disturbed (fired'.foldl (fun m x => m.ring x.alarm) m') := by
  induction fired' generalizing fired m m' with
  | nil =>
      obtain rfl := List.map_eq_nil_iff.mp hfired.symm
      exact Or.inl h
  | cons x rest ih =>
      have hrest := fun y hy => foreign y (List.mem_cons_of_mem x hy)
      cases hskips : v.shift.skips x.number with
      | true =>
          rw [List.filter_cons_of_neg (by simp [hskips])] at hfired
          obtain ⟨token, halarm, hexpects⟩ := foreign x List.mem_cons_self hskips
          cases hstale : v.shift.stale token with
          | true =>
              rw [List.foldl_cons, halarm]
              exact ih (h.cancel_stale hstale) hfired hrest
          | false =>
              exact Or.inr ⟨token, hexpects, hstale,
                Machine.isCancelled_rings _ _ (Or.inr ⟨x, List.mem_cons_self, halarm⟩)⟩
      | false =>
          rw [List.filter_cons_of_pos (by simp [hskips])] at hfired
          obtain ⟨y, later, rfl, rfl, hlater⟩ := List.map_eq_cons_iff.mp hfired.symm
          exact ih (h.ring y.alarm) hlater.symm hrest

/-- When the clocks move to the same moment, the machines are alike again. -/
theorem advanceClock?_of_due {due : Nat} (hdue : m.nextDue? = some due)
    (hdue' : m'.nextDue? = some (due + v.shift.time)) : ∃ n n', m.advanceClock? = some n ∧
      m'.advanceClock? = some n' ∧ (n.Like v n' ∨ v.Disturbed n') := by
  have hmoment (x : Timer) :
      decide ((v.shift.timer x).due = due + v.shift.time) = decide (x.due = due) := by
    simp [Shift.timer]
  have hsplit (f g : Timer → Bool) (hfg : ∀ x, f (v.shift.timer x) = g x) :
      (m'.timers.filter f).filter (fun x => !v.shift.skips x.number) =
        (m.timers.filter g).map v.shift.timer := by
    rw [List.filter_comm, h.timers, List.filter_map]
    exact congrArg _ (List.filter_congr fun x _ => hfg x)
  unfold Machine.advanceClock?
  simp only [hdue, hdue', Option.bind_eq_bind, Option.bind_some, List.partition_eq_filter_filter]
  refine ⟨_, _, rfl, rfl, rings ?_ (hsplit _ _ hmoment) fun x hx =>
    h.foreign (List.mem_filter.mp hx).1⟩
  exact { h with
    now := rfl
    timers := hsplit _ _ fun x => congrArg (!·) (hmoment x)
    foreign := fun hx => h.foreign (List.mem_filter.mp hx).1 }

/-- When no timers of the other machine alone are expected, there are none. -/
theorem timers_eq (alone : ∀ token, ¬ v.expects token) :
    m'.timers = m.timers.map v.shift.timer := by
  rw [← h.timers]
  refine (List.filter_eq_self.mpr fun x hx => ?_).symm
  cases hskips : v.shift.skips x.number with
  | false => rfl
  | true =>
      obtain ⟨token, -, hexpects⟩ := h.foreign hx hskips
      exact absurd hexpects (alone token)

/-- Without timers of the other machine alone the clocks move alike. -/
theorem advanceClock? (alone : ∀ token, ¬ v.expects token) :
    Option.Rel (Like v) m.advanceClock? m'.advanceClock? := by
  have hmin (l : List Nat) (n : Nat) : (l.map (· + v.shift.time)).foldl min (n + v.shift.time) =
      l.foldl min n + v.shift.time := by
    induction l generalizing n with
    | nil => rfl
    | cons k rest ih =>
        rw [List.map_cons, List.foldl_cons, List.foldl_cons, ← ih]
        congr 1
        omega
  have hnext : m'.nextDue? = m.nextDue?.map (· + v.shift.time) := by
    unfold Machine.nextDue?
    rw [h.timers_eq alone, List.map_map]
    cases m.timers with
    | nil => rfl
    | cons x rest =>
        have := hmin (rest.map Timer.due) x.due
        rw [List.map_map] at this
        exact congrArg some this
  cases hdue : m.nextDue? with
  | none =>
      rw [hdue] at hnext
      unfold Machine.advanceClock?
      rw [hdue, hnext]
      exact .none
  | some due =>
      obtain ⟨n, n', hn, hn', hlike | ⟨token, hexpects, -⟩⟩ :=
        h.advanceClock?_of_due hdue (by rw [hnext, hdue]; rfl)
      · rw [hn, hn']
        exact .some hlike
      · exact absurd hexpects (alone token)

/-! ### Runs -/

theorem modifyRun (run : Nat) {f g : ActiveRun → ActiveRun}
    (hfg : ∀ r r', r.Like v.shift r' → (f r).Like v.shift (g r')) :
    (m.modifyRun run f).Like v (m'.modifyRun (run + v.shift.runs) g) :=
  { h with runs := h.runs.modify hfg }

theorem openRun (flow : String) (parent : Token) :
    (m'.openRun flow (v.shift.token parent)).1 =
        ((m.openRun flow parent).1.1 + v.shift.runs, v.shift.token (m.openRun flow parent).1.2) ∧
      (m.openRun flow parent).2.Like v (m'.openRun flow (v.shift.token parent)).2 := by
  obtain ⟨htoken, hlike⟩ := h.childToken parent
  refine ⟨Prod.ext h.runs.size htoken, { hlike with runs := hlike.runs.push ⟨?_, rfl, rfl, rfl⟩ }⟩
  exact congrArg Gate.new hlike.maxConcurrency

theorem note (run : Nat) (entry : Entry) :
    (m.note run entry).Like v (m'.note (run + v.shift.runs) entry) :=
  h.modifyRun run fun _ _ hr => { hr with journal := by simp only [hr.journal] }

theorem mark (run : Nat) (step : String) (status : Option StepStatus) :
    (m.mark run step status).2.Like v (m'.mark (run + v.shift.runs) step status).2 := by
  obtain ⟨f, hf, hm⟩ := m.exists_mark run step status
  obtain ⟨g, hg, hm'⟩ := m'.exists_mark (run + v.shift.runs) step status
  rw [hm, hm']
  refine h.modifyRun run fun r r' hr => ?_
  rw [hf, hg]
  exact ⟨hr.gate, hr.slot, hr.stragglers, hr.journal⟩

theorem adopt (run : Nat) (tasks : List Nat) :
    (m.adopt run tasks).Like v (m'.adopt (run + v.shift.runs) (tasks.map (· + v.shift.branches))) :=
  h.modifyRun run fun _ _ hr => { hr with stragglers := by simp [hr.stragglers] }

theorem takeStragglers (run : Nat) :
    (m'.takeStragglers (run + v.shift.runs)).1 =
        (m.takeStragglers run).1.map (· + v.shift.branches) ∧
      (m.takeStragglers run).2.Like v (m'.takeStragglers (run + v.shift.runs)).2 := by
  refine ⟨?_, h.modifyRun run fun _ _ hr => { hr with stragglers := rfl }⟩
  have hrun := h.runs.get run
  simp only [Machine.takeStragglers]
  revert hrun
  generalize m.runs[run]? = a, m'.runs[run + v.shift.runs]? = a'
  rintro (⟨hrun⟩ | -)
  · exact hrun.stragglers
  · rfl

end Like
end Machine
end FlowEngine
