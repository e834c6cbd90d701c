import FlowEngine.Proofs.Execution.Effectwise
import FlowEngine.Proofs.Execution.Node
import FlowEngine.Proofs.Execution.Performing
import FlowEngine.Proofs.Machine.Clocks
import FlowEngine.Proofs.Run.Reporting
import FlowEngine.Proofs.Session.Course
import Mathlib.Logic.Hydra
import Mathlib.Tactic.Abel

/-!
# A machine comes to rest

Left to itself a machine makes finitely many steps. Each step takes something from what the tasks have
before them, or it fires timers, or somebody leaves the line of those that can go on: whoever is
polled in vain goes to sleep without waking others.
-/

/-!
## What is left of a program

Whatever the answers are, a program is closer to its end after each effect. The branches that it starts
are the programs of steps inside of its own steps, so each of them is less to do than the program. Both
together are a well-founded relation between the programs that tasks have before them.
-/
namespace FlowEngine

open Exec Execution

/-- A program that a task has before it. -/
structure Chore : Type 1 where
  {Result : Type}
  program : Program Result
  stage : Nat

/-- What is left of a program after an effect, a branch that it starts, and the program when more of
its first effect is done, are less to do than the program. -/
inductive Chore.Less : Chore → Chore → Prop where
  | answered {α : Type} {e : Effect} {next : e.Answer → Program α} (a : e.Answer) (m n : Nat) :
      Less ⟨next a, m⟩ ⟨.perform e next, n⟩
  | started {α : Type} {run : Nat} {policy : JoinPolicy} {group : Token} {bs : List Branch}
      {next : Except Failure (List BranchOutcome) → Program α} {b : Branch} (started : b ∈ bs)
      (m n : Nat) : Less ⟨b.program, m⟩ ⟨.perform (.join run policy group bs) next, n⟩
  | later {α : Type} {p : Program α} {m n : Nat} (less : m < n) : Less ⟨p, m⟩ ⟨p, n⟩

def Effect.Bounded : Effect → Prop
  | .join _ _ _ bs => ∀ b ∈ bs, ∀ n, Acc Chore.Less ⟨b.program, n⟩
  | _ => True

theorem Effect.Routine.bounded {e : Effect} (he : e.Routine) : e.Bounded := by
  cases e with
  | join run policy group bs => exact he.elim
  | _ => trivial

namespace Chore

variable {α : Type}

/-- A program comes to an end if the branches that it starts do. -/
theorem acc_of_performs {p : Program α} (hp : p.Performs Effect.Bounded) (n : Nat) :
    Acc Less ⟨p, n⟩ := by
  induction p generalizing n with
  | pure a =>
      induction n using Nat.strong_induction_on with
      | _ n ih =>
        refine ⟨_, fun c hc => ?_⟩
        cases hc with
        | later less => exact ih _ less
  | perform e next ih =>
      obtain ⟨he, hnext⟩ := Program.throughout_perform.mp hp
      induction n using Nat.strong_induction_on with
      | _ n ihn =>
        refine ⟨_, fun c hc => ?_⟩
        cases hc with
        | answered a m => exact ih a (hnext a) m
        | started hb m => exact he _ hb m
        | later less => exact ihn _ less

/-- Apart from fan-outs, steps perform effects that start nothing. -/
theorem routine : Routine fun _ x => x.Performs Effect.Bounded where
  result r := .ofResult r
  alter _ := .alter _
  record _ _ := .alter _
  bind hx hf := hx.bind hf
  decide hf := .decide hf
  inFrame _ hb := hb.inFrame _
  outcome hx := hx.outcome
  ask he := .ask he.bounded
  deadline id limit ha s := by
    rw [withDeadline_on]
    refine ⟨trivial, fun token => ⟨trivial, fun d => (ha _ s).bind ?_⟩⟩
    rintro ⟨r, s'⟩
    cases r with
    | ok a => exact ⟨trivial, fun _ => trivial⟩
    | error f => exact ⟨trivial, fun _ => ⟨trivial, fun _ => trivial⟩⟩

theorem acc_of_steps {ctx : Context} {scope : Scope} {body : List Step} {collect : Option Expr}
    (h : (runSequence body ctx .null).Performs Effect.Bounded) (n : Nat) :
    Acc Less ⟨(Branch.steps ctx scope body collect).program, n⟩ := by
  refine acc_of_performs ((h scope).bind ?_) n
  rintro ⟨r, final⟩
  cases r <;> cases collect <;> trivial

theorem fanOut {ctx : Context} {plan : Scope → Except Control.Fault (List Part)} (id : String)
    (policy : JoinPolicy) (hparts : ∀ scope parts, plan scope = .ok parts → ∀ p ∈ parts, ∀ ctx,
      (runSequence p.body ctx .null).Performs Effect.Bounded) :
    (Execution.fanOut ctx id policy (branchesOf plan)).Performs Effect.Bounded := by
  refine .ask_bind trivial fun (group : Token) => .decide fun scope bs hbs => ?_
  have hjoin : Effect.Bounded (.join ctx.run policy group bs) := by
    intro b hb
    unfold branchesOf at hbs
    cases hplan : plan scope with
    | error fault =>
        rw [hplan] at hbs
        cases hbs
    | ok parts =>
        rw [hplan] at hbs
        cases hbs
        obtain ⟨p, hp, rfl⟩ := List.mem_map.mp hb
        exact acc_of_steps (hparts scope parts hplan p hp _)
  refine .ask_bind hjoin fun joined => (Performs.ofResult joined).bind fun outcomes => ?_
  refine .ask_bind trivial fun (cancelled : Bool) => ?_
  cases cancelled with
  | true => exact .fail _
  | false => exact .value _

/-- Every branch comes to an end, whatever is nested in it. -/
theorem acc_branch (b : Branch) (n : Nat) : Acc Less ⟨b.program, n⟩ := by
  cases b with
  | steps ctx scope body collect =>
      refine acc_of_steps ?_ n
      exact (routine.coherent fun id policy => fanOut id policy).sequence body (fun _ _ => trivial)
        ctx ctx .null
  | timed observed delay result =>
      have hsleep : (Branch.timed observed delay result).program.Performs Effect.Bounded := by
        refine ⟨trivial, fun (waited : Bool) => ?_⟩
        cases waited <;> trivial
      exact acc_of_performs hsleep n

/-- Every program comes to an end, whatever the answers are. -/
theorem wellFounded : WellFounded Less := by
  refine ⟨fun ⟨p, n⟩ => acc_of_performs ?_ n⟩
  induction p with
  | pure a => trivial
  | perform e next ih =>
      refine ⟨?_, ih⟩
      cases e with
      | join run policy group bs => exact fun b _ => acc_branch b
      | _ => trivial

end Chore
end FlowEngine

namespace FlowEngine

open Relation

/-! ## What tasks have before them -/

def Wait.stage : Wait → Nat
  | fresh => 2
  | permit => 1
  | _ => 0

theorem Effect.Suits.stage_lt {e : Effect} {w : Wait} (h : e.Suits w) : w.stage < 2 := by
  cases w with
  | fresh =>
      cases e with
      | request run token request => cases request <;> simp [Effect.Suits] at h
      | _ => simp [Effect.Suits] at h
  | permit => exact Nat.one_lt_two
  | _ => exact Nat.two_pos

def TaskState.chores {α : Type} : TaskState α → Multiset Chore
  | active p w => {⟨p, w.stage⟩}
  | ended _ _ => 0

namespace Outline

variable {o o' o₁ : Outline}

def chores (o : Outline) : Multiset Chore :=
  o.main.chores + (o.branches.map TaskState.chores).sum + (o.submissions.map TaskState.chores).sum

theorem chores_of_tasks (hmain : o'.main = o.main) (hbranches : o'.branches = o.branches)
    (hsubmissions : o'.submissions = o.submissions) : o'.chores = o.chores := by
  rw [chores, hmain, hbranches, hsubmissions, chores]

theorem sum_modify {α : Type} {M : Type*} [AddCommMonoid M] (f : α → M) {l : List α} {i : Nat}
    {a : α} (h : l[i]? = some a) (b : α) :
    ((l.modify i fun _ => b).map f).sum + f a = (l.map f).sum + f b := by
  induction l generalizing i with
  | nil => cases h
  | cons c rest ih =>
      cases i with
      | zero =>
          cases h
          simp only [List.modify_zero_cons, List.map_cons, List.sum_cons]
          abel
      | succ i =>
          have hrest := ih (i := i) h
          simp only [List.modify_succ_cons, List.map_cons, List.sum_cons, add_assoc, hrest]

/-- When a task goes on, what it had before it is replaced. -/
theorem chores_setTask {t : TaskId} {state : TaskState t.Result} (h : o.task? t = some state)
    (state' : TaskState t.Result) :
    (o.setTask t state').chores + state.chores = o.chores + state'.chores := by
  cases t with
  | main =>
      cases h
      simp only [chores, setTask]
      abel
  | branch number =>
      have hsum := sum_modify TaskState.chores h state'
      simp only [chores, setTask]
      rw [add_right_comm, add_assoc o.main.chores, hsum]
      abel
  | submission number =>
      have hsum := sum_modify TaskState.chores h state'
      simp only [chores, setTask]
      rw [add_assoc, hsum]
      abel

theorem chores_spawn (programs : List (Program (Except Failure Json))) :
    (o.spawn programs).chores = o.chores + ↑(programs.map fun p => Chore.mk p 2) := by
  have hnew : ((programs.map fun p => TaskState.active p .fresh).map TaskState.chores).sum =
      ↑(programs.map fun p => Chore.mk p 2) := by
    induction programs with
    | nil => rfl
    | cons p rest ih =>
        rw [List.map_cons, List.map_cons, List.sum_cons, ih]
        rfl
  simp only [chores, spawn, List.map_append, List.sum_append, hnew]
  abel

/-- A poll after which less is left to the task takes something from what all tasks have before them,
whatever branches it starts. -/
theorem Polls.chores {t : TaskId} {e : Effect} {next : e.Answer → Program t.Result} {w : Wait}
    {turn : Turn e.Answer} (h : o.Polls w o₁ e turn)
    (active : o.task? t = some (.active (.perform e next) w)) {state : TaskState t.Result}
    (hless : ∀ c ∈ state.chores, Chore.Less c ⟨.perform e next, w.stage⟩) :
    CutExpand Chore.Less (o₁.setTask t state).chores o.chores := by
  have hset := o₁.chores_setTask (h.task? active) state
  obtain ⟨hmain, -, hsubmissions, hbranches | ⟨run, policy, group, bs, rfl, -, rfl⟩⟩ := h.tasks
  · rw [chores_of_tasks hmain hbranches hsubmissions] at hset
    exact ⟨_, _, hless, hset⟩
  · rw [chores_spawn, add_assoc] at hset
    refine ⟨_, _, fun c hc => ?_, hset⟩
    rcases Multiset.mem_add.mp hc with hc | hc
    · obtain ⟨p, hp, rfl⟩ := List.mem_map.mp (Multiset.mem_coe.mp hc)
      obtain ⟨b, hb, rfl⟩ := List.mem_map.mp hp
      exact .started hb _ _
    · exact hless c hc

/-- A task that ends had something before it. -/
theorem chores_finish {t : TaskId} {a : t.Result} {w : Wait}
    (active : o.task? t = some (.active (.pure a) w)) (k : Nat) :
    CutExpand Chore.Less (o.setTask t (.ended a k)).chores o.chores :=
  ⟨0, _, nofun, o.chores_setTask active (.ended a k)⟩

end Outline

namespace Machine

variable {m : Machine} {me : TaskId}

def line (m : Machine) : List TaskId × Bool × Nat × Nat × List Timer :=
  (m.ready, m.mainReady, m.clock)

theorem bystander_line : Bystander line where
  observers _ _ := rfl
  branches _ _ := rfl
  stragglers _ _ _ := rfl

theorem stage_startRequest {run : Nat} {token : Token} {request : Request} {w : Wait}
    (h : (m.startRequest me run token request).turn = .waiting w) : w.stage = 0 := by
  have hbegins := m.startRequest_begins me run token request
  generalize m.startRequest me run token request = polled at hbegins h
  cases hbegins with
  | answers => cases h
  | calls | operates =>
      cases h
      rfl

theorem line_pollRequest {run : Nat} {token : Token} {request : Request} {wait w : Wait}
    (hsuits : (Effect.request run token request).Suits wait)
    (h : (m.pollRequest me run token request wait).turn = .waiting w)
    (hstage : wait.stage ≤ w.stage) :
    w.stage = wait.stage ∧ (m.pollRequest me run token request wait).machine.line = m.line := by
  have hasked : wait.asked = true := by
    cases request with
    | call => obtain rfl | ⟨_, _, rfl⟩ := hsuits <;> rfl
    | record => obtain rfl | ⟨_, rfl⟩ := hsuits <;> rfl
  have hpoll := m.pollRequest_requests me run token request wait
  generalize m.pollRequest me run token request wait = polled at hpoll h ⊢
  cases hpoll with
  | refused | leaves | abandoned | replied | performed => cases h
  | queues first => cases first.symm.trans hasked
  | starts valid there taken =>
      obtain ⟨rfl, -⟩ := taken.resolve_right fun ht => nomatch ht.1.symm.trans hasked
      rw [stage_startRequest h] at hstage
      cases hstage
  | queued | waits | unsuited =>
      cases h
      exact ⟨rfl, rfl⟩

theorem line_pollSleep {token : Option Token} {span timer : Nat} {w : Wait}
    (h : (m.pollSleep me token span (.timer timer)).turn = .waiting w) :
    w = .timer timer ∧ (m.pollSleep me token span (.timer timer)).machine.line = m.line := by
  have hpoll := m.pollSleep_sleeps me token span (.timer timer)
  generalize m.pollSleep me token span (.timer timer) = polled at hpoll h ⊢
  cases hpoll with
  | refused | interrupted | instant | woken => cases h
  | starts first => exact absurd rfl (first timer)
  | waits =>
      cases h
      exact ⟨rfl, rfl⟩

theorem line_checkJoin {run : Nat} {policy : JoinPolicy} {group : Token} {tasks : List Nat}
    {w : Wait} (h : (m.checkJoin run policy group tasks).turn = .waiting w) :
    w = .branches tasks ∧ (m.checkJoin run policy group tasks).machine.line = m.line := by
  unfold checkJoin gather at h ⊢
  split at h
  · cases h
  · split at h
    · cases h
    · cases h
      exact ⟨rfl, rfl⟩

/-- Whoever is polled in vain and is no further than before wakes nobody and touches no timer. -/
theorem line_of_waiting {wait w : Wait} {e : Effect} (hsuits : wait = .fresh ∨ e.Suits wait)
    (h : (m.poll me wait e).turn = .waiting w) (hstage : wait.stage ≤ w.stage) :
    e.Suits wait ∧ w.stage = wait.stage ∧ (m.poll me wait e).machine.line = m.line := by
  have hrests := (rests_poll hsuits h).suits
  replace hsuits : e.Suits wait := by
    refine hsuits.resolve_left ?_
    rintro rfl
    exact absurd hstage (Nat.not_le.mpr hrests.stage_lt)
  refine ⟨hsuits, ?_⟩
  cases e with
  | request run token request => exact line_pollRequest hsuits h hstage
  | sleep token span =>
      obtain ⟨timer, rfl⟩ := hsuits
      change (m.pollSleep me token span (.timer timer)).turn = .waiting w at h
      obtain ⟨rfl, hline⟩ := line_pollSleep h
      exact ⟨rfl, hline⟩
  | join run policy group bs =>
      obtain ⟨tasks, rfl⟩ := hsuits
      change (m.checkJoin run policy group tasks).turn = .waiting w at h
      obtain ⟨rfl, hline⟩ := line_checkJoin h
      exact ⟨rfl, hline⟩
  | settle run token =>
      obtain ⟨n, rest, count, rfl⟩ := hsuits
      obtain ⟨n', rest', count', rfl⟩ := hrests
      exact ⟨rfl, bystander_line.pollSettle m me run token (.stragglers (n :: rest) count)⟩
  | acquireSlot =>
      cases hsuits
      cases hrests
      refine ⟨rfl, ?_⟩
      change (m.pollSlot me .slot).machine.line = m.line
      unfold pollSlot
      dsimp only
      split <;> rfl
  | awaitRun number =>
      cases hsuits
      cases hrests
      refine ⟨rfl, ?_⟩
      change (m.pollRun me number).machine.line = m.line
      unfold pollRun
      split <;> rfl
  | _ => exact hsuits.elim

/-- The turns that are left to those who can go on, when a task of each rank wakes those of lower ranks
at most, one after another. -/
def turns (m : Machine) (rank : TaskId → Nat) : Nat :=
  (m.ready.map fun t => 2 * rank t + 2).sum + (if m.mainReady then 2 * rank .main + 2 else 0) +
    m.running.elim 0 fun t => 2 * rank t + 1

theorem turns_of_line {m' : Machine} (rank : TaskId → Nat) (h : m'.line = m.line)
    (hrunning : m'.running = none) {t : TaskId} (ht : m.running = some t) :
    m'.turns rank + (2 * rank t + 1) = m.turns rank := by
  have hready : m'.ready = m.ready := congrArg Prod.fst h
  have hmain : m'.mainReady = m.mainReady := congrArg (fun l => l.2.1) h
  simp only [turns, hready, hmain, hrunning, ht, Option.elim, Nat.add_zero]

theorem turns_wake_le (m : Machine) (rank : TaskId → Nat) (t : TaskId) :
    (m.wake t).turns rank ≤ m.turns rank + (2 * rank t + 2) := by
  have hline : Machine.turns (if t ∈ m.ready then m else { m with ready := m.ready ++ [t] }) rank ≤
      m.turns rank + (2 * rank t + 2) := by
    split
    · omega
    · simp only [turns, List.map_append, List.sum_append, List.map_singleton, List.sum_singleton]
      omega
  cases t with
  | main =>
      simp only [wake, turns, if_true]
      omega
  | branch n => exact hline
  | submission n => exact hline

theorem length_advanceClock? {m' : Machine} (h : m.advanceClock? = some m') :
    m'.timers.length < m.timers.length := by
  unfold advanceClock? at h
  obtain ⟨due, hdue, h⟩ := Option.bind_eq_some_iff.mp h
  rw [List.partition_eq_filter_filter] at h
  obtain rfl := Option.some.inj h
  rw [(rings _ _).2.1]
  obtain ⟨x, hx, hx'⟩ := List.mem_map.mp (List.min?_eq_some_iff.mp hdue).1
  exact List.length_filter_lt_length_iff_exists.mpr ⟨x, hx, by simpa using hx'⟩

end Machine

namespace System

variable {config : Config} {log : List Occurrence} {s s' : System RunResult} {t u : TaskId}

/-! ## Who is in line -/

def rank (s : System RunResult) (t : TaskId) : Nat :=
  match t, s.task? t with
  | .main, _ => 0
  | _, some (.ended _ k) => s.machine.next - k
  | _, _ => 0

def turns (s : System RunResult) : Nat := s.machine.turns s.rank

theorem rank_of_ended {r : t.Result} {k : Nat} (ht : t ≠ .main)
    (h : s.task? t = some (.ended r k)) : s.rank t = s.machine.next - k := by
  cases t with
  | main => exact absurd rfl ht
  | branch n => simp only [rank, h]
  | submission n => simp only [rank, h]

theorem rank_of_active {p : Program t.Result} {w : Wait} (h : s.task? t = some (.active p w)) :
    s.rank t = 0 := by
  cases t <;> simp only [rank, h]

theorem rank_of_missing (h : s.task? t = none) : s.rank t = 0 := by
  cases t <;> simp only [rank, h]

theorem Reporting.rank_lt (hs : s.Reporting) (hheir : s.machine.heir? u = some t) {r : u.Result}
    {k : Nat} (hu : s.task? u = some (.ended r k)) : s.rank t < s.rank u := by
  have hmain := ne_main_of_heir? hheir
  have hk := hs.numbered hmain hu
  rw [rank_of_ended hmain hu]
  by_cases ht : t = .main
  · subst ht
    exact Nat.sub_pos_of_lt hk
  · cases hstate : s.task? t with
    | none =>
        rw [rank_of_missing hstate]
        exact Nat.sub_pos_of_lt hk
    | some state =>
        cases state with
        | active p w =>
            rw [rank_of_active hstate]
            exact Nat.sub_pos_of_lt hk
        | ended r' k' =>
            rw [rank_of_ended ht hstate]
            have hlt := hs.later hheir ht hu hstate
            have hk' := hs.numbered ht hstate
            omega

def Descends : Multiset Chore × Nat × Nat → Multiset Chore × Nat × Nat → Prop :=
  Prod.Lex (CutExpand Chore.Less) (Prod.Lex (· < ·) (· < ·))

theorem wellFounded_descends : WellFounded Descends :=
  Chore.wellFounded.cutExpand.prod_lex (Nat.lt_wfRel.wf.prod_lex Nat.lt_wfRel.wf)

def left (s : System RunResult) : Multiset Chore × Nat × Nat :=
  (s.outline.chores, s.machine.timers.length, s.turns)

/-! ## Steps -/

/-- How many others may be woken after a task depends on how far it has got. -/
theorem rank_congr (htask : s'.task? t = s.task? t) (hnext : s'.machine.next = s.machine.next) :
    s'.rank t = s.rank t := by
  cases hstate : s.task? t with
  | none => rw [rank_of_missing hstate, rank_of_missing (htask.trans hstate)]
  | some state =>
      cases state with
      | active p w => rw [rank_of_active hstate, rank_of_active (htask.trans hstate)]
      | ended r k =>
          by_cases ht : t = .main
          · subst ht
            rfl
          · rw [rank_of_ended ht hstate, rank_of_ended ht (htask.trans hstate), hnext]

theorem Polls.rank_eq {e : Effect} {next : e.Answer → Program t.Result} {w : Wait}
    (h : s.Polls t e next w s') (hnext : s'.machine.next = s.machine.next) : s'.rank = s.rank := by
  funext u
  by_cases hut : u = t
  · subst hut
    have hresult := h.result
    rw [rank_of_active h.active]
    cases hturn : (s.machine.poll u w e).turn <;>
      · rw [hturn] at hresult
        exact rank_of_active hresult
  · rcases h.others hut with hsame | ⟨hnone, -, hfresh⟩
    · exact rank_congr hsame hnext
    · rw [rank_of_missing hnone]
      cases hstate : s'.task? u with
      | none => exact rank_of_missing hstate
      | some state =>
          obtain ⟨p, rfl⟩ := hfresh state hstate
          exact rank_of_active hstate

/-- After its turn a task that does not go on wakes at most who is told about its end. -/
theorem resumes_heir {state : TaskState t.Result} (h : s.step? = some s')
    (running : s.machine.running = some t) (hs : s.task? t = some state) :
    ∃ m : Machine, m.line = (state.step t s.machine).2.2.line ∧
      s'.machine = m.resume (state.step t s.machine).1 (state.step t s.machine).2.1
        ((state.step t s.machine).2.2.heir? t) := by
  unfold step? at h
  rw [running] at h
  cases t with
  | main =>
      cases hs
      cases h
      exact ⟨_, rfl, rfl⟩
  | branch number =>
      obtain ⟨task, htask, rfl⟩ := Option.map_eq_some_iff.mp hs
      cases h
      simp only [Machine.stepBranch, htask]
      refine ⟨_, ?_, rfl⟩
      rfl
  | submission number =>
      obtain ⟨task, htask, rfl⟩ := Option.map_eq_some_iff.mp hs
      cases h
      simp only [Machine.stepSubmission, htask]
      refine ⟨_, ?_, rfl⟩
      rfl

/-- When somebody is picked, or the clock is moved, less is left. -/
theorem descends_of_idle (h : s.step? = some s') (idle : s.machine.running = none) :
    Descends s'.left s.left := by
  unfold step? at h
  rw [idle] at h
  obtain ⟨m, hm, rfl⟩ := Option.map_eq_some_iff.mp h
  unfold Machine.dispatch? at hm
  split at hm
  · rename_i t ready hready
    cases hm
    refine .right _ (.right _ ?_)
    have hrank (u : TaskId) : System.rank ⟨{ s.machine with ready, running := some t }, s.main⟩ u =
        s.rank u := rank_congr (by cases u <;> rfl) rfl
    simp only [turns, Machine.turns, hrank, hready, idle, List.map_cons, List.sum_cons, Option.elim]
    omega
  · rename_i hready
    split at hm
    · rename_i hmain
      cases hm
      refine .right _ (.right _ ?_)
      simp only [turns, Machine.turns, hready, hmain, idle, Option.elim, rank]
      simp
    · rw [left, left]
      obtain ⟨tokens, houtline⟩ := Machine.outline_advanceClock? s.main hm
      have hchores : (System.outline ⟨m, s.main⟩).chores = s.outline.chores :=
        (congrArg Outline.chores houtline).trans rfl
      rw [hchores]
      exact .right _ (.left _ _ (Machine.length_advanceClock? hm))

/-- A task that has ended and is polled wakes at most one that is below it. -/
theorem descends_of_ended (hs : s.Reporting) (h : s.step? = some s')
    (running : s.machine.running = some t) {r : t.Result} {k : Nat}
    (hended : s.task? t = some (.ended r k)) : Descends s'.left s.left := by
  obtain ⟨m, hline, hmachine⟩ := resumes_heir h running hended
  change m.line = s.machine.line at hline
  change s'.machine = Machine.wakeIfSome { m with running := none } (s.machine.heir? t) at hmachine
  have htasks := task?_of_ended h running hended
  have hclock : s'.machine.clock = s.machine.clock := by
    rw [hmachine]
    exact (Machine.clock_wakeIfSome _ _).trans (congrArg (fun l => l.2.2) hline)
  have hrank : s'.rank = s.rank :=
    funext fun u => rank_congr (htasks u) (congrArg (fun c => c.2.1) hclock)
  have hchores : s'.outline.chores = s.outline.chores := by
    rw [step?_outline h running hended rfl]
    refine Eq.trans ?_ (congrArg Outline.chores
      (s.outline.setTask_same _ ((task?_outline t).trans hended)))
    rfl
  have htimers : s'.machine.timers = s.machine.timers := congrArg (fun c => c.2.2) hclock
  have hkept : Machine.line { m with running := none } = s.machine.line := hline
  have hturns := Machine.turns_of_line s.rank hkept rfl running
  rw [left, left, hchores, htimers]
  refine .right _ (.right _ ?_)
  rw [turns, turns, hrank, hmachine]
  cases hheir : s.machine.heir? t with
  | none =>
      change Machine.turns { m with running := none } s.rank < _
      omega
  | some u =>
      have hlt := hs.rank_lt hheir hended
      have hle := Machine.turns_wake_le { m with running := none } s.rank u
      change Machine.turns (Machine.wake { m with running := none } u) s.rank < _
      omega

/-- A task that gets an answer or begins to wait has less before it. If it goes on waiting it wakes
nobody. -/
theorem descends_of_poll (hsuited : s.Suited) (h : s.step? = some s')
    (running : s.machine.running = some t) {e : Effect} {next : e.Answer → Program t.Result} {w : Wait}
    (active : s.task? t = some (.active (.perform e next) w)) : Descends s'.left s.left := by
  have hactive := (task?_outline t).trans active
  have hpolls := s.machine.poll_outline s.main t w e
  have houtline := step?_outline h running active (TaskState.step_perform t s.machine w e next)
  have hchores {state : TaskState t.Result}
      (hstate : (s.machine.poll t w e).turn.state next = state) :
      s'.outline.chores =
        (((s.machine.poll t w e).machine.outline s.main).setTask t state).chores := by
    rw [houtline, hstate]
    split <;> rfl
  cases hturn : (s.machine.poll t w e).turn with
  | answered a =>
      refine .left _ _ ?_
      rw [hchores (congrArg (Turn.state next) hturn)]
      refine hpolls.chores hactive fun c hc => ?_
      rw [Multiset.mem_singleton.mp hc]
      exact .answered a _ _
  | waiting w' =>
      have hstate : s'.outline.chores = (((s.machine.poll t w e).machine.outline s.main).setTask t
          (.active (.perform e next) w')).chores := hchores (congrArg (Turn.state next) hturn)
      by_cases hless : w'.stage < w.stage
      · refine .left _ _ ?_
        rw [hstate]
        refine hpolls.chores hactive fun c hc => ?_
        rw [Multiset.mem_singleton.mp hc]
        exact .later hless
      · obtain ⟨hsuits, hstage, hline⟩ :=
          Machine.line_of_waiting (hsuited.suits active) hturn (Nat.not_lt.mp hless)
        have hsame : s'.outline.chores = s.outline.chores := by
          have hset := ((s.machine.poll t w e).machine.outline s.main).chores_setTask
            (hpolls.task? hactive) (.active (.perform e next) w')
          rw [← hstate] at hset
          obtain ⟨hmain, -, hsubmissions, hbranches | ⟨run, policy, group, bs, rfl, hnot, -⟩⟩ :=
            hpolls.tasks
          · rw [Outline.chores_of_tasks hmain hbranches hsubmissions] at hset
            simp only [TaskState.chores, hstage] at hset
            exact add_right_cancel hset
          · obtain ⟨tasks, rfl⟩ := hsuits
            exact absurd rfl (hnot tasks)
        obtain ⟨m, hm, hmachine⟩ := resumes_heir h running active
        rw [TaskState.step_perform, hturn] at hm hmachine
        have hkept : Machine.line { m with running := none } = s.machine.line := hm.trans hline
        have hfinal : s'.machine = { m with running := none } := hmachine
        have hclock : s'.machine.clock = s.machine.clock :=
          hfinal ▸ congrArg (fun l => l.2.2) hkept
        have hrank : s'.rank = s.rank :=
          (polls_of_running h running active).rank_eq (congrArg (fun c => c.2.1) hclock)
        have hturns := Machine.turns_of_line s.rank hkept rfl running
        rw [left, left, hsame, show s'.machine.timers = s.machine.timers from
          congrArg (fun c => c.2.2) hclock]
        refine .right _ (.right _ ?_)
        rw [turns, turns, hrank, hfinal]
        omega

theorem descends_of_turn (hs : s.Reporting) (hsuited : s.Suited) (h : s.step? = some s')
    (running : s.machine.running = some t) : Descends s'.left s.left := by
  cases active : s.task? t with
  | none =>
      rw [step?_of_missing h running active]
      refine .right _ (.right _ ?_)
      have hrank (u : TaskId) : System.rank ⟨{ s.machine with running := none }, s.main⟩ u =
          s.rank u := rank_congr (by cases u <;> rfl) rfl
      simp only [turns, Machine.turns, hrank, running, Option.elim]
      omega
  | some state =>
      obtain ⟨m, hline, hmachine⟩ := resumes_heir h running active
      cases state with
      | ended r k => exact descends_of_ended hs h running active
      | active p w =>
          cases p with
          | pure a =>
              refine .left _ _ ?_
              have hchores := Outline.chores_finish ((task?_outline t).trans active) s.machine.next
              rwa [step?_outline h running active rfl]
          | perform e next => exact descends_of_poll hsuited h running active

end System

theorem Session.descends {config : Config} {log : List Occurrence} {s s' : System RunResult}
    (h : Session config log s) (hstep : s.step? = some s') : System.Descends s'.left s.left := by
  cases running : s.machine.running with
  | none => exact System.descends_of_idle hstep running
  | some t => exact System.descends_of_turn h.reporting h.suited hstep running

theorem Session.comes_to_rest {config : Config} {log : List Occurrence} {s : System RunResult}
    (h : Session config log s) : ∃ n, (s.course n).2.step? = none := by
  induction hleft : s.left using System.wellFounded_descends.induction generalizing log s with
  | _ left ih =>
    subst hleft
    cases hstep : s.step? with
    | none => exact ⟨0, hstep⟩
    | some s' =>
        obtain ⟨n, hn⟩ := ih _ (h.descends hstep) (h.reaches (.single (.step hstep))) rfl
        refine ⟨n + 1, ?_⟩
        rw [System.course, hstep]
        exact hn

end FlowEngine
