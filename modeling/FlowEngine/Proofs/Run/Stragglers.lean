import FlowEngine.Proofs.Machine.Heeding
import FlowEngine.Proofs.Session.Course
import FlowEngine.Proofs.Session.Ends
import Mathlib.Data.List.Count
import Mathlib.Data.List.Nodup

/-!
# Branches that are left to a run

A fail-fast join leaves the branches that it gives up to the run. Whoever settles the run takes all
of them, waits for one after the other, and leaves those that it did not wait for to the run again
when it is interrupted. In between branches end, tokens are cancelled and more branches are left to
the run. No branch gets lost on the way, and none is waited for twice.
-/
namespace FlowEngine

def Turn.wait {α : Type} : Turn α → Wait
  | answered _ => .fresh
  | waiting w => w

namespace Machine

def registered (m : Machine) (run : Nat) : List Nat := (m.takeStragglers run).1

def HasEnded (m : Machine) (number : Nat) : Prop := (m.branchResult? number).isSome

def outstanding (m : Machine) (run : Nat) (wait : Wait) : List Nat :=
  wait.pending ++ m.registered run

theorem registered_of_runs {m m' : Machine} (h : m'.runs = m.runs) (run : Nat) :
    m'.registered run = m.registered run := by
  unfold registered takeStragglers
  rw [h]

theorem registered_modifyRun (m : Machine) (run : Nat) (f : ActiveRun → ActiveRun) :
    (m.modifyRun run f).registered run = m.runs[run]?.elim [] fun r => (f r).stragglers := by
  unfold registered takeStragglers modifyRun
  rw [Array.getElem?_modify, if_pos rfl]
  cases m.runs[run]? <;> rfl

theorem registered_adopt {m : Machine} {run : Nat} (h : run < m.runs.size) (tasks : List Nat) :
    (m.adopt run tasks).registered run = m.registered run ++ tasks := by
  rw [adopt, registered_modifyRun]
  simp [registered, takeStragglers, h]

@[simp] theorem registered_takeStragglers (m : Machine) (run : Nat) :
    (m.takeStragglers run).2.registered run = [] := by
  rw [takeStragglers, registered_modifyRun]
  cases m.runs[run]? <;> rfl

/-- An operation that only concerns who waits for what: results and runs stay as they are. -/
structure Unmoved (m m' : Machine) : Prop where
  results : ∀ n, m'.branchResult? n = m.branchResult? n
  runs : m'.runs = m.runs

theorem Unmoved.trans {m₁ m₂ m₃ : Machine} (h : Unmoved m₁ m₂) (h' : Unmoved m₂ m₃) :
    Unmoved m₁ m₃ :=
  ⟨fun n => (h'.results n).trans (h.results n), h'.runs.trans h.runs⟩

theorem unmoved_forget (m : Machine) (t : TaskId) : Unmoved m (m.forget t) := ⟨fun _ => rfl, rfl⟩

theorem unmoved_setWaiter (m : Machine) (waiter : Option TaskId) (n : Nat) :
    Unmoved m (m.setWaiter waiter n) := by
  refine ⟨fun k => ?_, rfl⟩
  rw [← branchResult?_outline _ (.ended default 0), outline_setWaiter, branchResult?_outline]

theorem unmoved_observe (m : Machine) (token : Token) (t : TaskId) :
    Unmoved m (m.observe token t) := by
  unfold observe
  split
  · exact ⟨fun _ => rfl, rfl⟩
  · exact ⟨fun _ => rfl, rfl⟩

/-! ## A turn of a settle -/

inductive Walks (m : Machine) (run : Nat) (token : Option Token) (tasks : List Nat) (count : Nat) :
    Settling → Prop where
  | settled {m' : Machine} (ended : ∀ n ∈ tasks, m.HasEnded n) (unmoved : Unmoved m m') :
      Walks m run token tasks count (.settled (count + tasks.length) m')
  | interrupted {m' : Machine} (cancelled : m.interrupts token = true) (some : tasks ≠ [])
      (unmoved : Unmoved m m') :
      Walks m run token tasks count (.interrupted (m'.adopt run tasks))
  | waiting (ended : List Nat) {rest : List Nat} {m' : Machine} (split : tasks = ended ++ rest)
      (all : ∀ n ∈ ended, m.HasEnded n) (unmoved : Unmoved m m') :
      Walks m run token tasks count (.waiting rest (count + ended.length) m')

theorem settleList_walks (m : Machine) (me : TaskId) (run : Nat) (token : Option Token)
    (tasks : List Nat) (count : Nat) :
    m.Walks run token tasks count (settleList me run token tasks count m) := by
  induction tasks generalizing m count with
  | nil => exact .settled (by simp) ⟨fun _ => rfl, rfl⟩
  | cons n rest ih =>
      rw [settleList]
      by_cases hi : m.interrupts token = true
      · rw [if_pos hi]
        exact .interrupted hi (List.cons_ne_nil _ _)
          ((m.unmoved_forget me).trans (unmoved_setWaiter _ none n))
      · rw [if_neg hi]
        by_cases hr : (m.branchResult? n).isSome = true
        · rw [if_pos hr]
          have hcount (k : Nat) : count + 1 + k = count + (k + 1) := by omega
          have hstart := m.unmoved_forget me
          have hrest := ih (m.forget me) (count + 1)
          cases hs : settleList me run token rest (count + 1) (m.forget me) with
          | settled k m' =>
              rw [hs] at hrest
              cases hrest with
              | settled ended unmoved =>
                  rw [hcount]
                  exact .settled (List.forall_mem_cons.mpr ⟨hr, ended⟩) (hstart.trans unmoved)
          | interrupted m' =>
              rw [hs] at hrest
              cases hrest with
              | interrupted cancelled => exact absurd cancelled hi
          | waiting left k m' =>
              rw [hs] at hrest
              cases hrest with
              | waiting ended split all unmoved =>
                  rw [hcount]
                  exact .waiting (n :: ended) (congrArg (n :: ·) split)
                    (List.forall_mem_cons.mpr ⟨hr, all⟩) (hstart.trans unmoved)
        · rw [if_neg hr]
          refine .waiting [] rfl (by simp) ?_
          cases token with
          | none => exact m.unmoved_setWaiter _ n
          | some t => exact (m.unmoved_setWaiter _ n).trans (unmoved_observe _ t me)

/-- What a turn of a settle does: it lets go of branches that have ended, and it keeps the others that
it has still to wait for, or leaves them to the run again. -/
structure Turned (m : Machine) (run : Nat) (wait : Wait) (p : Polled (Except Failure Nat))
    (gone : List Nat) : Prop where
  results : ∀ n, p.machine.branchResult? n = m.branchResult? n
  size : p.machine.runs.size = m.runs.size
  kept : (m.outstanding run wait).Perm (gone ++ p.machine.outstanding run p.turn.wait)
  ended : ∀ n ∈ gone, m.HasEnded n
  waited : ∀ w, p.turn = .waiting w → w.settled = wait.settled + gone.length
  settled : ∀ n, p.turn = .answered (.ok n) →
    n = wait.settled + gone.length ∧ p.machine.registered run = []

theorem turned_of_taken {m m' : Machine} {run : Nat} {wait : Wait} {me : TaskId}
    {token : Option Token} (hrun : run < m.runs.size) (unmoved : Unmoved m m')
    (pending : ∀ n ∈ wait.pending, m.HasEnded n) :
    ∃ gone, m.Turned run wait (settleList me run token (m'.takeStragglers run).1
      (wait.settled + wait.pending.length) (m'.takeStragglers run).2).polled gone := by
  have htaken : (m'.takeStragglers run).1 = m.registered run := registered_of_runs unmoved.runs run
  have hsize : (m'.takeStragglers run).2.runs.size = m.runs.size := by
    rw [← unmoved.runs]
    exact Array.size_modify
  have hended {n : Nat} (h : (m'.takeStragglers run).2.HasEnded n) : m.HasEnded n := by
    rw [HasEnded, ← unmoved.results]
    exact h
  have hwalks := (m'.takeStragglers run).2.settleList_walks me run token (m'.takeStragglers run).1
    (wait.settled + wait.pending.length)
  rw [htaken] at hwalks ⊢
  cases hs : settleList me run token (m.registered run) (wait.settled + wait.pending.length)
      (m'.takeStragglers run).2 with
  | settled k m'' =>
      rw [hs] at hwalks
      cases hwalks with
      | settled ended last =>
          have hleft : m''.registered run = [] := by rw [registered_of_runs last.runs]; simp
          refine ⟨m.outstanding run wait, fun n => (last.results n).trans (unmoved.results n), ?_, ?_,
            ?_, by rintro w ⟨⟩, ?_⟩
          · exact (congrArg Array.size last.runs).trans hsize
          · change List.Perm _ (m.outstanding run wait ++ ([] ++ m''.registered run))
            rw [hleft, List.append_nil, List.append_nil]
          · exact fun n hn => (List.mem_append.mp hn).elim (pending n) fun hn => hended (ended n hn)
          · rintro n ⟨⟩
            exact ⟨by rw [outstanding, List.length_append, Nat.add_assoc], hleft⟩
  | interrupted m'' =>
      rw [hs] at hwalks
      cases hwalks with
      | @interrupted m₀ cancelled some last =>
          have hleft : (m₀.adopt run (m.registered run)).registered run = m.registered run := by
            rw [registered_adopt (by rwa [last.runs, hsize]), registered_of_runs last.runs]
            simp
          refine ⟨wait.pending, fun n => (last.results n).trans (unmoved.results n), ?_, ?_, pending,
            by rintro w ⟨⟩, by rintro n ⟨⟩⟩
          · exact Array.size_modify.trans ((congrArg Array.size last.runs).trans hsize)
          · change List.Perm _ (wait.pending ++ ([] ++ (m₀.adopt run (m.registered run)).registered run))
            rw [hleft, List.nil_append, outstanding]
  | waiting rest k m'' =>
      rw [hs] at hwalks
      cases hwalks with
      | waiting ended split all last =>
          have hleft : m''.registered run = [] := by rw [registered_of_runs last.runs]; simp
          refine ⟨wait.pending ++ ended, fun n => (last.results n).trans (unmoved.results n), ?_, ?_, ?_,
            ?_, by rintro n ⟨⟩⟩
          · exact (congrArg Array.size last.runs).trans hsize
          · change List.Perm _ (wait.pending ++ ended ++ (rest ++ m''.registered run))
            rw [hleft, List.append_nil, List.append_assoc, ← split, outstanding]
          · exact fun n hn => (List.mem_append.mp hn).elim (pending n) fun hn => hended (all n hn)
          · rintro w ⟨⟩
            rw [List.length_append, ← Nat.add_assoc]
            rfl

theorem pollSettle_turned {m : Machine} {run : Nat} (hrun : run < m.runs.size) (me : TaskId)
    (token : Option Token) (wait : Wait) :
    ∃ gone, m.Turned run wait (m.pollSettle me run token wait) gone := by
  have hwalks := m.settleList_walks me run token wait.pending wait.settled
  rw [pollSettle_eq, settleRun]
  cases hs : settleList me run token wait.pending wait.settled m with
  | settled k m' =>
      rw [hs] at hwalks
      cases hwalks with
      | settled ended unmoved => exact turned_of_taken hrun unmoved ended
  | interrupted m' =>
      rw [hs] at hwalks
      cases hwalks with
      | @interrupted m₀ cancelled some unmoved =>
          refine ⟨[], unmoved.results, ?_, ?_, by simp, by rintro w ⟨⟩, by rintro n ⟨⟩⟩
          · exact Array.size_modify.trans (congrArg Array.size unmoved.runs)
          · change List.Perm _ ([] ++ (m₀.adopt run wait.pending).registered run)
            rw [registered_adopt (by rwa [unmoved.runs]), registered_of_runs unmoved.runs]
            exact List.perm_append_comm
  | waiting rest k m' =>
      rw [hs] at hwalks
      cases hwalks with
      | waiting ended split all unmoved =>
          refine ⟨ended, unmoved.results, congrArg Array.size unmoved.runs, ?_, all, ?_,
            by rintro n ⟨⟩⟩
          · change List.Perm _ (ended ++ (rest ++ m'.registered run))
            rw [outstanding, split, registered_of_runs unmoved.runs, List.append_assoc]
          · rintro w ⟨⟩
            rfl

theorem Turned.perm {m : Machine} {run : Nat} {wait : Wait} {p : Polled (Except Failure Nat)}
    {gone gone' : List Nat} (h : m.Turned run wait p gone) (hp : gone.Perm gone') :
    m.Turned run wait p gone' :=
  ⟨h.results, h.size, h.kept.trans (hp.append_right _), fun n hn => h.ended n (hp.mem_iff.mpr hn),
    fun w hw => hp.length_eq ▸ h.waited w hw, fun n hn => hp.length_eq ▸ h.settled n hn⟩

/-- A turn lets go of what is not outstanding any more. -/
theorem pollSettle_diff {m : Machine} {run : Nat} (hrun : run < m.runs.size) (me : TaskId)
    (token : Option Token) (wait : Wait) :
    m.Turned run wait (m.pollSettle me run token wait) ((m.outstanding run wait).diff
      ((m.pollSettle me run token wait).machine.outstanding run
        (m.pollSettle me run token wait).turn.wait)) := by
  obtain ⟨gone, h⟩ := pollSettle_turned hrun me token wait
  refine h.perm (List.perm_iff_count.mpr fun n => ?_)
  rw [List.count_diff, h.kept.count_eq, List.count_append, Nat.add_sub_cancel]

/-! ## What else happens -/

/-- Anything but a settle of the run: the branches that have ended stay so, and those that a join gives
up are left to the run. -/
structure Elsewhere (m : Machine) (run : Nat) (added : List Nat) (m' : Machine) : Prop where
  exists_run : run < m.runs.size → run < m'.runs.size
  registered : m'.registered run = m.registered run ++ added
  ended : ∀ n, m.HasEnded n → m'.HasEnded n

theorem elsewhere_of_outline {m m' : Machine} {run : Nat} {added : List Nat}
    (main main' : TaskState RunResult) (hrun : run < (m'.outline main').runs.length)
    (hleft : (m'.outline main').stragglers run = (m.outline main).stragglers run ++ added)
    (hended : ∀ n, m.HasEnded n → m'.HasEnded n) : m.Elsewhere run added m' := by
  refine ⟨fun _ => by simpa [outline] using hrun, ?_, hended⟩
  rw [stragglers_outline, stragglers_outline] at hleft
  exact hleft

theorem elsewhere_adopt {m : Machine} {run : Nat} (hrun : run < m.runs.size) (tasks : List Nat) :
    m.Elsewhere run tasks (m.adopt run tasks) :=
  ⟨fun h => by simpa [adopt, modifyRun] using h, registered_adopt hrun tasks, fun _ => id⟩

theorem elsewhere_cancel {m : Machine} {run : Nat} (hrun : run < m.runs.size) (token : Token) :
    m.Elsewhere run [] (m.cancel token) := by
  have ho := m.outline_cancel (.ended default 0) token
  refine elsewhere_of_outline (.ended default 0) (.ended default 0) ?_ ?_ fun n hn => ?_
  · rw [ho]
    simpa [outline] using hrun
  · rw [ho, List.append_nil]
    rfl
  · rw [HasEnded, ← branchResult?_outline _ (.ended default 0)] at hn ⊢
    rw [ho]
    exact hn

def endBranch (m : Machine) (number : Nat) (a : Except Failure Json) (order : Nat) : Machine :=
  { m with branches := m.branches.modify number fun task => { task with state := .ended a order } }

theorem elsewhere_endBranch (m : Machine) (run number : Nat) (a : Except Failure Json)
    (order : Nat) : m.Elsewhere run [] (m.endBranch number a order) := by
  refine ⟨id, (List.append_nil _).symm, fun n hn => ?_⟩
  unfold HasEnded branchResult? at hn ⊢
  rw [endBranch, Array.getElem?_modify]
  by_cases hnumber : number = n
  · cases hget : m.branches[n]? with
    | none =>
        rw [hget] at hn
        cases hn
    | some task =>
        rw [if_pos hnumber]
        rfl
  · rwa [if_neg hnumber]

end Machine

/-! ## Settles one after another -/

namespace Stragglers

structure Call where
  task : TaskId
  token : Option Token
  wait : Wait
  awaited : List Nat

def Call.poll (s : Call) (m : Machine) (run : Nat) : Polled (Except Failure Nat) :=
  m.pollSettle s.task run s.token s.wait

/-- The branches that a settle lets go of in a turn: it neither waits for them any more nor leaves them
to the run. -/
def Call.gone (s : Call) (m : Machine) (run : Nat) : List Nat :=
  (m.outstanding run s.wait).diff
    ((s.poll m run).machine.outstanding run (s.poll m run).turn.wait)

structure Return where
  awaited : List Nat
  answer : Except Failure Nat
  adopted : List Nat
  machine : Machine

/-- What becomes of the branches that are left to a run. -/
structure Course where
  machine : Machine
  /-- The branches that were left to the run so far. -/
  adopted : List Nat
  returned : List Return
  call : Option Call

namespace Course

def start (m : Machine) (run : Nat) : Course := ⟨m, m.registered run, [], none⟩

def awaited (c : Course) : List (List Nat) :=
  c.returned.map Return.awaited ++ c.call.toList.map Call.awaited

def held (c : Course) : List Nat := c.call.elim [] fun s => s.wait.pending

def turn (c : Course) (run : Nat) (s : Call) : Course :=
  let machine := (s.poll c.machine run).machine
  let awaited := s.awaited ++ s.gone c.machine run
  match (s.poll c.machine run).turn with
  | .answered answer =>
    { c with machine, returned := c.returned ++ [⟨awaited, answer, c.adopted, machine⟩], call := none }
  | .waiting wait => { c with machine, call := some { s with wait, awaited } }

def leave (c : Course) (m : Machine) (added : List Nat) : Course :=
  { c with machine := m, adopted := c.adopted ++ added }

def begin (c : Course) (task : TaskId) (token : Option Token) : Course :=
  { c with call := some ⟨task, token, .fresh, []⟩ }

end Course

/-- One thing that happens: something else than a settle of the run, a settle that begins when none is
in progress, or a turn of the one in progress. -/
inductive Step (run : Nat) (c : Course) : Course → Prop where
  | elsewhere {added : List Nat} {m : Machine} (h : c.machine.Elsewhere run added m) :
      Step run c (c.leave m added)
  | begin (idle : c.call = none) (task : TaskId) (token : Option Token) :
      Step run c (c.begin task token)
  | turn {s : Call} (current : c.call = some s) : Step run c (c.turn run s)

structure Holds (run : Nat) (c : Course) : Prop where
  exists_run : run < c.machine.runs.size
  shared : c.adopted.Perm (c.awaited.flatten ++ (c.held ++ c.machine.registered run))
  ended : ∀ n ∈ c.awaited.flatten, c.machine.HasEnded n
  counted : ∀ s, c.call = some s → s.wait.settled = s.awaited.length
  drained : ∀ r ∈ c.returned, ∀ count, r.answer = .ok count → count = r.awaited.length ∧
    r.machine.registered run = [] ∧ ∀ n ∈ r.adopted, r.machine.HasEnded n

namespace Course

variable {run : Nat} {c : Course} {s : Call}

theorem awaited_of_call (h : c.call = some s) :
    c.awaited.flatten = (c.returned.map Return.awaited).flatten ++ s.awaited := by
  simp [awaited, h]

theorem machine_turn (c : Course) (run : Nat) (s : Call) :
    (c.turn run s).machine = (s.poll c.machine run).machine := by
  unfold turn
  cases (s.poll c.machine run).turn <;> rfl

theorem held_of_call (h : c.call = some s) : c.held = s.wait.pending := by rw [held, h]; rfl

end Course

variable {run : Nat} {c c' : Course}

theorem Holds.elsewhere (hc : Holds run c) {added : List Nat} {m : Machine}
    (h : c.machine.Elsewhere run added m) :
    Holds run (c.leave m added) := by
  refine ⟨h.exists_run hc.exists_run, ?_, fun n hn => h.ended n (hc.ended n hn), hc.counted, hc.drained⟩
  change List.Perm _ (c.awaited.flatten ++ (c.held ++ m.registered run))
  rw [h.registered, ← List.append_assoc c.held, ← List.append_assoc c.awaited.flatten]
  exact hc.shared.append_right added

theorem Holds.begin (hc : Holds run c) (idle : c.call = none) (task : TaskId)
    (token : Option Token) : Holds run (c.begin task token) := by
  have hawaited : (c.begin task token).awaited.flatten = c.awaited.flatten := by
    simp [Course.awaited, Course.begin, idle]
  have hheld : (c.begin task token).held = c.held := by
    simp [Course.held, Course.begin, idle, Wait.pending]
  refine ⟨hc.exists_run, ?_, ?_, ?_, hc.drained⟩
  · rw [hawaited, hheld]
    exact hc.shared
  · rw [hawaited]
    exact hc.ended
  · rintro s ⟨⟩
    rfl

theorem Holds.turned (hc : Holds run c) (s : Call) :
    c.machine.Turned run s.wait (s.poll c.machine run) (s.gone c.machine run) :=
  Machine.pollSettle_diff hc.exists_run s.task s.token s.wait

/-- What a turn lets go of joins what the settle has let go of before. -/
theorem Holds.shared_after (hc : Holds run c) {s : Call} (current : c.call = some s) :
    c.adopted.Perm ((c.returned.map Return.awaited).flatten ++ (s.awaited ++ s.gone c.machine run) ++
      (s.poll c.machine run).machine.outstanding run (s.poll c.machine run).turn.wait) := by
  have h := hc.shared
  rw [Course.awaited_of_call current, Course.held_of_call current] at h
  simpa only [List.append_assoc] using h.trans ((hc.turned s).kept.append_left _)

theorem Holds.ended_after (hc : Holds run c) {s : Call} (current : c.call = some s) {n : Nat}
    (hn : n ∈ (c.returned.map Return.awaited).flatten ++ (s.awaited ++ s.gone c.machine run)) :
    (s.poll c.machine run).machine.HasEnded n := by
  rw [Machine.HasEnded, (hc.turned s).results]
  rw [← List.append_assoc, ← Course.awaited_of_call current] at hn
  exact (List.mem_append.mp hn).elim (hc.ended n) ((hc.turned s).ended n)

/-- When a settle returns a number, it has waited for all branches that were left to the run. -/
theorem Holds.drained_after (hc : Holds run c) {s : Call} (current : c.call = some s) {count : Nat}
    (h : (s.poll c.machine run).turn = .answered (.ok count)) :
    count = (s.awaited ++ s.gone c.machine run).length ∧
      (s.poll c.machine run).machine.registered run = [] ∧
      ∀ n ∈ c.adopted, (s.poll c.machine run).machine.HasEnded n := by
  obtain ⟨hcount, hleft⟩ := (hc.turned s).settled count h
  have hnone : (s.poll c.machine run).machine.outstanding run (s.poll c.machine run).turn.wait = [] := by
    rw [h]
    exact hleft
  have hshared := hc.shared_after current
  rw [hnone, List.append_nil] at hshared
  refine ⟨?_, hleft, fun n hn => hc.ended_after current (hshared.mem_iff.mp hn)⟩
  rw [hcount, hc.counted s current, List.length_append]

theorem Holds.turn (hc : Holds run c) {s : Call} (current : c.call = some s) :
    Holds run (c.turn run s) := by
  have hexists : run < (s.poll c.machine run).machine.runs.size := by
    rw [(hc.turned s).size]
    exact hc.exists_run
  have hshared := hc.shared_after current
  have hended := fun n => hc.ended_after current (n := n)
  unfold Course.turn
  cases hp : (s.poll c.machine run).turn with
  | answered answer =>
      rw [hp] at hshared
      refine ⟨hexists, ?_, ?_, by rintro _ ⟨⟩, ?_⟩
      · simpa [Course.awaited, Course.held, Machine.outstanding, Turn.wait, Wait.pending] using hshared
      · simpa [Course.awaited] using hended
      · intro r hr count hanswer
        rcases List.mem_append.mp hr with hr | hr
        · exact hc.drained r hr count hanswer
        · obtain rfl := List.mem_singleton.mp hr
          obtain rfl : answer = .ok count := hanswer
          exact hc.drained_after current hp
  | waiting wait =>
      rw [hp] at hshared
      refine ⟨hexists, ?_, ?_, ?_, hc.drained⟩
      · simpa [Course.awaited, Course.held, Machine.outstanding, Turn.wait] using hshared
      · simpa [Course.awaited] using hended
      · rintro _ ⟨⟩
        rw [List.length_append, ← hc.counted s current]
        exact (hc.turned s).waited wait hp

theorem Step.holds (h : Step run c c') (hc : Holds run c) : Holds run c' := by
  cases h with
  | elsewhere h => exact hc.elsewhere h
  | begin idle task token => exact hc.begin idle task token
  | turn current => exact hc.turn current

theorem holds_start {m : Machine} (hrun : run < m.runs.size) : Holds run (Course.start m run) :=
  ⟨hrun, .refl _, by simp [Course.start, Course.awaited], by rintro _ ⟨⟩, by rintro _ ⟨⟩⟩

/-- What can become of the branches that are left to a run. -/
abbrev Reaches (run : Nat) : Course → Course → Prop := Relation.ReflTransGen (Step run)

theorem Reaches.holds (h : Reaches run c c') (hc : Holds run c) : Holds run c' := by
  induction h with
  | refl => exact hc
  | tail _ step ih => exact step.holds ih

/-- A member of one of some lists, and of none else when no member is repeated. -/
theorem existsUnique_of_nodup_flatten {lists : List (List Nat)} (h : lists.flatten.Nodup) {n : Nat}
    (hn : n ∈ lists.flatten) : ∃! i : Nat, ∃ l, lists[i]? = some l ∧ n ∈ l := by
  obtain ⟨l, hl, hnl⟩ := List.mem_flatten.mp hn
  obtain ⟨i, hi⟩ := List.getElem?_of_mem hl
  have hdisjoint := List.pairwise_iff_getElem.mp (List.nodup_flatten.mp h).2
  refine ⟨i, ⟨l, hi, hnl⟩, ?_⟩
  rintro j ⟨l', hj, hnl'⟩
  obtain ⟨hi', rfl⟩ := List.getElem?_eq_some_iff.mp hi
  obtain ⟨hj', rfl⟩ := List.getElem?_eq_some_iff.mp hj
  rcases Nat.lt_trichotomy i j with hlt | heq | hgt
  · exact absurd hnl' (hdisjoint i j hi' hj' hlt hnl)
  · exact heq.symm
  · exact absurd hnl (hdisjoint j i hj' hi' hgt hnl')

/-- However branches are left to a run and end, and wherever settles of the run are interrupted: every
branch that was left to the run has been waited for by one settle, to its end, or else it is still
left to the run or waited for by the settle in progress. When a settle returns the number of the
branches it has waited for, all that were left to the run until then have ended. -/
theorem accounted_for {m : Machine} (hrun : run < m.runs.size)
    (h : Reaches run (Course.start m run) c) :
    c.adopted.Perm (c.awaited.flatten ++ (c.held ++ c.machine.registered run)) ∧
      (c.call = none → c.adopted.Perm (c.awaited.flatten ++ c.machine.registered run)) ∧
      (c.adopted.Nodup → ∀ n ∈ c.adopted,
        (∃! i : Nat, ∃ l, c.awaited[i]? = some l ∧ n ∈ l) ∧ n ∉ c.held ++ c.machine.registered run ∨
          (∀ l ∈ c.awaited, n ∉ l) ∧ n ∈ c.held ++ c.machine.registered run) ∧
      (∀ n ∈ c.awaited.flatten, c.machine.HasEnded n) ∧
      ∀ r ∈ c.returned, ∀ count, r.answer = .ok count → count = r.awaited.length ∧
        r.machine.registered run = [] ∧ ∀ n ∈ r.adopted, r.machine.HasEnded n := by
  have hc := h.holds (holds_start hrun)
  refine ⟨hc.shared, fun idle => ?_, fun hnodup n hn => ?_, hc.ended, hc.drained⟩
  · have hheld : c.held = [] := by rw [Course.held, idle]; rfl
    have hshared := hc.shared
    rwa [hheld, List.nil_append] at hshared
  · obtain ⟨hawaited, -, hdisjoint⟩ := List.nodup_append'.mp (hc.shared.nodup_iff.mp hnodup)
    rcases List.mem_append.mp (hc.shared.mem_iff.mp hn) with hn | hn
    · exact Or.inl ⟨existsUnique_of_nodup_flatten hawaited hn, hdisjoint hn⟩
    · exact Or.inr ⟨fun l hl hnl => hdisjoint (List.mem_flatten.mpr ⟨l, hl, hnl⟩) hn, hn⟩

def forked : Machine :=
  { Machine.new default (Solo.quietWorld []) with
    runs := #[⟨.new 4, .empty, [], .start "orders", []⟩]
    branches := #[⟨.ended (.ok .null) 0, none⟩, .new (.pure (.ok .null))] }

def interrupted : Course :=
  let left := (Course.start forked 0).leave (forked.adopt 0 [0, 1]) [0, 1]
  let waiting := (left.begin .main (some (.root 7))).turn 0 ⟨.main, some (.root 7), .fresh, []⟩
  let cancelled := waiting.leave (waiting.machine.cancel (.root 7)) []
  cancelled.turn 0 ⟨.main, some (.root 7), .stragglers [1] 1, [0]⟩

def resettled : Course :=
  ((interrupted.leave (interrupted.machine.endBranch 1 (.ok .null) 8) []).begin .main none).turn 0
    ⟨.main, none, .fresh, []⟩

theorem reaches_interrupted : Reaches 0 (Course.start forked 0) interrupted := by
  have hadopt : forked.Elsewhere 0 [0, 1] (forked.adopt 0 [0, 1]) :=
    Machine.elsewhere_adopt (by decide) _
  have hleft : Reaches 0 (Course.start forked 0) _ := .single (.elsewhere hadopt)
  have hwaiting := (hleft.tail (.begin rfl .main (some (.root 7)))).tail (.turn rfl)
  have hcancel := hwaiting.tail (.elsewhere (Machine.elsewhere_cancel (by decide) (.root 7)))
  exact hcancel.tail (.turn (s := ⟨.main, some (.root 7), .stragglers [1] 1, [0]⟩) rfl)

theorem reaches_resettled : Reaches 0 (Course.start forked 0) resettled := by
  have hidle : interrupted.call = none := Option.isNone_iff_eq_none.mp (by decide)
  generalize hleft : interrupted.leave (interrupted.machine.endBranch 1 (.ok .null) 8) [] = left
  have hended : Reaches 0 (Course.start forked 0) left :=
    hleft ▸ reaches_interrupted.tail
      (.elsewhere (interrupted.machine.elsewhere_endBranch 0 1 (.ok .null) 8))
  have hcall : left.call = none := hleft ▸ hidle
  rw [resettled, hleft]
  exact (hended.tail (.begin hcall .main none)).tail (.turn rfl)

/-- The first settle has waited for one of two branches, and the second one for the other. -/
theorem accounted_for_resettled :
    interrupted.awaited = [[0]] ∧ interrupted.machine.registered 0 = [1] ∧
      resettled.awaited = [[0], [1]] ∧ resettled.adopted.Perm (resettled.awaited.flatten ++
        (resettled.held ++ resettled.machine.registered 0)) ∧
      ∀ n ∈ resettled.awaited.flatten, resettled.machine.HasEnded n :=
  have h := accounted_for (by decide) reaches_resettled
  ⟨by decide, by decide, by decide, h.1, h.2.2.2.1⟩

end Stragglers
end FlowEngine

/-! ## Sessions -/

namespace FlowEngine

variable {run : Nat}

/-- Apart from settling the run, only a join concerns the branches that are left to it. -/
theorem Outline.Polls.leaves {o o₁ : Outline} {w : Wait} {e : Effect} {turn : Turn e.Answer}
    (h : o.Polls w o₁ e turn) (hrun : run < o.runs.length) (hs : ∀ token, e ≠ .settle run token) :
    run < o₁.runs.length ∧ ∃ added, o₁.stragglers run = o.stragglers run ++ added := by
  cases h.alters with
  | @failed r policy group bs turn left =>
      refine ⟨by simpa using hrun, ?_⟩
      by_cases hr : run = r
      · subst hr
        exact ⟨_, stragglers_modifyRun_self (g := (· ++ _)) _ (fun _ => rfl) hrun⟩
      · exact ⟨[], by rw [stragglers_modifyRun_of_ne _ _ hr, List.append_nil]; rfl⟩
  | @settled r token turn left =>
      have hr : run ≠ r := fun hr => hs token (hr ▸ rfl)
      refine ⟨by simpa using hrun, [], ?_⟩
      rw [stragglers_modifyRun_of_ne _ _ hr, List.append_nil]
  | @opened flow parent turn =>
      refine ⟨by simp; omega, [], ?_⟩
      rw [o.stragglers_open flow, List.append_nil]
  | spawned first => exact ⟨hrun, [], (List.append_nil _).symm⟩
  | still => exact ⟨hrun, [], (List.append_nil _).symm⟩
  | _ =>
      obtain ⟨-, -, hlen, hsame⟩ := h.calm (by simp) (by simp) (by simp)
      exact ⟨hlen ▸ hrun, [], by rw [hsame, List.append_nil]⟩

namespace System

variable {config : Config} {s s' : System RunResult} {log : List Occurrence}

def Settles (s : System RunResult) (run : Nat) (t : TaskId) (token : Option Token) (wait : Wait) : Prop :=
  s.machine.running = some t ∧
    ∃ next, s.task? t = some (.active (.perform (.settle run token) next) wait)

theorem Moves.hasEnded (h : s.Moves config log s') {n : Nat} (hn : s.machine.HasEnded n) :
    s'.machine.HasEnded n := by
  have hresult (s : System RunResult) (r : Except Failure Json) (k : Nat) :
      s.machine.branchResult? n = some (r, k) ↔ s.task? (.branch n) = some (.ended r k) := by
    rw [← s.machine.branchResult?_outline s.main, Outline.branchResult?_eq_some, ← task?_outline]
    rfl
  obtain ⟨⟨r, k⟩, hr⟩ := Option.isSome_iff_exists.mp hn
  have hstill := (Reaches.single h).branch_ended ((hresult s r k).mp hr)
  exact Option.isSome_iff_exists.mpr ⟨_, (hresult s' r k).mpr hstill⟩

theorem Moves.elsewhere (h : s.Moves config log s') (hrun : run < s.machine.runs.size)
    (hother : ∀ t token wait, ¬ s.Settles run t token wait) :
    ∃ added, s.machine.Elsewhere run added s'.machine := by
  have hlen : run < s.outline.runs.length := by simpa [outline, Machine.outline] using hrun
  have hpolls {t : TaskId} {e : Effect} {next : e.Answer → Program t.Result} {w : Wait}
      {turn : Turn e.Answer} {o : Outline} (running : s.machine.running = some t)
      (active : s.outline.task? t = some (.active (.perform e next) w))
      (polls : s.outline.Polls w o e turn) :
      run < o.runs.length ∧ ∃ added, o.stragglers run = s.outline.stragglers run ++ added := by
    refine polls.leaves hlen ?_
    rintro token rfl
    exact hother t token w ⟨running, next, by rw [← task?_outline, active]⟩
  have hleft : run < s'.outline.runs.length ∧
      ∃ added, s'.outline.stragglers run = s.outline.stragglers run ++ added := by
    have hadvances := h.advances
    have hsame : ∃ added, s.outline.stragglers run = s.outline.stragglers run ++ added :=
      ⟨[], (List.append_nil _).symm⟩
    generalize s'.outline = o' at hadvances
    cases hadvances with
    | finish running active order =>
        change run < (s.outline.setTask _ _).runs.length ∧
          ∃ added, (s.outline.setTask _ _).stragglers run = _
        rw [Outline.setTask_runs, Outline.setTask_stragglers]
        exact ⟨hlen, hsame⟩
    | answer running active start polls =>
        rw [Outline.setTask_runs, Outline.setTask_stragglers]
        exact hpolls running active polls
    | wait running active start polls =>
        change run < (Outline.setTask _ _ _).runs.length ∧
          ∃ added, (Outline.setTask _ _ _).stragglers run = _
        rw [Outline.setTask_runs, Outline.setTask_stragglers]
        exact hpolls running active polls
    | _ => exact ⟨hlen, hsame⟩
  obtain ⟨hrun', added, hadded⟩ := hleft
  exact ⟨added, Machine.elsewhere_of_outline s.main s'.main hrun' hadded fun n => h.hasEnded⟩

/-- A move in which the run is settled: after the poll only the settling task is put where it has got to. -/
theorem Moves.settles (h : s.Moves config log s') (hrun : run < s.machine.runs.size) {t : TaskId}
    {token : Option Token} {wait : Wait} (hs : s.Settles run t token wait) :
    (s.machine.pollSettle t run token wait).machine.Elsewhere run [] s'.machine := by
  obtain ⟨running, next, active⟩ := hs
  obtain ⟨gone, hturned⟩ := Machine.pollSettle_turned hrun t token wait
  have hended (n : Nat) (hn : (s.machine.pollSettle t run token wait).machine.HasEnded n) :
      s'.machine.HasEnded n := by
    rw [Machine.HasEnded, hturned.results] at hn
    exact h.hasEnded hn
  have hlen (main : TaskState RunResult) : run <
      ((s.machine.pollSettle t run token wait).machine.outline main).runs.length := by
    simpa [Machine.outline, hturned.size] using hrun
  have hidle (hi : s.Idle) : False := by
    rw [hi.2] at running
    cases running
  cases h with
  | step hstep =>
      rcases hturn : (TaskState.active (.perform (.settle run token) next) wait).step t s.machine
        with ⟨state', goesOn, m⟩
      have ho := step?_outline hstep running active hturn
      have hm : m = (s.machine.pollSettle t run token wait).machine := by
        rw [TaskState.step, Machine.poll] at hturn
        cases hp : s.machine.pollSettle t run token wait <;> rw [hp] at hturn <;> cases hturn <;> rfl
      subst hm
      have hruns : s'.outline.runs =
          ((s.machine.pollSettle t run token wait).machine.outline s.main).runs := by
        rw [ho]
        split <;> exact Outline.setTask_runs _ _
      refine Machine.elsewhere_of_outline s.main s'.main ?_ ?_ hended
      · change run < s'.outline.runs.length
        rw [hruns]
        exact hlen _
      · change s'.outline.stragglers run = _
        rw [List.append_nil, Outline.stragglers, Outline.stragglers, hruns]
  | newToken h => exact (hidle h).elim
  | cancel h => exact (hidle h).elim
  | cancelAfter h => exact (hidle h).elim
  | submit h => exact (hidle h).elim
  | start h => exact (hidle h).elim

/-- Every move of a session is part of a course, when only the settle in progress settles the run. -/
theorem Moves.follows (h : s.Moves config log s') (hrun : run < s.machine.runs.size)
    {c : Stragglers.Course} (hc : c.machine = s.machine)
    (honly : ∀ t token wait, s.Settles run t token wait →
      ∃ awaited, c.call = some ⟨t, token, wait, awaited⟩) :
    ∃ c', Stragglers.Reaches run c c' ∧ c'.machine = s'.machine := by
  by_cases hs : ∃ t token wait, s.Settles run t token wait
  · obtain ⟨t, token, wait, hs⟩ := hs
    obtain ⟨awaited, hcall⟩ := honly t token wait hs
    have hafter : (c.turn run ⟨t, token, wait, awaited⟩).machine.Elsewhere run [] s'.machine := by
      rw [Stragglers.Course.machine_turn, Stragglers.Call.poll, hc]
      exact h.settles hrun hs
    exact ⟨_, .tail (.single (.turn hcall)) (.elsewhere hafter), rfl⟩
  · obtain ⟨added, hadded⟩ := h.elsewhere hrun fun t token wait hst => hs ⟨t, token, wait, hst⟩
    exact ⟨_, .single (.elsewhere (hc ▸ hadded)), rfl⟩

end System
end FlowEngine
