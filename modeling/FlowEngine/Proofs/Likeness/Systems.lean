import FlowEngine.Proofs.Likeness.Polls
import FlowEngine.Proofs.Session.Course

/-!
# Systems that are alike

Systems that are alike go on alike, step by step, and they come to results that mean the same.
-/
namespace FlowEngine

variable {v : Likeness} {α β : Type} {R : α → β → Prop}

theorem TaskState.Like.allows {s : TaskState α} {s' : TaskState β} (h : TaskState.Like v R s s')
    {e : Effect} {next : e.Answer → Program α} {w : Wait} (hs : s = .active (.perform e next) w) :
    v.Allows e := by
  cases h with
  | ended order related => cases hs
  | active w' programs =>
      cases hs
      cases programs with
      | perform allowed branches rest => exact allowed

/-- A task that performs an effect on machines that are alike gets equally far. -/
theorem TaskState.Like.step {s : TaskState α} {s' : TaskState β} (hs : TaskState.Like v R s s')
    {m m' : Machine} (h : m.Like v m') (me : TaskId) :
    TaskState.Like v R (s.step me m).1 (s'.step (v.shift.task me) m').1 ∧
      (s'.step (v.shift.task me) m').2.1 = (s.step me m).2.1 ∧
      (s.step me m).2.2.Like v (s'.step (v.shift.task me) m').2.2 := by
  cases hs with
  | ended order related => exact ⟨.ended order related, rfl, h⟩
  | active w programs =>
      cases programs with
      | pure related =>
          refine ⟨?_, rfl, h.count⟩
          simp only [TaskState.step, h.moved_next]
          exact .ended m.next related
      | @perform _ _ _ e next next' allowed branches rest =>
          have hpoll := h.poll me w allowed branches
          simp only [TaskState.step]
          generalize m.poll me w e = x,
            m'.poll (v.shift.task me) (v.shift.wait w) (v.shift.effect e) = x' at hpoll
          cases hpoll with
          | answered related machines => exact ⟨.active .fresh (rest _ _ related), rfl, machines⟩
          | waiting w machines => exact ⟨.active w (.perform allowed branches rest), rfl, machines⟩

namespace Machine.Like

variable {m m' : Machine}

theorem resume (h : m.Like v m') {s : TaskState α} {s' : TaskState β} (hs : TaskState.Like v R s s')
    (goesOn : Bool) (waiter : Option TaskId) :
    (m.resume s goesOn waiter).Like v (m'.resume s' goesOn (waiter.map v.shift.task)) := by
  have hpaused : Machine.Like v { m with running := none } { m' with running := none } :=
    { h with running := rfl }
  unfold Machine.resume
  split
  · exact h
  · cases hs with
    | active w programs => exact hpaused
    | ended order related => exact hpaused.wakeIfSome waiter

theorem stepBranch (h : m.Like v m') (number : Nat) :
    (m.stepBranch number).Like v (m'.stepBranch (number + v.shift.branches)) := by
  unfold Machine.stepBranch
  have htask := h.branches.get number
  generalize m.branches[number]? = a, m'.branches[number + v.shift.branches]? = a' at htask
  cases htask with
  | none => exact { h with running := rfl }
  | @some task task' ht =>
      obtain ⟨hstate, hgoesOn, hlike⟩ := ht.state.step h (.branch number)
      rw [Shift.task] at hstate hgoesOn hlike
      have hwaiter : (task'.state.step (.branch (number + v.shift.branches)) m').2.2.branches[
          number + v.shift.branches]?.bind Task.waiter =
          ((task.state.step (.branch number) m).2.2.branches[number]?.bind Task.waiter).map
            v.shift.task := by
        have hbranch := hlike.branches.get number
        generalize (task.state.step (.branch number) m).2.2.branches[number]? = a,
          (task'.state.step (.branch (number + v.shift.branches)) m').2.2.branches[
            number + v.shift.branches]? = a' at hbranch
        cases hbranch with
        | none => rfl
        | some ht => exact ht.waiter
      dsimp only
      rw [hgoesOn, hwaiter]
      refine Machine.Like.resume ?_ hstate _ _
      exact { hlike with
        branches := hlike.branches.modify (f := fun t => { t with state := _ })
          (g := fun t => { t with state := _ }) fun _ _ ht => ⟨hstate, ht.waiter⟩ }

theorem stepSubmission (h : m.Like v m') (number : Nat) :
    (m.stepSubmission number).Like v (m'.stepSubmission number) := by
  unfold Machine.stepSubmission
  rw [h.submissions.1, h.submissions.2]
  exact { h with running := rfl, submissions := ⟨rfl, rfl⟩ }

end Machine.Like

/-- Nobody can go on before the clock moves. -/
structure Machine.Still (m : Machine) : Prop where
  running : m.running = none
  ready : m.ready = []
  mainReady : m.mainReady = false

theorem Machine.Like.still {m m' : Machine} (h : m.Like v m') : m'.Still ↔ m.Still := by
  constructor
  · rintro ⟨running, ready, main⟩
    rw [h.running, Option.map_eq_none_iff] at running
    rw [h.ready, List.map_eq_nil_iff] at ready
    exact ⟨running, ready, h.mainReady ▸ main⟩
  · rintro ⟨running, ready, main⟩
    exact ⟨by rw [h.running, running]; rfl, by rw [h.ready, ready]; rfl, h.mainReady.trans main⟩

namespace System

theorem step?_of_still {s : System α} (h : s.machine.Still) :
    s.step? = s.machine.advanceClock?.map fun machine => { s with machine } := by
  unfold step? Machine.dispatch?
  rw [h.running, h.ready, h.mainReady]
  rfl

structure Like (v : Likeness) (R : α → β → Prop) (s : System α) (s' : System β) : Prop where
  machine : s.machine.Like v s'.machine
  main : TaskState.Like v R s.main s'.main

namespace Like

variable {s : System α} {s' : System β}

theorem start {m m' : Machine} (h : m.Like v m') {p : Program α} {p' : Program β}
    (hp : Program.Like v R p p') : Like v R (System.start m p) (System.start m' p') :=
  ⟨{ h with mainReady := rfl, running := rfl }, .active .fresh hp⟩

/-- As long as somebody can go on, both systems take the same step. -/
theorem step?_of_busy (h : Like v R s s') (busy : ¬ s.machine.Still) :
    Option.Rel (Like v R) s.step? s'.step? := by
  obtain ⟨hmachine, hmain⟩ := h
  unfold System.step?
  rw [hmachine.running]
  cases hrunning : s.machine.running with
  | none =>
      simp only [Option.map_none]
      unfold Machine.dispatch?
      rw [hmachine.ready, hmachine.mainReady]
      cases hready : s.machine.ready with
      | nil =>
          cases hfree : s.machine.mainReady with
          | true =>
            exact .some ⟨{ hmachine with ready := rfl, mainReady := rfl, running := rfl }, hmain⟩
          | false => exact absurd ⟨hrunning, hready, hfree⟩ busy
      | cons t rest =>
          exact .some ⟨{ hmachine with ready := rfl, mainReady := rfl, running := rfl }, hmain⟩
  | some t =>
      cases t with
      | main =>
          obtain ⟨hstate, hgoesOn, hlike⟩ := hmain.step hmachine .main
          simp only [Option.map_some, Shift.task] at hstate hgoesOn hlike ⊢
          rw [hgoesOn]
          exact .some ⟨hlike.resume hstate _ none, hstate⟩
      | branch number => exact .some ⟨hmachine.stepBranch number, hmain⟩
      | submission number => exact .some ⟨hmachine.stepSubmission number, hmain⟩

section

variable (alone : ∀ token, ¬ v.expects token)
include alone

theorem step? (h : Like v R s s') : Option.Rel (Like v R) s.step? s'.step? := by
  by_cases still : s.machine.Still
  · rw [step?_of_still still, step?_of_still (h.machine.still.mpr still)]
    have hclock := h.machine.advanceClock? alone
    generalize s.machine.advanceClock? = a, s'.machine.advanceClock? = a' at hclock
    cases hclock with
    | none => exact .none
    | some hm => exact .some ⟨hm, h.main⟩
  · exact h.step?_of_busy still

/-- Within the same number of steps both systems come to a result or neither does. -/
theorem run (h : Like v R s s') (fuel : Nat) :
    Option.Rel (fun x x' => R x.1 x'.1 ∧ x.2.Like v x'.2) (s.run fuel) (s'.run fuel) := by
  induction fuel generalizing s s' with
  | zero =>
      obtain ⟨hmachine, hmain⟩ := h
      obtain ⟨m, state⟩ := s
      obtain ⟨m', state'⟩ := s'
      cases hmain with
      | active w programs => exact .none
      | ended order related => exact .some ⟨related, hmachine⟩
  | succ fuel ih =>
      have hstep := h.step? alone
      obtain ⟨hmachine, hmain⟩ := h
      obtain ⟨m, state⟩ := s
      obtain ⟨m', state'⟩ := s'
      cases hmain with
      | ended order related => exact .some ⟨related, hmachine⟩
      | active w programs =>
          simp only [System.run]
          revert hstep
          generalize System.step? _ = a, System.step? _ = a'
          rintro (⟨hs⟩ | -)
          · exact ih hs
          · exact .none

/-- After the same number of steps systems that are alike still are. -/
theorem course {R : RunResult → RunResult → Prop} {s s' : System RunResult} (h : Like v R s s')
    (fuel : Nat) : Like v R (s.course fuel).2 (s'.course fuel).2 := by
  induction fuel generalizing s s' with
  | zero => exact h
  | succ fuel ih =>
      have hstep := h.step? alone
      rw [System.course, System.course]
      revert hstep
      generalize s.step? = a, s'.step? = a'
      rintro (⟨hs⟩ | -)
      · exact ih hs
      · exact h

end

end Like
end System
end FlowEngine
