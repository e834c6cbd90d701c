import FlowEngine.Proofs.Machine.Advance
import FlowEngine.Proofs.Machine.Bystanders

/-!
# Numbers only grow

Tokens, timers and ends of tasks are numbered from one counter, which is never set
back. So the number of an end tells the order in which tasks have ended.
-/
namespace FlowEngine

namespace Machine

variable (m : Machine)

/-! ## What leaves the counter as it is -/

@[simp] theorem next_wake (t : TaskId) : (m.wake t).next = m.next := by
  unfold wake
  split
  · rfl
  · split <;> rfl

@[simp] theorem next_wakeIfSome (t : Option TaskId) : (m.wakeIfSome t).next = m.next := by
  cases t with
  | none => rfl
  | some t => exact m.next_wake t

theorem outsider_next : Outsider Machine.next where
  observers _ _ := rfl
  branches _ _ := rfl
  stragglers _ _ _ := rfl
  wake := next_wake

@[simp] theorem next_observe (token : Token) (t : TaskId) : (m.observe token t).next = m.next :=
  outsider_next.observe m token t

@[simp] theorem next_cancel (token : Token) : (m.cancel token).next = m.next :=
  outsider_next.cancel (fun _ _ => rfl) m token

@[simp] theorem next_ring (alarm : Alarm) : (m.ring alarm).next = m.next :=
  outsider_next.ring (fun _ _ => rfl) m alarm

theorem next_advanceClock? {m' : Machine} (h : m.advanceClock? = some m') : m'.next = m.next := by
  unfold advanceClock? at h
  cases hdue : m.nextDue? with
  | none =>
      rw [hdue] at h
      cases h
  | some due =>
      rw [hdue] at h
      cases h
      exact outsider_next.rings (fun _ _ => rfl) _ _

@[simp] theorem next_mark (run : Nat) (step : String) (status : Option StepStatus) :
    (m.mark run step status).2.next = m.next := by
  unfold mark
  split <;> rfl

/-- What requests and waits for time are made of does not set the counter back. -/
theorem errand_next (me : TaskId) : Errand (fun m m' => m.next ≤ m'.next) me := by
  refine .of_wake ?_ (fun m t => Nat.le_of_eq (m.next_wake t).symm) fun _ _ _ => Nat.le_refl _
  exact {
    refl _ := Nat.le_refl _
    trans := Nat.le_trans
    modifyRun _ _ _ _ _ := Nat.le_refl _
    modifyWorld _ _ _ := Nat.le_refl _
    forget _ := Nat.le_refl _
    observe m token := Nat.le_of_eq (m.next_observe token me).symm
    schedule _ _ := Nat.le_succ _
    stopTimer _ _ := Nat.le_refl _ }

/-! ## Polls -/

theorem next_pollSlot (me : TaskId) (wait : Wait) : (m.pollSlot me wait).machine.next = m.next := by
  unfold pollSlot
  cases wait <;> dsimp only <;> split <;> rfl

theorem next_poll (me : TaskId) (wait : Wait) (e : Effect) :
    m.next ≤ (m.poll me wait e).machine.next := by
  cases e with
  | childToken token => exact Nat.le_succ _
  | startDeadline token limit => exact Nat.le_succ _
  | startSpan ctx step => exact Nat.le_of_eq (m.next_mark ctx.run step none).symm
  | endSpan ctx step status => exact Nat.le_of_eq (m.next_mark ctx.run step (some status)).symm
  | request run token request => exact (errand_next me).pollRequest m run token request wait
  | sleep token span => exact (errand_next me).pollSleep m token span wait
  | join run policy group branches =>
      have hjoin := outsider_next.pollJoin policy (fun _ => next_cancel) m me run group branches wait
      exact Nat.le_of_eq hjoin.symm
  | settle run token => exact Nat.le_of_eq (outsider_next.pollSettle m me run token wait).symm
  | stopDeadline deadline => exact Nat.le_refl _
  | acquireSlot => exact Nat.le_of_eq (m.next_pollSlot me wait).symm
  | releaseSlot =>
      change m.next ≤ m.releaseSlot.next
      unfold releaseSlot
      dsimp only
      exact Nat.le_of_eq
        (next_wakeIfSome { m with slots := m.slots.release.1 } m.slots.release.2).symm
  | openRun flow parent => exact Nat.le_succ _
  | awaitRun submission =>
      unfold poll
      dsimp only
      unfold pollRun
      split <;> exact Nat.le_refl _
  | _ => exact (errand_next me).toClerical.poll m me wait rfl

/-! ## Steps of tasks -/

@[simp] theorem next_resume {α : Type} (progress : TaskState α) (goesOn : Bool)
    (waiter : Option TaskId) : (m.resume progress goesOn waiter).next = m.next := by
  unfold resume
  cases goesOn with
  | true => rfl
  | false =>
      cases progress with
      | active p w => rfl
      | ended a order => exact next_wakeIfSome _ _

theorem branches_wakeIfSome (t : Option TaskId) : (m.wakeIfSome t).branches = m.branches := by
  cases t with
  | none => rfl
  | some t =>
      unfold wakeIfSome wake
      dsimp only
      split
      · rfl
      · split <;> rfl

theorem branches_resume {α : Type} (progress : TaskState α) (goesOn : Bool)
    (waiter : Option TaskId) : (m.resume progress goesOn waiter).branches = m.branches := by
  unfold resume
  cases goesOn with
  | true => rfl
  | false =>
      cases progress with
      | active p w => rfl
      | ended a order => exact branches_wakeIfSome _ _

theorem next_step {α : Type} (me : TaskId) (state : TaskState α) :
    m.next ≤ (state.step me m).2.2.next := by
  cases state with
  | ended a order => exact Nat.le_refl _
  | active p w =>
      cases p with
      | pure a => exact Nat.le_succ _
      | perform e next =>
          have hpoll := m.next_poll me w e
          simp only [TaskState.step]
          split <;>
            · rename_i hp
              rw [hp] at hpoll
              exact hpoll

theorem next_stepBranch (number : Nat) : m.next ≤ (m.stepBranch number).next := by
  unfold stepBranch
  cases m.branches[number]? with
  | none => exact Nat.le_refl _
  | some task =>
      dsimp only
      rw [next_resume]
      exact m.next_step (.branch number) task.state

theorem next_stepSubmission (number : Nat) : m.next ≤ (m.stepSubmission number).next := by
  unfold stepSubmission
  cases m.submissions[number]? with
  | none => exact Nat.le_refl _
  | some task =>
      dsimp only
      rw [next_resume]
      exact m.next_step (.submission number) task.state

theorem next_dispatch? {m' : Machine} (h : m.dispatch? = some m') : m'.next = m.next := by
  unfold dispatch? at h
  split at h
  · cases h
    rfl
  · split at h
    · cases h
      rfl
    · exact m.next_advanceClock? h

end Machine

namespace System

variable {config : Config} {s s' : System RunResult} {log : List Occurrence}

theorem Moves.next_le (h : s.Moves config log s') : s.machine.next ≤ s'.machine.next := by
  cases h with
  | step h =>
      unfold step? at h
      split at h
      · cases h
        rw [Machine.next_resume]
        exact s.machine.next_step .main s.main
      · cases h
        exact s.machine.next_stepBranch _
      · cases h
        exact s.machine.next_stepSubmission _
      · obtain ⟨m, hd, rfl⟩ := Option.map_eq_some_iff.mp h
        exact Nat.le_of_eq (s.machine.next_dispatch? hd).symm
  | newToken h => exact Nat.le_succ _
  | cancel h token => exact Nat.le_of_eq (s.machine.next_cancel token).symm
  | cancelAfter h span token => exact Nat.le_succ _
  | submit h flow inputs token =>
      unfold Machine.submit
      refine Nat.le_of_eq (Eq.symm ?_)
      dsimp only
      rw [Machine.next_wake]
  | start h errand => exact Nat.le_refl _

theorem Moves.number_of_end {n : Nat} (h : s.Moves config [.ended (.branch n)] s') :
    ∃ r, s'.task? (.branch n) = some (.ended r s.machine.next) ∧
      s.machine.next < s'.machine.next := by
  generalize hlog : [Occurrence.ended (.branch n)] = log at h
  cases h with
  | step h =>
      unfold occurrences at hlog
      split at hlog
      · cases hlog
      · rename_i t running
        split at hlog
        · cases hlog
        · rename_i a w active
          cases hlog
          unfold step? at h
          rw [running] at h
          obtain ⟨task, htask, hstate⟩ := Option.map_eq_some_iff.mp active
          cases h
          simp only [task?, Machine.stepBranch, htask]
          rw [hstate]
          simp only [TaskState.step, Machine.branches_resume, Machine.next_resume,
            Array.getElem?_modify, if_true, htask]
          exact ⟨a, rfl, Nat.lt_succ_self _⟩
        · cases hlog
  | _ => cases hlog

theorem Reaches.next_le (h : s.Reaches config log s') : s.machine.next ≤ s'.machine.next := by
  induction h with
  | refl => exact Nat.le_refl _
  | move before move ih => exact Nat.le_trans ih move.next_le

end System
end FlowEngine
