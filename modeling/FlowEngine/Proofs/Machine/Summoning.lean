import FlowEngine.Proofs.Machine.Heeding
import FlowEngine.Proofs.Machine.Permits
import FlowEngine.Proofs.Session.Polled

/-!
# Who can be woken

A poll wakes nobody but tasks that wait under a token, tasks in line for a permit, and branches that
it starts.
-/
namespace FlowEngine

namespace Gate

variable {ι : Type} {g g' : Gate ι} {i : ι}

theorem mem_waiting_of_release (h : i ∈ g.release.1.waiting ∨ g.release.2 = some i) :
    i ∈ g.waiting := by
  unfold release at h
  cases hw : g.waiting with
  | nil =>
      rw [hw] at h
      rcases h with hm | hn
      · exact absurd hm List.not_mem_nil
      · cases hn
  | cons j rest =>
      rw [hw] at h
      rcases h with hm | hn
      · exact List.mem_cons_of_mem j hm
      · cases hn
        exact List.mem_cons_self

variable [DecidableEq ι] {j : ι}

theorem mem_waiting_of_withdraw (h : i ∈ (g.withdraw j).1.waiting ∨ (g.withdraw j).2 = some i) :
    i ∈ g.waiting := by
  unfold withdraw at h
  cases hc : g.claim? j with
  | none =>
      rw [hc] at h
      exact List.mem_of_mem_erase (h.resolve_right nofun)
  | some g' =>
      rw [hc] at h
      have hm : i ∈ g'.waiting := mem_waiting_of_release h
      obtain ⟨-, rfl⟩ := claim?_eq_some.mp hc
      exact hm

end Gate

namespace Machine

/-- Whoever is ready to go on meets a condition, and whoever waits under a token or is in line for a
permit does so, too. -/
structure Summons (m : Machine) (P : TaskId → Prop) : Prop where
  ready {t : TaskId} : t ∈ m.ready → t ≠ .main ∧ P t
  observed {token : Token} {t : TaskId} : (token, t) ∈ m.observers → P t
  queued {run : Nat} {g : Gate TaskId} {t : TaskId} : m.gate? run = some g → t ∈ g.waiting → P t

namespace Summons

variable {m m' : Machine} {P : TaskId → Prop} {me : TaskId} {run : Nat}

theorem of_eq (h : m.Summons P) (hready : m'.ready = m.ready)
    (hobservers : m'.observers = m.observers)
    (hgate : m'.gate? = m.gate?) : m'.Summons P :=
  ⟨fun ht => h.ready (hready ▸ ht), fun ht => h.observed (hobservers ▸ ht),
    fun hg => h.queued (hgate ▸ hg)⟩

theorem modifyRun (h : m.Summons P) (run : Nat) {f : ActiveRun → ActiveRun}
    (hf : ∀ r, (f r).gate = r.gate) : (m.modifyRun run f).Summons P :=
  h.of_eq rfl rfl (gate?_modifyRun m run f hf)

theorem wake (h : m.Summons P) {t : TaskId} (ht : P t) : (m.wake t).Summons P := by
  have hready (ht' : t ≠ .main) : Summons
      (if t ∈ m.ready then m else { m with ready := m.ready ++ [t] }) P := by
    split
    · exact h
    · refine ⟨fun {u} hu => ?_, h.observed, h.queued⟩
      rcases List.mem_append.mp hu with hu | hu
      · exact h.ready hu
      · rw [List.mem_singleton.mp hu]
        exact ⟨ht', ht⟩
  cases t with
  | main => exact ⟨h.ready, h.observed, h.queued⟩
  | branch number => exact hready nofun
  | submission number => exact hready nofun

theorem wakeIfSome (h : m.Summons P) {t : Option TaskId} (ht : ∀ u, t = some u → P u) :
    (m.wakeIfSome t).Summons P := by
  cases t with
  | none => exact h
  | some t => exact h.wake (ht t rfl)

theorem setWaiters (h : m.Summons P) (waiter : Option TaskId) (numbers : List Nat) :
    (m.setWaiters waiter numbers).Summons P := by
  induction numbers generalizing m with
  | nil => exact h
  | cons number rest ih => exact @ih (m.setWaiter waiter number) ⟨h.ready, h.observed, h.queued⟩

theorem spawn (h : m.Summons P) (programs : List (Program (Except Failure Json)))
    (hP : ∀ n, m.branches.size ≤ n → n < m.branches.size + programs.length → P (.branch n)) :
    (m.spawn programs).2.Summons P := by
  induction programs generalizing m with
  | nil => exact h
  | cons p rest ih =>
      have hpushed : Summons { m with branches := m.branches.push (.new p) } P :=
        ⟨h.ready, h.observed, h.queued⟩
      have hsize : ({ m with branches := m.branches.push (.new p) }.wake
          (.branch m.branches.size)).branches.size = m.branches.size + 1 := by
        have hbranches := branches_wakeIfSome { m with branches := m.branches.push (.new p) }
          (some (.branch m.branches.size))
        exact (congrArg Array.size hbranches).trans (Array.size_push _)
      refine ih (hpushed.wake (hP _ (Nat.le_refl _) (by simp))) fun n hge hlt => ?_
      rw [hsize] at hge hlt
      exact hP n (by omega) (by rw [List.length_cons]; omega)

/-! ## Tokens and timers -/

theorem observe (h : m.Summons P) (token : Token) (hme : P me) :
    (m.observe token me).Summons P := by
  unfold Machine.observe
  split
  · exact h
  · refine ⟨h.ready, fun {other t} ht => ?_, h.queued⟩
    rcases List.mem_append.mp ht with ht | ht
    · exact h.observed ht
    · cases List.mem_singleton.mp ht
      exact hme

theorem forget (h : m.Summons P) (me : TaskId) : (m.forget me).Summons P :=
  ⟨h.ready, fun ht => h.observed (List.mem_filter.mp ht).1, h.queued⟩

theorem cancel (h : m.Summons P) (token : Token) : (m.cancel token).Summons P := by
  have hfold (released : List (Token × TaskId)) {m : Machine} (h : m.Summons P)
      (hreleased : ∀ p ∈ released, P p.2) :
        (released.foldl (fun m p => m.wake p.2) m).Summons P := by
    induction released generalizing m with
    | nil => exact h
    | cons p rest ih =>
        obtain ⟨hp, hrest⟩ := List.forall_mem_cons.mp hreleased
        exact ih (h.wake hp) hrest
  unfold Machine.cancel
  rw [List.partition_eq_filter_filter]
  refine hfold _ ⟨h.ready, fun ht => ?_, h.queued⟩ fun p hp => ?_
  · exact h.observed (List.mem_filter.mp ht).1
  · exact h.observed (List.mem_filter.mp hp).1

theorem schedule (h : m.Summons P) (span : Nat) (alarm : Alarm) :
    (m.schedule span alarm).2.Summons P :=
  ⟨h.ready, h.observed, h.queued⟩

theorem stopTimer (h : m.Summons P) (number : Nat) : (m.stopTimer number).Summons P :=
  ⟨h.ready, h.observed, h.queued⟩

/-! ## Permits -/

theorem setGate (h : m.Summons P) {g : Gate TaskId} (hg : ∀ t ∈ g.waiting, P t) :
    (m.setGate run g).Summons P := by
  refine ⟨h.ready, h.observed, fun {other k t} hk ht => ?_⟩
  cases hrun : m.gate? run with
  | none =>
      have hsame : m.gate? other = some k := by
        rw [← hk]
        simp only [gate?, Machine.setGate, Machine.modifyRun, Array.getElem?_modify]
        split
        · rename_i same
          subst same
          rw [gate?, Option.map_eq_none_iff] at hrun
          rw [hrun]
          rfl
        · rfl
      exact h.queued hsame ht
  | some g₀ =>
      rw [gate?_setGate (by rw [hrun]; rfl)] at hk
      by_cases hother : other = run
      · subst hother
        rw [Function.update_self] at hk
        cases hk
        exact hg t ht
      · rw [Function.update_of_ne hother] at hk
        exact h.queued hk ht

theorem gate_of_run (h : m.Summons P) {r : ActiveRun} (hr : m.runs[run]? = some r) :
    ∀ t ∈ r.gate.waiting, P t := by
  have hgate : m.gate? run = some r.gate := by rw [gate?, hr]; rfl
  exact fun _ => h.queued hgate

theorem releasePermit (h : m.Summons P) (run : Nat) : (m.releasePermit run).Summons P := by
  unfold Machine.releasePermit
  split
  · exact h
  · rename_i r hr
    have hwaiting := h.gate_of_run hr
    refine (h.setGate fun t ht => ?_).wakeIfSome fun t ht => ?_
    · exact hwaiting t (Gate.mem_waiting_of_release (Or.inl ht))
    · exact hwaiting t (Gate.mem_waiting_of_release (Or.inr ht))

theorem withdraw (h : m.Summons P) (run : Nat) (me : TaskId) : (m.withdraw run me).Summons P := by
  unfold Machine.withdraw
  split
  · exact h
  · rename_i r hr
    have hwaiting := h.gate_of_run hr
    refine (h.setGate fun t ht => ?_).wakeIfSome fun t ht => ?_
    · exact hwaiting t (Gate.mem_waiting_of_withdraw (Or.inl ht))
    · exact hwaiting t (Gate.mem_waiting_of_withdraw (Or.inr ht))

/-! ## Polls -/

theorem errand (hme : P me) : Errand (fun m m' => m.Summons P → m'.Summons P) me where
  refl _ h := h
  trans hm hm' h := hm' (hm h)
  modifyRun _ run _ gate _ h := h.modifyRun run gate
  modifyWorld _ _ _ h := ⟨h.ready, h.observed, h.queued⟩
  forget _ h := h.forget me
  observe _ token h := h.observe token hme
  schedule _ span h := h.schedule span _
  stopTimer _ number h := h.stopTimer number
  setGate _ _ _ _ there line h := h.setGate fun t ht =>
    (line t ht).elim (h.gate_of_run there t) fun heq => heq ▸ hme
  releasePermit _ run h := h.releasePermit run
  withdraw _ run h := h.withdraw run me

theorem pollJoin (h : m.Summons P) (policy : JoinPolicy) (group : Token) (bs : List Branch)
    (wait : Wait)
    (hP : ∀ n, m.branches.size ≤ n → n < m.branches.size + bs.length →
      (∀ tasks, wait ≠ .branches tasks) → P (.branch n)) :
    (m.pollJoin me run policy group bs wait).machine.Summons P := by
  unfold Machine.pollJoin
  cases wait with
  | branches tasks =>
      dsimp only
      unfold checkJoin
      split
      · exact ((h.cancel group).setWaiters none _).modifyRun run fun _ => rfl
      · unfold gather
        split <;> exact h
  | _ =>
      have hspawned : (m.spawn (bs.map Branch.program)).2.Summons P := by
        refine h.spawn _ fun n hge hlt => hP n hge ?_ nofun
        rwa [List.length_map] at hlt
      dsimp only
      split
      · exact hspawned
      · exact hspawned.setWaiters _ _

theorem settleList (h : m.Summons P) (hme : P me) (run : Nat) (token : Option Token)
    (tasks : List Nat)
    (count : Nat) : (Machine.settleList me run token tasks count m).polled.machine.Summons P := by
  induction tasks generalizing m count with
  | nil => exact h
  | cons task rest ih =>
      unfold Machine.settleList
      split
      · exact ((h.forget me).setWaiters none [task]).modifyRun run fun _ => rfl
      · split
        · exact ih (h.forget me) (count + 1)
        · have hwaits := h.setWaiters (some me) [task]
          cases token with
          | none => exact hwaits
          | some token => exact hwaits.observe token hme

theorem settleRun (h : m.Summons P) (hme : P me) (token : Option Token) (tasks : List Nat)
    (count : Nat) : (m.settleRun me run token tasks count).polled.machine.Summons P := by
  have hlist := h.settleList hme run token tasks count
  unfold Machine.settleRun
  split
  · rename_i count m' hsettled
    rw [hsettled] at hlist
    have htaken : (m'.takeStragglers run).2.Summons P := hlist.modifyRun run fun _ => rfl
    exact htaken.settleList hme run token _ _
  · exact hlist

theorem mark (h : m.Summons P) (run : Nat) (step : String) (status : Option StepStatus) :
    (m.mark run step status).2.Summons P := by
  unfold Machine.mark
  split
  · exact h.modifyRun run fun _ => rfl
  · exact h
  · exact h

theorem openRun (h : m.Summons P) (flow : String) (parent : Token) :
    (m.openRun flow parent).2.Summons P := by
  refine ⟨h.ready, h.observed, fun {run g t} hg ht => ?_⟩
  simp only [gate?, Machine.openRun, Machine.childToken, Array.getElem?_push] at hg
  split at hg
  · cases hg
    cases ht
  · exact h.queued hg ht

/-- A poll wakes whoever waits under a token or is in line for a permit or a slot, and the branches
that it starts. -/
theorem poll (h : m.Summons P) (hme : P me) (wait : Wait) {e : Effect}
    (hslot : e = .releaseSlot → ∀ t ∈ m.slots.waiting, P t)
    (hP : ∀ run policy group bs, e = .join run policy group bs → ∀ n, m.branches.size ≤ n →
      n < m.branches.size + bs.length → (∀ tasks, wait ≠ .branches tasks) → P (.branch n)) :
    (m.poll me wait e).machine.Summons P := by
  cases e with
  | request run token request => exact (errand hme).pollRequest m run token request wait h
  | sleep token span => exact (errand hme).pollSleep m token span wait h
  | join run policy group bs => exact h.pollJoin policy group bs wait (hP run policy group bs rfl)
  | settle run token =>
      simp only [Machine.poll, pollSettle_eq]
      exact h.settleRun hme token _ _
  | startSpan ctx step => exact h.mark ctx.run step none
  | endSpan ctx step status => exact h.mark ctx.run step (some status)
  | childToken token => exact ⟨h.ready, h.observed, h.queued⟩
  | openRun flow parent => exact h.openRun flow parent
  | startDeadline token limit => exact h.schedule _ _
  | stopDeadline deadline => exact h.stopTimer deadline
  | acquireSlot =>
      simp only [Machine.poll, pollSlot]
      split <;> split <;> exact ⟨h.ready, h.observed, h.queued⟩
  | awaitRun submission =>
      simp only [Machine.poll, pollRun]
      split <;> exact ⟨h.ready, h.observed, h.queued⟩
  | releaseSlot =>
      have hreleased : Summons { m with slots := m.slots.release.1 } P :=
        ⟨h.ready, h.observed, h.queued⟩
      exact hreleased.wakeIfSome fun t ht => hslot rfl t (Gate.mem_waiting_of_release (Or.inr ht))
  | _ => exact (errand hme).toClerical.poll m me wait rfl h

/-! ## Steps -/

/-- When the clock moves, the timers that fire wake whoever waits for them. -/
theorem advanceClock? (h : m.Summons P) (hm : m.advanceClock? = some m')
    (hP : ∀ x ∈ m.timers, ∀ t, x.alarm = .wake t → P t) : m'.Summons P := by
  have hfold (fired : List Timer) {m : Machine} (h : m.Summons P)
      (hfired : ∀ x ∈ fired, ∀ t, x.alarm = .wake t → P t) :
      (fired.foldl (fun m x => m.ring x.alarm) m).Summons P := by
    induction fired generalizing m with
    | nil => exact h
    | cons x rest ih =>
        obtain ⟨hx, hrest⟩ := List.forall_mem_cons.mp hfired
        have hrung : (m.ring x.alarm).Summons P := by
          cases halarm : x.alarm with
          | wake t => exact h.wake (hx t halarm)
          | cancel token => exact h.cancel token
        exact ih hrung hrest
  obtain ⟨due, rfl⟩ := m.advanceClock?_eq hm
  exact hfold _ ⟨h.ready, h.observed, h.queued⟩ fun x hx => hP x (List.mem_filter.mp hx).1

theorem resume {α : Type} (h : m.Summons P) (progress : TaskState α) (goesOn : Bool)
    {waiter : Option TaskId} (hP : ∀ t, waiter = some t → P t) :
    (m.resume progress goesOn waiter).Summons P := by
  have hpaused : Summons { m with running := none } P := ⟨h.ready, h.observed, h.queued⟩
  unfold Machine.resume
  split
  · exact h
  · split
    · exact hpaused.wakeIfSome hP
    · exact hpaused

end Summons

/-- The main task is never in the line of those that are ready. -/
theorem summons_of_not_mem {m : Machine} (h : .main ∉ m.ready) : m.Summons fun _ => True :=
  ⟨fun ht => ⟨fun hmain => h (hmain ▸ ht), trivial⟩, fun _ => trivial, fun _ _ => trivial⟩

end Machine

/-- The main task is not put into line. It goes on when no other task can. -/
theorem System.main_not_ready {s s' : System RunResult} (h : s.step? = some s')
    (hs : .main ∉ s.machine.ready) : .main ∉ s'.machine.ready := by
  suffices hsummons : s'.machine.Summons fun _ => True from
    fun hmain => (hsummons.ready hmain).1 rfl
  have hbefore := Machine.summons_of_not_mem hs
  have hstep {α : Type} (state : TaskState α) (t : TaskId) :
      (state.step t s.machine).2.2.Summons fun _ => True := by
    cases state with
    | ended a order => exact hbefore
    | active p w =>
        cases p with
        | pure a => exact ⟨hbefore.ready, hbefore.observed, hbefore.queued⟩
        | perform e next =>
            rw [TaskState.step_perform]
            exact hbefore.poll trivial w (fun _ _ _ => trivial) fun _ _ _ _ _ _ _ _ _ => trivial
  unfold step? at h
  split at h
  · cases h
    exact (hstep s.main .main).resume _ _ fun _ _ => trivial
  · rename_i number _
    cases h
    unfold Machine.stepBranch
    dsimp only
    split
    · exact ⟨hbefore.ready, hbefore.observed, hbefore.queued⟩
    · rename_i task _
      have hbranch := hstep task.state (.branch number)
      refine Machine.Summons.resume ?_ _ _ fun _ _ => trivial
      exact ⟨hbranch.ready, hbranch.observed, hbranch.queued⟩
  · rename_i number _
    cases h
    unfold Machine.stepSubmission
    dsimp only
    split
    · exact ⟨hbefore.ready, hbefore.observed, hbefore.queued⟩
    · rename_i task _
      have hsubmission := hstep task.state (.submission number)
      refine Machine.Summons.resume ?_ _ _ fun _ _ => trivial
      exact ⟨hsubmission.ready, hsubmission.observed, hsubmission.queued⟩
  · obtain ⟨m, hm, rfl⟩ := Option.map_eq_some_iff.mp h
    unfold Machine.dispatch? at hm
    split at hm
    · rename_i t rest hready
      cases hm
      refine ⟨fun ht => hbefore.ready ?_, hbefore.observed, hbefore.queued⟩
      rw [hready]
      exact List.mem_cons_of_mem t ht
    · split at hm
      · cases hm
        exact ⟨hbefore.ready, hbefore.observed, hbefore.queued⟩
      · exact hbefore.advanceClock? hm fun _ _ _ _ => trivial

end FlowEngine
