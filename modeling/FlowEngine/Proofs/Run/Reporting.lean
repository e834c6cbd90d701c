import FlowEngine.Proofs.Machine.Reports
import FlowEngine.Proofs.Run.Wakefulness
import FlowEngine.Proofs.Session.Ends

/-!
# Nobody waits in a circle

A task that is told when another one ends waits for it as long as that one has not ended. So of two
tasks that have ended, the one that is told has ended later.
-/
namespace FlowEngine

namespace Machine

variable (m : Machine)

@[simp] theorem desk_resume {α : Type} (progress : TaskState α) (goesOn : Bool)
    (waiter : Option TaskId) : (m.resume progress goesOn waiter).desk = m.desk := by
  unfold resume
  cases goesOn with
  | true => rfl
  | false =>
      cases progress with
      | active p w => rfl
      | ended a order => exact desk_wakeIfSome _ waiter

theorem heir?_setBranch (number : Nat) (state : TaskState (Except Failure Json)) :
    { m with branches := m.branches.modify number fun task => { task with state } }.heir? =
      m.heir? := by
  funext t
  cases t with
  | branch n =>
      simp only [heir?, waiter?, Array.getElem?_modify]
      split
      · rw [Option.bind_map]
        rfl
      · rfl
  | _ => rfl

theorem heir?_setSubmission (number : Nat) (state : TaskState RunResult) :
    { m with submissions := m.submissions.modify number fun task => { task with state } }.heir? =
      m.heir? := by
  funext t
  cases t with
  | submission n =>
      simp only [heir?, Array.getElem?_modify]
      split
      · rw [Option.bind_map]
        rfl
      · rfl
  | _ => rfl

theorem desk_dispatch? {m m' : Machine} (h : m.dispatch? = some m') : m'.desk = m.desk := by
  unfold dispatch? at h
  split at h
  · cases h
    rfl
  · split at h
    · cases h
      rfl
    · exact desk_advanceClock? h

end Machine

namespace System

variable {config : Config} {s s' : System RunResult} {log : List Occurrence} {t u : TaskId}

/-- In its turn a task changes who is told about others only by the effect that it performs. -/
theorem heir?_of_turn {state : TaskState t.Result} (h : s.step? = some s')
    (running : s.machine.running = some t) (hs : s.task? t = some state) :
    s'.machine.heir? = (state.step t s.machine).2.2.heir? := by
  unfold step? at h
  rw [running] at h
  cases t with
  | main =>
      cases hs
      cases h
      exact Machine.heir?_of_desk (Machine.desk_resume _ _ _ _)
  | branch number =>
      obtain ⟨task, htask, rfl⟩ := Option.map_eq_some_iff.mp hs
      cases h
      simp only [Machine.stepBranch, htask]
      exact (Machine.heir?_of_desk (Machine.desk_resume _ _ _ _)).trans
        (Machine.heir?_setBranch _ _ _)
  | submission number =>
      obtain ⟨task, htask, rfl⟩ := Option.map_eq_some_iff.mp hs
      cases h
      simp only [Machine.stepSubmission, htask]
      exact (Machine.heir?_of_desk (Machine.desk_resume _ _ _ _)).trans
        (Machine.heir?_setSubmission _ _ _)

theorem task?_of_ended {r : t.Result} {k : Nat} (h : s.step? = some s')
    (running : s.machine.running = some t) (hs : s.task? t = some (.ended r k)) (u : TaskId) :
    s'.task? u = s.task? u := by
  have hsame := s.outline.setTask_same _ ((task?_outline t).trans hs)
  rw [← task?_outline, step?_outline h running hs rfl, ← task?_outline]
  refine Eq.trans ?_ (congrArg (Outline.task? · u) hsame)
  cases u <;> rfl

theorem ended_of_result? {α : Type} {task : Option (Task α)}
    (h : (task.bind fun task => task.state.result?).isSome) :
    ∃ r k, task.map Task.state = some (.ended r k) := by
  obtain ⟨⟨r, k⟩, hresult⟩ := Option.isSome_iff_exists.mp h
  obtain ⟨task, rfl, hstate⟩ := Option.bind_eq_some_iff.mp hresult
  refine ⟨r, k, congrArg some ?_⟩
  cases hended : task.state with
  | active p w =>
      rw [hended] at hstate
      cases hstate
  | ended r' k' =>
      rw [hended] at hstate
      cases hstate
      rfl

theorem ended_of_over (h : s.machine.Over u) : ∃ r k, s.task? u = some (.ended r k) := by
  cases u with
  | main => exact h.elim
  | branch n => exact ended_of_result? h
  | submission n => exact ended_of_result? h

theorem Polls.ended_iff {e : Effect} {next : e.Answer → Program t.Result} {w : Wait}
    (h : s.Polls t e next w s') {r : u.Result} {k : Nat} :
    s'.task? u = some (.ended r k) ↔ s.task? u = some (.ended r k) := by
  by_cases hut : u = t
  · subst hut
    rw [h.result, h.active]
    cases (s.machine.poll u w e).turn <;> exact ⟨nofun, nofun⟩
  · rcases h.others hut with hsame | ⟨hnone, -, hfresh⟩
    · rw [hsame]
    · refine ⟨fun hr => ?_, fun hr => ?_⟩
      · obtain ⟨p, hp⟩ := hfresh _ hr
        cases hp
      · cases hnone.symm.trans hr

def awaited (s : System RunResult) : TaskId → Option (List TaskId) := s.reading Effect.awaits

/-- A task that is told about the end of another one waits for it until then, and ends later. -/
structure Reporting (s : System RunResult) : Prop where
  numbered {t : TaskId} {r : t.Result} {k : Nat} : t ≠ .main → s.task? t = some (.ended r k) →
    k < s.machine.next
  waits {u t : TaskId} : s.machine.heir? u = some t →
    (∃ r k, s.task? u = some (.ended r k)) ∨ ∃ l, s.awaited t = some l ∧ u ∈ l
  later {u t : TaskId} {r : u.Result} {k : Nat} {r' : t.Result} {k' : Nat} :
    s.machine.heir? u = some t → t ≠ .main → s.task? u = some (.ended r k) →
      s.task? t = some (.ended r' k') → k < k'

theorem ne_main_of_heir? {m : Machine} (h : m.heir? u = some t) : u ≠ .main := by
  rintro rfl
  cases h

namespace Reporting

variable (hs : s.Reporting)
include hs

/-- Nobody ends, and nobody else is told about the end of others. -/
theorem of_same (hheir : ∀ {u t}, s'.machine.heir? u = some t → s.machine.heir? u = some t)
    (hended : ∀ {t r k}, t ≠ .main →
      (s'.task? t = some (.ended r k) ↔ s.task? t = some (.ended r k)))
    (hawaited : s'.awaited = s.awaited) (hnext : s.machine.next ≤ s'.machine.next) :
    s'.Reporting where
  numbered ht hr := Nat.lt_of_lt_of_le (hs.numbered ht ((hended ht).mp hr)) hnext
  waits h := by
    have hu := ne_main_of_heir? h
    rw [hawaited]
    refine (hs.waits (hheir h)).imp_left fun ⟨r, k, hr⟩ => ⟨r, k, (hended hu).mpr hr⟩
  later h ht hr hr' :=
    hs.later (hheir h) ht ((hended (ne_main_of_heir? h)).mp hr) ((hended ht).mp hr')

theorem of_desk (hdesk : s'.machine.desk = s.machine.desk) (hmain : s'.main = s.main)
    (hnext : s.machine.next ≤ s'.machine.next) : s'.Reporting := by
  have htasks (t : TaskId) : s'.task? t = s.task? t := by
    have hbranches : s'.machine.branches = s.machine.branches := congrArg (fun d => d.2.1) hdesk
    have hsubmissions : s'.machine.submissions = s.machine.submissions :=
      congrArg (fun d => d.2.2) hdesk
    cases t <;> simp only [task?, hbranches, hsubmissions, hmain]
  refine hs.of_same (fun hu => ?_) (fun _ => by rw [htasks]) (funext fun t => ?_) hnext
  · rwa [← Machine.heir?_of_desk hdesk]
  · rw [awaited, awaited, reading, reading, htasks]

/-- A task that ends was not waiting for anybody, and who is told about its end waits for it. -/
theorem finish {a : t.Result} {w : Wait} (hactive : s.task? t = some (.active (.pure a) w))
    (hends : s'.task? t = some (.ended a s.machine.next)) (hothers : ∀ u ≠ t, s'.task? u = s.task? u)
    (hheir : s'.machine.heir? = s.machine.heir?) (hnext : s.machine.next < s'.machine.next) :
    s'.Reporting := by
  have hidle : s.awaited t = none := by
    rw [awaited, reading, hactive]
    rfl
  have hstill {u : TaskId} {r : u.Result} {k : Nat} (hu : s.task? u = some (.ended r k)) :
      u ≠ t := by
    rintro rfl
    rw [hactive] at hu
    cases hu
  refine ⟨fun {u r k} hu hr => ?_, fun {u v} h => ?_, fun {u v r k r' k'} h hv hr hr' => ?_⟩
  · by_cases hut : u = t
    · subst hut
      rw [hends] at hr
      cases hr
      exact hnext
    · exact Nat.lt_trans (hs.numbered hu (hothers u hut ▸ hr)) hnext
  · rw [hheir] at h
    rcases hs.waits h with ⟨r, k, hr⟩ | ⟨l, hl, hu⟩
    · exact Or.inl ⟨r, k, (hothers u (hstill hr)).trans hr⟩
    · refine Or.inr ⟨l, ?_, hu⟩
      have hv : v ≠ t := by
        rintro rfl
        rw [hidle] at hl
        cases hl
      rwa [awaited, reading, hothers v hv]
  · rw [hheir] at h
    by_cases hut : u = t
    · subst hut
      rcases hs.waits h with ⟨r'', k'', hr''⟩ | ⟨l, hl, -⟩
      · exact absurd rfl (hstill hr'')
      · have hvu : v ≠ u := by
          rintro rfl
          rw [hidle] at hl
          cases hl
        rw [hothers v hvu] at hr'
        rw [awaited, reading, hr'] at hl
        cases hl
    · rw [hothers u hut] at hr
      by_cases hvt : v = t
      · subst hvt
        rw [hends] at hr'
        cases hr'
        exact hs.numbered (ne_main_of_heir? h) hr
      · rw [hothers v hvt] at hr'
        exact hs.later h hv hr hr'

/-- In a poll only the task that is polled begins to be told about others, which it waits for. -/
theorem poll {e : Effect} {next : e.Answer → Program t.Result} {w : Wait}
    (h : s.Polls t e next w s')
    (hheir : s'.machine.heir? = (s.machine.poll t w e).machine.heir?) : s'.Reporting := by
  have hnext : s.machine.next ≤ s'.machine.next := by
    rw [Machine.next_of_shared h.shared]
    exact s.machine.next_poll t w e
  have hawaited : s'.awaited = Function.update s.awaited t
      (((s.machine.poll t w e).turn.state next).reading Effect.awaits) :=
    h.reading Effect.awaits_of_fresh
  have htells {u v : TaskId} (hu : s'.machine.heir? u = some v) :
      s.machine.Tells t w e (s.machine.poll t w e).turn u v :=
    Machine.tells_poll (hheir ▸ hu)
  refine ⟨fun ht hr => Nat.lt_of_lt_of_le (hs.numbered ht (h.ended_iff.mp hr)) hnext,
    fun {u v} hu => ?_, fun {u v r k r' k'} hu hv hr hr' => ?_⟩
  · cases htells hu with
    | before told ended =>
        rcases hs.waits told with ⟨r, k, hr⟩ | ⟨l, hl, hmem⟩
        · exact Or.inl ⟨r, k, h.ended_iff.mpr hr⟩
        · by_cases hvt : v = t
          · subst hvt
            rw [awaited, reading_of_active h.active] at hl
            obtain ⟨r, k, hr⟩ := ended_of_over (ended rfl l hl hmem)
            exact Or.inl ⟨r, k, h.ended_iff.mpr hr⟩
          · refine Or.inr ⟨l, ?_, hmem⟩
            rwa [hawaited, Function.update_of_ne hvt]
    | begins self waits awaits mem =>
        subst self
        refine Or.inr ⟨_, ?_, mem⟩
        rw [hawaited, Function.update_self, waits]
        exact awaits
  · cases htells hu with
    | before told ended => exact hs.later told hv (h.ended_iff.mp hr) (h.ended_iff.mp hr')
    | begins self waits awaits mem =>
        subst self
        cases h.active.symm.trans (h.ended_iff.mp hr')

theorem step (h : s.step? = some s') : s'.Reporting := by
  cases running : s.machine.running with
  | none =>
      unfold step? at h
      rw [running] at h
      obtain ⟨m, hm, rfl⟩ := Option.map_eq_some_iff.mp h
      exact hs.of_desk (Machine.desk_dispatch? hm) rfl
        (Nat.le_of_eq (s.machine.next_dispatch? hm).symm)
  | some t =>
      cases active : s.task? t with
      | none =>
          rw [step?_of_missing h running active]
          exact hs.of_same id (fun _ => Iff.rfl) rfl (Nat.le_refl _)
      | some state =>
          have hheir := heir?_of_turn h running active
          have hnext : s.machine.next ≤ s'.machine.next := Moves.next_le (.step h : s.Moves {} _ s')
          cases state with
          | ended a k =>
              have htasks := task?_of_ended h running active
              refine hs.of_same (fun hu => ?_) (fun _ => by rw [htasks]) (funext fun u => ?_) hnext
              · rwa [← show s'.machine.heir? = s.machine.heir? from hheir]
              · rw [awaited, awaited, reading, reading, htasks]
          | active p w =>
              cases p with
              | perform e next =>
                  refine hs.poll (polls_of_running h running active) (hheir.trans ?_)
                  rw [Machine.step_machine]
              | pure a =>
                  have houtline := step?_outline h running active rfl
                  have hsome : (s.outline.task? t).isSome :=
                    Option.isSome_of_eq_some ((task?_outline t).trans active)
                  refine hs.finish active ?_ (fun u hu => ?_) hheir ?_
                  · rw [← task?_outline, houtline]
                    exact s.outline.task?_setTask_self _ hsome
                  · rw [← task?_outline, houtline, ← task?_outline]
                    exact s.outline.task?_setTask_of_ne _ hu
                  · obtain ⟨m, waiter, -, hmachine, hshared, -⟩ := step?_resumes h running active
                    rw [hmachine, Machine.next_resume, Machine.next_of_shared hshared]
                    exact Nat.lt_succ_self _

theorem move (h : s.Moves config log s') : s'.Reporting := by
  cases h with
  | step h => exact hs.step h
  | newToken h => exact hs.of_same id (fun _ => Iff.rfl) rfl (Nat.le_succ _)
  | cancel h token =>
      exact hs.of_desk (s.machine.desk_cancel token) rfl
        (Nat.le_of_eq (s.machine.next_cancel token).symm)
  | cancelAfter h span token => exact hs.of_same id (fun _ => Iff.rfl) rfl (Nat.le_succ _)
  | submit h flow inputs token =>
      generalize hp : Execution.submitted config flow inputs token = p
      let added : Machine := { s.machine with
        submissions := s.machine.submissions.push (.new p) }
      have hadded : System.Reporting ⟨added, s.main⟩ := by
        refine hs.of_same (fun {u t} hu => ?_) (fun {t r k} _ => ?_) (funext fun t => ?_)
          (Nat.le_refl _)
        · cases u with
          | submission number =>
              simp only [added, Machine.heir?, Array.getElem?_push] at hu ⊢
              split at hu
              · cases hu
              · exact hu
          | _ => exact hu
        · cases t with
          | submission number =>
              simp only [added, task?, Array.getElem?_push]
              split
              · rename_i hnew
                simp [hnew, Task.new]
              · rfl
          | _ => exact Iff.rfl
        · cases t with
          | submission number =>
              simp only [added, awaited, reading, task?, Array.getElem?_push]
              split
              · rename_i hnew
                simp [hnew, Task.new, TaskState.reading_fresh Effect.awaits_of_fresh p]
              · rfl
          | _ => rfl
      exact hadded.of_desk (Machine.desk_wake _ _) rfl (Nat.le_of_eq (Machine.next_wake _ _).symm)
  | @start h p errand =>
      obtain ⟨⟨result, order, hmain⟩, -⟩ := h
      refine hs.of_same id (fun {t r k} ht => ?_) (funext fun t => ?_) (Nat.le_refl _)
      · cases t with
        | main => exact absurd rfl ht
        | _ => exact Iff.rfl
      · cases t with
        | main =>
            rw [awaited, awaited, reading, reading, task?, task?, hmain]
            exact TaskState.reading_fresh Effect.awaits_of_fresh p
        | _ => rfl

end Reporting

end System

/-- In a session a task that is told about the end of another one waits for it until then. -/
theorem Session.reporting {config : Config} {log : List Occurrence} {s : System RunResult}
    (h : Session config log s) : s.Reporting := by
  obtain ⟨s₀, ⟨world, numbered⟩, hreaches⟩ := h
  induction hreaches with
  | refl =>
      refine ⟨fun {t r k} ht hr => ?_, fun {u t} hu => ?_, fun {u t r k r' k'} hu => ?_⟩
      · cases t with
        | main => exact absurd rfl ht
        | _ => cases hr
      · cases u <;> cases hu
      · cases u <;> cases hu
  | move before move ih => exact ih.move move

end FlowEngine
