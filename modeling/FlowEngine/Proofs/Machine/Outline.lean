import FlowEngine.Proofs.Session.Basic

/-!
# Outlines of systems

The outline of a system is what the theory of runs looks at: the tasks, the tokens
that were cancelled, the store, and what the branches of a run share. Queues,
timers and permits are left out. The operations of the machine that only concern
those leave the outline as it is.
-/
namespace FlowEngine

structure RunOutline where
  slot : TransactionSlot
  stragglers : List Nat
  journal : Journal

def ActiveRun.outline (r : ActiveRun) : RunOutline := ⟨r.slot, r.stragglers, r.journal⟩

structure Outline where
  main : TaskState RunResult
  branches : List (TaskState (Except Failure Json))
  submissions : List (TaskState RunResult)
  running : Option TaskId
  cancelled : List Token
  store : ScriptedStore
  calls : Route → List Call
  runs : List RunOutline

def Machine.outline (m : Machine) (main : TaskState RunResult) : Outline where
  main
  branches := m.branches.toList.map Task.state
  submissions := m.submissions.toList.map Task.state
  running := m.running
  cancelled := m.cancelled
  store := m.world.store
  calls := fun route => (Machine.collaborator m.world route).calls
  runs := m.runs.toList.map ActiveRun.outline

def System.outline (s : System RunResult) : Outline := s.machine.outline s.main

namespace Outline

/-! ## Reading an outline -/

def task? (o : Outline) : (t : TaskId) → Option (TaskState t.Result)
  | .main => some o.main
  | .branch number => o.branches[number]?
  | .submission number => o.submissions[number]?

def isCancelled (o : Outline) (t : Token) : Bool := t.isCancelled o.cancelled

def interrupts (o : Outline) (t : Option Token) : Bool := t.any o.isCancelled

def branchResult? (o : Outline) (number : Nat) : Option (Except Failure Json × Nat) :=
  o.branches[number]?.bind TaskState.result?

/-- The slot of a run; a run that was never opened has an empty one. -/
def slot (o : Outline) (run : Nat) : TransactionSlot := o.runs[run]?.elim .empty RunOutline.slot

def stragglers (o : Outline) (run : Nat) : List Nat := o.runs[run]?.elim [] RunOutline.stragglers

/-! ## Changing an outline -/

def setTask (o : Outline) : (t : TaskId) → TaskState t.Result → Outline
  | .main, state => { o with main := state }
  | .branch number, state => { o with branches := o.branches.modify number fun _ => state }
  | .submission number, state => { o with submissions := o.submissions.modify number fun _ => state }

def modifyRun (o : Outline) (run : Nat) (f : RunOutline → RunOutline) : Outline :=
  { o with runs := o.runs.modify run f }

theorem modifyRun_modifyRun (o : Outline) (run : Nat) (f g : RunOutline → RunOutline) :
    (o.modifyRun run f).modifyRun run g = o.modifyRun run (g ∘ f) := by
  simp only [modifyRun, List.modify_modify_eq]

@[simp] theorem modifyRun_length (o : Outline) (run : Nat) (f : RunOutline → RunOutline) :
    (o.modifyRun run f).runs.length = o.runs.length := by
  simp [modifyRun]

theorem stragglers_modifyRun_of_eq (o : Outline) (run other : Nat) {f : RunOutline → RunOutline}
    (h : ∀ r, (f r).stragglers = r.stragglers) :
    (o.modifyRun run f).stragglers other = o.stragglers other := by
  simp only [stragglers, modifyRun, List.getElem?_modify]
  cases o.runs[other]? with
  | none => rfl
  | some r =>
      by_cases hr : run = other
      · simp [hr, h]
      · simp [hr]

theorem stragglers_modifyRun_self (o : Outline) {run : Nat} {f : RunOutline → RunOutline}
    {g : List Nat → List Nat} (h : ∀ r, (f r).stragglers = g r.stragglers)
    (hrun : run < o.runs.length) : (o.modifyRun run f).stragglers run = g (o.stragglers run) := by
  have hget : o.runs[run]? = some o.runs[run] := List.getElem?_eq_getElem hrun
  simp only [stragglers, modifyRun, List.getElem?_modify_eq, hget]
  exact h _

theorem stragglers_modifyRun_of_ne (o : Outline) {run other : Nat} (f : RunOutline → RunOutline)
    (h : other ≠ run) : (o.modifyRun run f).stragglers other = o.stragglers other := by
  simp only [stragglers, modifyRun, List.getElem?_modify_ne _ _ (Ne.symm h)]

theorem slot_modifyRun_of_eq (o : Outline) (run other : Nat) {f : RunOutline → RunOutline}
    (h : ∀ r, (f r).slot = r.slot) : (o.modifyRun run f).slot other = o.slot other := by
  simp only [slot, modifyRun, List.getElem?_modify]
  cases o.runs[other]? with
  | none => rfl
  | some r =>
      by_cases hr : run = other
      · simp [hr, h]
      · simp [hr]

theorem slot_modifyRun_self (o : Outline) {run : Nat} {f : RunOutline → RunOutline}
    {slot : TransactionSlot} (h : ∀ r, (f r).slot = slot) (hrun : run < o.runs.length) :
    (o.modifyRun run f).slot run = slot := by
  have hget : o.runs[run]? = some o.runs[run] := List.getElem?_eq_getElem hrun
  simp only [Outline.slot, modifyRun, List.getElem?_modify_eq, hget]
  exact h _

theorem slot_modifyRun_of_ne (o : Outline) {run other : Nat} (f : RunOutline → RunOutline)
    (h : other ≠ run) : (o.modifyRun run f).slot other = o.slot other := by
  simp only [slot, modifyRun, List.getElem?_modify_ne _ _ (Ne.symm h)]

/-- When a run is opened, the others stay as they are. -/
theorem run_open (o : Outline) (opened : RunOutline) (run : Nat) :
    (o.runs ++ [opened])[run]? = o.runs[run]? ∨
      o.runs[run]? = none ∧ (o.runs ++ [opened])[run]? = some opened := by
  rcases Nat.lt_trichotomy run o.runs.length with hlt | rfl | hgt
  · exact Or.inl (List.getElem?_append_left hlt)
  · exact Or.inr ⟨List.getElem?_eq_none (Nat.le_refl _), List.getElem?_concat_length⟩
  · have hlength : (o.runs ++ [opened]).length ≤ run := by
      rw [List.length_append, List.length_singleton]
      omega
    rw [List.getElem?_eq_none hlength, List.getElem?_eq_none (Nat.le_of_lt hgt)]
    exact Or.inl rfl

theorem slot_open (o : Outline) (flow : String) (run : Nat) :
    ({ o with runs := o.runs ++ [⟨.empty, [], .start flow⟩] } : Outline).slot run = o.slot run := by
  unfold slot
  rcases o.run_open ⟨.empty, [], .start flow⟩ run with h | ⟨hnone, h⟩
  · rw [h]
  · rw [h, hnone]
    rfl

theorem stragglers_open (o : Outline) (flow : String) (run : Nat) :
    ({ o with runs := o.runs ++ [⟨.empty, [], .start flow⟩] } : Outline).stragglers run =
      o.stragglers run := by
  unfold stragglers
  rcases o.run_open ⟨.empty, [], .start flow⟩ run with h | ⟨hnone, h⟩
  · rw [h]
  · rw [h, hnone]
    rfl

theorem slot_modifyRun_empty (o : Outline) (run : Nat) :
    (o.modifyRun run fun r => { r with slot := .empty }).slot run = .empty := by
  by_cases hrun : run < o.runs.length
  · exact o.slot_modifyRun_self (fun _ => rfl) hrun
  · have hnone : o.runs[run]? = none := List.getElem?_eq_none (Nat.le_of_not_lt hrun)
    simp [slot, modifyRun, hnone]

def spawn (o : Outline) (programs : List (Program (Except Failure Json))) : Outline :=
  { o with branches := o.branches ++ programs.map fun p => .active p .fresh }

end Outline

theorem map_modify {α β : Type} {f : α → α} {g : β → β} {h : α → β} (hfg : ∀ a, h (f a) = g (h a))
    (l : List α) (i : Nat) : (l.modify i f).map h = (l.map h).modify i g := by
  induction l generalizing i with
  | nil => simp
  | cons a rest ih =>
      cases i with
      | zero => simp [hfg]
      | succ i => simp [ih]

namespace Machine

variable (m : Machine) (main : TaskState RunResult)

theorem outline_modifyRun (run : Nat) (f : ActiveRun → ActiveRun) (g : RunOutline → RunOutline)
    (h : ∀ r, (f r).outline = g r.outline) :
    (m.modifyRun run f).outline main = (m.outline main).modifyRun run g := by
  simp only [outline, modifyRun, Array.toList_modify, map_modify h, Outline.modifyRun]

theorem outline_modifyRun_of_eq (run : Nat) (f : ActiveRun → ActiveRun)
    (h : ∀ r, (f r).outline = r.outline) :
    (m.modifyRun run f).outline main = m.outline main := by
  rw [m.outline_modifyRun main run f id h]
  simp [Outline.modifyRun]

/-! ## What leaves the outline as it is -/

@[simp] theorem outline_wake (t : TaskId) : (m.wake t).outline main = m.outline main := by
  unfold wake
  split
  · rfl
  · split <;> rfl

@[simp] theorem outline_wakeIfSome (t : Option TaskId) :
    (m.wakeIfSome t).outline main = m.outline main := by
  cases t with
  | none => rfl
  | some t => exact m.outline_wake main t

@[simp] theorem outline_setWaiter (waiter : Option TaskId) (number : Nat) :
    (m.setWaiter waiter number).outline main = m.outline main := by
  have hm := map_modify (h := Task.state) (g := id) (f := fun task => { task with waiter })
    (fun _ => rfl) m.branches.toList number
  simp only [outline, setWaiter, Array.toList_modify, hm, List.modify_id]

@[simp] theorem outline_setWaiters (waiter : Option TaskId) (numbers : List Nat) :
    (m.setWaiters waiter numbers).outline main = m.outline main := by
  induction numbers generalizing m with
  | nil => rfl
  | cons number rest ih => exact (ih _).trans (m.outline_setWaiter main waiter number)

@[simp] theorem outline_observe (token : Token) (t : TaskId) :
    (m.observe token t).outline main = m.outline main := by
  unfold observe
  split <;> rfl

@[simp] theorem outline_forget (t : TaskId) : (m.forget t).outline main = m.outline main := rfl

@[simp] theorem outline_schedule (span : Nat) (alarm : Alarm) :
    (m.schedule span alarm).2.outline main = m.outline main := rfl

@[simp] theorem outline_stopTimer (number : Nat) :
    (m.stopTimer number).outline main = m.outline main := rfl

@[simp] theorem outline_childToken (t : Token) :
    (m.childToken t).2.outline main = m.outline main := rfl

@[simp] theorem outline_newToken : m.newToken.2.outline main = m.outline main := rfl

@[simp] theorem outline_setGate (run : Nat) (gate : Gate TaskId) :
    (m.setGate run gate).outline main = m.outline main :=
  m.outline_modifyRun_of_eq main run _ fun _ => rfl

@[simp] theorem outline_releasePermit (run : Nat) :
    (m.releasePermit run).outline main = m.outline main := by
  unfold releasePermit
  split
  · rfl
  · rw [outline_wakeIfSome]
    exact m.outline_modifyRun_of_eq main run _ fun _ => rfl

@[simp] theorem outline_withdraw (run : Nat) (t : TaskId) :
    (m.withdraw run t).outline main = m.outline main := by
  unfold withdraw
  split
  · rfl
  · rw [outline_wakeIfSome]
    exact m.outline_modifyRun_of_eq main run _ fun _ => rfl

@[simp] theorem outline_mark (run : Nat) (step : String) (status : Option StepStatus) :
    (m.mark run step status).2.outline main = m.outline main := by
  unfold mark
  split
  · exact m.outline_modifyRun_of_eq main run _ fun _ => rfl
  · rfl
  · rfl

theorem calls_finish (w : World) (route other : Route) :
    (collaborator (setCollaborator w route (collaborator w route).finish) other).calls =
      (collaborator w other).calls := by
  cases route <;> cases other <;> cases ha : w.agents <;>
    simp [collaborator, setCollaborator, Collaborator.finish, ha]

@[simp] theorem outline_hangUp (request : Request) :
    (m.hangUp request).outline main = m.outline main := by
  cases request with
  | record _ => rfl
  | call route target inputs =>
      have hs : (setCollaborator m.world route (collaborator m.world route).finish).store =
          m.world.store := by
        unfold setCollaborator
        split
        · rfl
        · rfl
        · split <;> rfl
      simp only [outline, hangUp, modifyWorld, hs, calls_finish]

/-! ## What changes the outline -/

@[simp] theorem outline_cancel (token : Token) : (m.cancel token).outline main =
    { m.outline main with cancelled := token :: m.cancelled } := by
  have hf (released : List (Token × TaskId)) (m' : Machine) :
      (released.foldl (fun m p => m.wake p.2) m').outline main = m'.outline main := by
    induction released generalizing m' with
    | nil => rfl
    | cons p rest ih => exact (ih _).trans (m'.outline_wake main p.2)
  exact hf _ _

theorem outline_ring (alarm : Alarm) : ∃ tokens, (m.ring alarm).outline main =
    { m.outline main with cancelled := tokens ++ m.cancelled } := by
  cases alarm with
  | wake t => exact ⟨[], m.outline_wake main t⟩
  | cancel token => exact ⟨[token], m.outline_cancel main token⟩

theorem outline_setStore (store : ScriptedStore) :
    (m.setStore store).outline main = { m.outline main with store } := by
  have hc (route : Route) : collaborator { m.world with store } route =
      collaborator m.world route := by
    cases route <;> rfl
  simp only [outline, setStore, modifyWorld, hc]

theorem spawn_eq (programs : List (Program (Except Failure Json))) :
    (m.spawn programs).1 = List.range' m.branches.size programs.length ∧
      (m.spawn programs).2.outline main = (m.outline main).spawn programs := by
  induction programs generalizing m with
  | nil => simp [spawn, Outline.spawn]
  | cons p rest ih =>
      obtain ⟨hn, ho⟩ := ih ({ m with branches := m.branches.push (.new p) }.wake
        (.branch m.branches.size))
      have hsize : ({ m with branches := m.branches.push (.new p) }.wake
          (.branch m.branches.size)).branches.size = m.branches.size + 1 := by
        unfold wake
        split
        · simp
        · split <;> simp
      constructor
      · simp only [spawn, List.length_cons, List.range'_succ, hn, hsize]
      · simp only [spawn, ho, outline_wake]
        simp [outline, Outline.spawn, Task.new]

end Machine
end FlowEngine
