import FlowEngine.Machine.Poll

/-!
# Running programs

A system is a machine with the program it was started for. One step polls one
effect of the running task, picks the next task that can go on, or moves the clock
when no task can. The main task goes on when no other task can.
-/
namespace FlowEngine

structure System (α : Type) where
  machine : Machine
  main : TaskState α

/-- Lets a task perform one effect. Also tells whether it goes on at once. -/
def TaskState.step {α : Type} (me : TaskId) (m : Machine) :
    TaskState α → TaskState α × Bool × Machine
  | ended result order => (ended result order, false, m)
  | active (.pure a) _ => (ended a m.next, false, { m with next := m.next + 1 })
  | active (.perform e next) wait =>
    match m.poll me wait e with
    | .answered answer m => (active (next answer) .fresh, true, m)
    | .waiting wait m => (active (.perform e next) wait, false, m)

namespace Machine

/-- Notes the progress of the running task; when it ended, its waiter goes on. -/
def resume {α : Type} (m : Machine) (progress : TaskState α) (goesOn : Bool)
    (waiter : Option TaskId) : Machine :=
  if goesOn then m
  else
    let m := { m with running := none }
    match progress with
    | .ended _ _ => m.wakeIfSome waiter
    | .active _ _ => m

def stepBranch (m : Machine) (number : Nat) : Machine :=
  match m.branches[number]? with
  | none => { m with running := none }
  | some task =>
    let (state, goesOn, m) := task.state.step (.branch number) m
    let waiter := m.branches[number]?.bind Task.waiter
    let branches := m.branches.modify number fun task => { task with state }
    { m with branches }.resume state goesOn waiter

def stepSubmission (m : Machine) (number : Nat) : Machine :=
  match m.submissions[number]? with
  | none => { m with running := none }
  | some task =>
    let (state, goesOn, m) := task.state.step (.submission number) m
    let waiter := m.submissions[number]?.bind Task.waiter
    let submissions := m.submissions.modify number fun task => { task with state }
    { m with submissions }.resume state goesOn waiter

/-- Picks the task that goes on next, or moves the clock when there is none. -/
def dispatch? (m : Machine) : Option Machine :=
  match m.ready with
  | task :: ready => some { m with ready, running := some task }
  | [] =>
    if m.mainReady then some { m with mainReady := false, running := some .main }
    else m.advanceClock?

end Machine

namespace System

variable {α : Type}

def start (m : Machine) (p : Program α) : System α :=
  ⟨{ m with mainReady := true, running := none }, .active p .fresh⟩

/-- One step; none is possible when every task waits and no timer is left. -/
def step? (s : System α) : Option (System α) :=
  match s.machine.running with
  | some .main =>
    let (main, goesOn, m) := s.main.step .main s.machine
    some ⟨m.resume main goesOn none, main⟩
  | some (.branch number) => some { s with machine := s.machine.stepBranch number }
  | some (.submission number) => some { s with machine := s.machine.stepSubmission number }
  | none => s.machine.dispatch?.map fun machine => { s with machine }

/-- The result of the main task within a number of steps, with the machine as the
main task leaves it. -/
def run (fuel : Nat) (s : System α) : Option (α × Machine) :=
  match s.main with
  | .ended result _ => some (result, s.machine)
  | .active _ _ =>
    match fuel with
    | 0 => none
    | fuel + 1 => s.step?.bind (run fuel)

def execute (fuel : Nat) (m : Machine) (p : Program α) : Option (α × Machine) :=
  (start m p).run fuel

end System
end FlowEngine
