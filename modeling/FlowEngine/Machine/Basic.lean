import FlowEngine.Collaborator
import FlowEngine.Config
import FlowEngine.Gate
import FlowEngine.Program.Basic
import FlowEngine.Transaction

/-!
# The state of the machine

A machine runs tasks one at a time on a virtual clock. It holds the collaborators
and the record store, the runs that were started, the tasks of their branches, and
what each of them waits for.
-/
namespace FlowEngine

inductive TaskId where
  | main
  | branch (number : Nat)
  | submission (number : Nat)
deriving DecidableEq, Repr

/-- How far a task has got with the effect that it performs. -/
inductive Wait where
  | fresh
  | permit
  | call (timer : Nat) (outcome : Outcome)
  | operation (timer : Nat)
  | timer (timer : Nat)
  | branches (tasks : List Nat)
  /-- A settle waits for the first of some branches, after a number of others. -/
  | stragglers (tasks : List Nat) (settled : Nat)
  | slot
  | submission

inductive TaskState (α : Type) where
  | active (program : Program α) (wait : Wait)
  | ended (result : α) (order : Nat)

namespace TaskState

def result? {α : Type} : TaskState α → Option (α × Nat)
  | active _ _ => none
  | ended result order => some (result, order)

end TaskState

structure Task (α : Type) where
  state : TaskState α
  waiter : Option TaskId

def Task.new {α : Type} (program : Program α) : Task α := ⟨.active program .fresh, none⟩

inductive Alarm where
  | wake (task : TaskId)
  | cancel (token : Token)
deriving DecidableEq

structure Timer where
  number : Nat
  due : Nat
  alarm : Alarm
deriving DecidableEq

inductive SpanSink where
  | recording
  | failing
  | silent
deriving DecidableEq

structure SpanMark where
  time : Nat
  status : Option StepStatus
  step : String
deriving DecidableEq

structure ActiveRun where
  gate : Gate TaskId
  slot : TransactionSlot
  stragglers : List Nat
  journal : Journal
  spans : List SpanMark

/-- What the steps of runs work on. -/
structure World where
  models : Collaborator
  agents : Option Collaborator
  tools : Collaborator
  store : ScriptedStore
  sink : SpanSink

structure Machine where
  world : World
  maxConcurrency : Nat
  slots : Gate TaskId
  now : Nat
  next : Nat
  cancelled : List Token
  /-- The tasks that wait under a token, in the order in which they began to. -/
  observers : List (Token × TaskId)
  timers : List Timer
  /-- The tasks that can go on, in the order in which they do. -/
  ready : List TaskId
  /-- Whether the main task can go on, which it does when no other task can. -/
  mainReady : Bool
  running : Option TaskId
  branches : Array (Task (Except Failure Json))
  submissions : Array (Task RunResult)
  runs : Array ActiveRun

namespace Machine

def new (config : Config) (world : World) : Machine where
  world
  maxConcurrency := config.maxConcurrency.toNat
  slots := .new config.maxConcurrentRuns.toNat
  now := 0
  next := 0
  cancelled := []
  observers := []
  timers := []
  ready := []
  mainReady := true
  running := none
  branches := #[]
  submissions := #[]
  runs := #[]

/-! ## Tasks -/

def wake (m : Machine) (task : TaskId) : Machine :=
  match task with
  | .main => { m with mainReady := true }
  | task => if task ∈ m.ready then m else { m with ready := m.ready ++ [task] }

def wakeIfSome (m : Machine) : Option TaskId → Machine
  | none => m
  | some task => m.wake task

def spawn (m : Machine) (programs : List (Program (Except Failure Json))) : List Nat × Machine :=
  match programs with
  | [] => ([], m)
  | p :: rest =>
    let number := m.branches.size
    let m := { m with branches := m.branches.push (.new p) }.wake (.branch number)
    let (numbers, m) := m.spawn rest
    (number :: numbers, m)

def submit (m : Machine) (program : Program RunResult) : Nat × Machine :=
  let number := m.submissions.size
  (number, { m with submissions := m.submissions.push (.new program) }.wake (.submission number))

def branchResult? (m : Machine) (number : Nat) : Option (Except Failure Json × Nat) :=
  m.branches[number]?.bind fun task => task.state.result?

def setWaiter (m : Machine) (waiter : Option TaskId) (number : Nat) : Machine :=
  { m with branches := m.branches.modify number fun task => { task with waiter } }

def setWaiters (m : Machine) (waiter : Option TaskId) (numbers : List Nat) : Machine :=
  numbers.foldl (fun m number => m.setWaiter waiter number) m

/-! ## Tokens -/

def newToken (m : Machine) : Token × Machine :=
  (.root m.next, { m with next := m.next + 1 })

def childToken (m : Machine) (t : Token) : Token × Machine :=
  (t.child m.next, { m with next := m.next + 1 })

def isCancelled (m : Machine) (t : Token) : Bool := t.isCancelled m.cancelled

/-- Notes that a task waits under a token. A task that waits already keeps its place. -/
def observe (m : Machine) (token : Token) (task : TaskId) : Machine :=
  if m.observers.any fun (_, other) => other = task then m
  else { m with observers := m.observers ++ [(token, task)] }

def forget (m : Machine) (task : TaskId) : Machine :=
  { m with observers := m.observers.filter fun (_, other) => other ≠ task }

def cancel (m : Machine) (token : Token) : Machine :=
  let (released, observers) := m.observers.partition fun (t, _) => token.covers t
  let m := { m with cancelled := token :: m.cancelled, observers }
  released.foldl (fun m (_, task) => m.wake task) m

/-! ## Timers -/

def schedule (m : Machine) (span : Nat) (alarm : Alarm) : Nat × Machine :=
  let timer : Timer := ⟨m.next, m.now + span, alarm⟩
  (timer.number, { m with next := m.next + 1, timers := m.timers ++ [timer] })

/-- Whether a timer has neither fired nor been stopped. -/
def isPending (m : Machine) (number : Nat) : Bool := m.timers.any fun t => t.number = number

def stopTimer (m : Machine) (number : Nat) : Machine :=
  { m with timers := m.timers.filter fun t => t.number ≠ number }

def ring (m : Machine) : Alarm → Machine
  | .wake task => m.wake task
  | .cancel token => m.cancel token

def nextDue? (m : Machine) : Option Nat := (m.timers.map Timer.due).min?

/-- Moves the clock to the next timer and fires every timer of that time in the
order in which they were started. -/
def advanceClock? (m : Machine) : Option Machine := do
  let due ← m.nextDue?
  let (fired, timers) := m.timers.partition fun t => t.due = due
  return fired.foldl (fun m t => m.ring t.alarm) { m with now := due, timers }

/-! ## Runs -/

def openRun (m : Machine) (flow : String) (parent : Token) : (Nat × Token) × Machine :=
  let (token, m) := m.childToken parent
  let run : ActiveRun := ⟨.new m.maxConcurrency, .empty, [], .start flow, []⟩
  ((m.runs.size, token), { m with runs := m.runs.push run })

def modifyRun (m : Machine) (run : Nat) (f : ActiveRun → ActiveRun) : Machine :=
  { m with runs := m.runs.modify run f }

def note (m : Machine) (run : Nat) (entry : Entry) : Machine :=
  m.modifyRun run fun r => { r with journal := r.journal.add entry }

def mark (m : Machine) (run : Nat) (step : String) (status : Option StepStatus) :
    Except EngineError Unit × Machine :=
  match m.world.sink with
  | .recording =>
    (.ok (), m.modifyRun run fun r => { r with spans := r.spans ++ [⟨m.now, status, step⟩] })
  | .failing => (.error (.store "span exporter unavailable"), m)
  | .silent => (.ok (), m)

/-- The branches that were left to a run, and the run without them. -/
def takeStragglers (m : Machine) (run : Nat) : List Nat × Machine :=
  (m.runs[run]?.elim [] ActiveRun.stragglers, m.modifyRun run fun r => { r with stragglers := [] })

def adopt (m : Machine) (run : Nat) (tasks : List Nat) : Machine :=
  m.modifyRun run fun r => { r with stragglers := r.stragglers ++ tasks }

/-! ## Collaborators and the store -/

def modifyWorld (m : Machine) (f : World → World) : Machine := { m with world := f m.world }

def setCollaborator (w : World) (route : Route) (c : Collaborator) : World :=
  match route with
  | .tool => { w with tools := c }
  | .model => { w with models := c }
  | .agent => if w.agents.isSome then { w with agents := some c } else { w with models := c }

def collaborator (w : World) : Route → Collaborator
  | .tool => w.tools
  | .model => w.models
  | .agent => w.agents.getD w.models

def setStore (m : Machine) (store : ScriptedStore) : Machine :=
  m.modifyWorld fun w => { w with store }

end Machine
end FlowEngine
