import FlowEngine.Failure

/-!
# The life of a run

A run is started once and ends once, in one of four final statuses. It keeps the
events of its steps, transactions and boundaries in the order they happened.
-/
namespace FlowEngine

inductive RunStatus where
  | pending
  | running
  | completed
  | erroredHandled
  | failed
  | cancelled
deriving DecidableEq, Repr

namespace RunStatus

def all : List RunStatus := [pending, running, completed, erroredHandled, failed, cancelled]

def name : RunStatus → String
  | pending => "pending"
  | running => "running"
  | completed => "completed"
  | erroredHandled => "errored_handled"
  | failed => "failed"
  | cancelled => "cancelled"

def label : RunStatus → String
  | pending => "Pending"
  | running => "Running"
  | completed => "Completed"
  | erroredHandled => "ErroredHandled"
  | failed => "Failed"
  | cancelled => "Cancelled"

def ofName? (text : String) : Option RunStatus := all.find? fun s => s.name = text

def isTerminal : RunStatus → Bool
  | pending | running => false
  | _ => true

def isSuccess : RunStatus → Bool
  | completed | erroredHandled => true
  | _ => false

end RunStatus

inductive StepStatus where
  | completed
  | failed
  | skipped
  | cancelled
deriving DecidableEq, Repr

namespace StepStatus

def all : List StepStatus := [completed, failed, skipped, cancelled]

def name : StepStatus → String
  | completed => "completed"
  | failed => "failed"
  | skipped => "skipped"
  | cancelled => "cancelled"

def label : StepStatus → String
  | completed => "Completed"
  | failed => "Failed"
  | skipped => "Skipped"
  | cancelled => "Cancelled"

def ofName? (text : String) : Option StepStatus := all.find? fun s => s.name = text

end StepStatus

structure StepRecord where
  stepId : String
  kind : String
  status : StepStatus
  attempts : Nat
  error : Option Failure

namespace StepRecord

def toJson (r : StepRecord) : Json :=
  Json.record [("step_id", some (.str r.stepId)), ("kind", some (.str r.kind)),
    ("status", some (.str r.status.name)), ("attempts", some (.ofNat r.attempts)),
    ("error", r.error.map Failure.toJson)]

end StepRecord

inductive Event where
  | runStarted
  | stepCompleted (id : String)
  | stepFailed (id message : String)
  | rolledBack (id : String)
  | boundaryInvoked (name : String) (error : Failure)
  | runFinished (status : RunStatus)

def Event.name : Event → String
  | runStarted => "run.started"
  | stepCompleted _ => "step.completed"
  | stepFailed _ _ => "step.failed"
  | rolledBack _ => "transaction.rolled_back"
  | boundaryInvoked _ _ => "error_boundary.invoked"
  | runFinished _ => "run.finished"

def StepRecord.event (r : StepRecord) : Event :=
  match r.error with
  | none => .stepCompleted r.stepId
  | some f => .stepFailed r.stepId f.message

structure Run where
  flow : String
  status : RunStatus
  error : Option Failure
  events : List Event

namespace Run

inductive Fault where
  | started (status : RunStatus)
  | notRunning (status target : RunStatus)
deriving DecidableEq

def Fault.toError : Fault → EngineError
  | started status => .invalidTransition s!"Cannot start run in state: {status.label}"
  | notRunning status target =>
    .invalidTransition s!"Cannot move run from {status.label} to {target.label}"

def new (flow : String) : Run := ⟨flow, .pending, none, []⟩

def addEvent (r : Run) (e : Event) : Run := { r with events := r.events ++ [e] }

def start (r : Run) : Except Fault Run :=
  if r.status = .pending then .ok ({ r with status := .running }.addEvent .runStarted)
  else .error (.started r.status)

def finish (r : Run) (status : RunStatus) (error : Option Failure) : Except Fault Run :=
  if r.status = .running then .ok ({ r with status, error }.addEvent (.runFinished status))
  else .error (.notRunning r.status status)

/-- The events so far, and the run without them. -/
def drainEvents (r : Run) : List Event × Run := (r.events, { r with events := [] })

end Run
end FlowEngine
