import FlowEngine.Run.Lifecycle
import FlowEngine.Scope

/-!
# Journals and results of runs

Every branch of a run writes into one journal. The result of a run is read off
its journal when it ends.
-/
namespace FlowEngine

structure RunResult where
  number : Nat
  flow : String
  status : RunStatus
  /-- The bindings of the flow scope, `state` and `step` included. -/
  outputs : List (String × Json)
  records : List StepRecord
  error : Option Failure
  handledErrors : List Failure
  events : List Event

instance : Inhabited RunResult := ⟨⟨0, "", .pending, [], [], none, [], []⟩⟩

namespace RunResult

def binding? (r : RunResult) (name : String) : Option Json := Fields.get? name r.outputs

def output? (r : RunResult) (id : String) : Option Json := do
  (← (← r.binding? Scope.stepName).field? id).field? "output"

def stateField? (r : RunResult) (field : String) : Option Json := do
  (← r.binding? Target.stateName).field? field

def recordsOf (r : RunResult) (id : String) : List StepRecord :=
  r.records.filter fun record => record.stepId = id

def isSuccess (r : RunResult) : Bool := r.status.isSuccess

/-- The JSON form of a result; a missing error is left out. -/
def toJson (r : RunResult) : Json :=
  Json.record [("flow", some (.str r.flow)), ("status", some (.str r.status.name)),
    ("outputs", some (.obj r.outputs)), ("records", some (.arr (r.records.map StepRecord.toJson))),
    ("error", r.error.map Failure.toJson),
    ("handled_errors", some (.arr (r.handledErrors.map Failure.toJson)))]

end RunResult

inductive Ending where
  | completed
  | failed (error : Failure)
  | cancelled (error : Failure)

inductive Entry where
  | record (r : StepRecord)
  | rolledBack (id : String)
  | boundary (name : String) (error : Failure)
  | handled (error : Failure)

structure Journal where
  run : Run
  records : List StepRecord
  handled : List Failure

namespace Journal

def start (flow : String) : Journal :=
  ⟨⟨flow, .running, none, [.runStarted]⟩, [], []⟩

theorem start_run (flow : String) : (Run.new flow).start = .ok (start flow).run := rfl

def add (j : Journal) : Entry → Journal
  | .record r => { j with run := j.run.addEvent r.event, records := j.records ++ [r] }
  | .rolledBack id => { j with run := j.run.addEvent (.rolledBack id) }
  | .boundary name error => { j with run := j.run.addEvent (.boundaryInvoked name error) }
  | .handled error => { j with handled := j.handled ++ [error] }

def finalStatus (j : Journal) : Ending → RunStatus
  | .completed => if j.handled.isEmpty then .completed else .erroredHandled
  | .failed _ => .failed
  | .cancelled _ => .cancelled

def finalError (j : Journal) : Ending → Option Failure
  | .completed => j.handled.getLast?
  | .failed error | .cancelled error => some error

/-- Ends the run. A run that has ended already stays as it is. -/
def finish (j : Journal) (ending : Ending) : Journal :=
  match j.run.finish (j.finalStatus ending) (j.finalError ending) with
  | .ok run => { j with run }
  | .error _ => j

/-- The result that the journal of the run with a number holds after the run ended. -/
def result (j : Journal) (number : Nat) (ending : Ending)
    (outputs : List (String × Json)) : RunResult where
  number
  flow := j.run.flow
  status := j.run.status
  outputs
  records := j.records
  error := match ending with
    | .completed => none
    | .failed error | .cancelled error => some error
  handledErrors := j.handled
  events := j.run.events

end Journal
end FlowEngine
