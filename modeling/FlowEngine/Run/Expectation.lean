import FlowEngine.Run.Result
import FlowEngine.Json.Printer

/-!
# Expectations on results

Claims about the result of a run, and the text that tells how a result differs
from one.
-/
namespace FlowEngine

inductive Expectation where
  | status (expected : RunStatus)
  | binding (name : String) (expected : Json)
  | errorKind (expected : ErrorKind)
  | stepStatus (id : String) (expected : StepStatus)

namespace Expectation

inductive Mismatch where
  | status (expected actual : RunStatus) (error : Option Failure)
  | missing (name : String)
  | value (name : String) (expected actual : Json)
  | errorKind (expected : ErrorKind) (actual : Option ErrorKind)
  | stepStatus (id : String) (expected : StepStatus) (seen : List StepStatus)

def Mismatch.message : Mismatch → String
  | status expected actual error =>
    let error := (error.map Failure.display).getD "none"
    s!"Invalid run status: expected {expected.label}, got {actual.label} (error: {error})"
  | missing name => s!"Missing binding: {name}"
  | value name expected actual =>
    s!"Invalid value for {name}: expected {expected.render}, got {actual.render}"
  | errorKind expected actual =>
    let actual := (actual.map ErrorKind.name).getD "none"
    s!"Invalid error kind: expected {expected.name}, got {actual}"
  | stepStatus id expected seen =>
    let seen := ", ".intercalate (seen.map StepStatus.label)
    s!"Step {id} never ended {expected.label}; statuses seen: [{seen}]"

def valueOf? (r : RunResult) : Target → Option Json
  | .field name => r.stateField? name
  | .binding name => r.binding? name

def check (r : RunResult) : Expectation → Except Mismatch Unit
  | status expected =>
    if r.status = expected then .ok () else .error (.status expected r.status r.error)
  | binding name expected =>
    match valueOf? r (.ofText name) with
    | none => .error (.missing name)
    | some actual => if actual.same expected then .ok () else .error (.value name expected actual)
  | errorKind expected =>
    if r.error.map Failure.kind = some expected then .ok ()
    else .error (.errorKind expected (r.error.map Failure.kind))
  | stepStatus id expected =>
    let seen := (r.recordsOf id).map StepRecord.status
    if expected ∈ seen then .ok () else .error (.stepStatus id expected seen)

end Expectation
end FlowEngine
