import FlowEngine.Failure

/-!
# Outcomes of collaborator calls

A call ends with a value or with a kind of error and a text. Both have a JSON
envelope, which a match recognises again.
-/
namespace FlowEngine

/-- How a call to a collaborator or a record operation ended. -/
inductive Outcome where
  | ok (value : Json)
  | failed (kind : ErrorKind) (message : String)

namespace Outcome

def isOk : Outcome → Bool
  | ok _ => true
  | failed _ _ => false

def envelope : Outcome → Json
  | ok value => .obj [("ok", .bool true), ("value", value)]
  | failed kind message =>
    .obj [("error", .obj [("kind", kind.toJson), ("message", .str message)]), ("ok", .bool false)]

def toExcept : Outcome → Except Failure Json
  | ok value => .ok value
  | failed kind message => .error (.new kind message)

def ofExcept : Except Failure Json → Outcome
  | .ok value => ok value
  | .error f => failed f.kind f.message

def failure (message : String) : Outcome := failed .stepExecution message

end Outcome

inductive Unwrapped where
  | value (v : Json)
  | error (e : Json)

/-- Recognises an object with a true `ok` and a `value`, or a false `ok` and an `error`. -/
def Json.unwrapEnvelope? (v : Json) : Option Unwrapped := do
  match ← (← v.field? "ok").asBool? with
  | true => return .value (← v.field? "value")
  | false => return .error (← v.field? "error")

theorem Outcome.unwrap_envelope_ok (v : Json) :
    (Outcome.ok v).envelope.unwrapEnvelope? = some (.value v) := rfl

theorem Outcome.unwrap_envelope_failed (kind : ErrorKind) (message : String) :
    (Outcome.failed kind message).envelope.unwrapEnvelope? =
      some (.error (.obj [("kind", kind.toJson), ("message", .str message)])) := rfl

end FlowEngine
