import FlowEngine.Json.Decode

/-!
# Errors of the engine and failures of steps

An `EngineError` says what went wrong in the engine's own words. A `Failure` is
what travels through a run: the kind of an error, its text, the step that raised
it, whether it rolled a transaction back, and the failure behind it.
-/
namespace FlowEngine

/-- How a failure is classified, for retry decisions and for callers. -/
inductive ErrorKind where
  | unknownIdentifier
  | validation
  | stepExecution
  | timeout
  | matchExhausted
  | nestedTransaction
  | retryExhausted
  | cancellation
  | configuration
  | store
  | notFound
  | serialization
deriving DecidableEq, Repr

namespace ErrorKind

def all : List ErrorKind :=
  [unknownIdentifier, validation, stepExecution, timeout, matchExhausted, nestedTransaction,
    retryExhausted, cancellation, configuration, store, notFound, serialization]

def name : ErrorKind → String
  | unknownIdentifier => "unknown_identifier"
  | validation => "validation"
  | stepExecution => "step_execution"
  | timeout => "timeout"
  | matchExhausted => "match_exhausted"
  | nestedTransaction => "nested_transaction"
  | retryExhausted => "retry_exhausted"
  | cancellation => "cancellation"
  | configuration => "configuration"
  | store => "store"
  | notFound => "not_found"
  | serialization => "serialization"

def ofName? (text : String) : Option ErrorKind := all.find? fun k => k.name = text

def isRetryable : ErrorKind → Bool
  | stepExecution | timeout => true
  | _ => false

def toJson (k : ErrorKind) : Json := .str k.name

def ofJson? (v : Json) : Option ErrorKind := v.asTag?.bind ofName?

end ErrorKind

structure Failure where
  kind : ErrorKind
  message : String
  stepId : Option String
  isRollback : Bool
  /-- The failure behind this one, such as the last attempt of a retry. -/
  cause : Option Failure

namespace Failure

/-- A failure of a kind with a text and nothing else known. -/
def new (kind : ErrorKind) (message : String) : Failure := ⟨kind, message, none, false, none⟩

def cancelled (reason : String) : Failure := new .cancellation reason

def exhausted (attempts : Nat) (last : Failure) : Failure where
  kind := .retryExhausted
  message := s!"retry exhausted after {attempts} attempts: {last.message}"
  stepId := last.stepId
  isRollback := last.isRollback
  cause := some last

/-- Names the step that raised the failure, unless one is named already. -/
def atStep (f : Failure) (id : String) : Failure :=
  { f with stepId := f.stepId.orElse fun _ => some id }

def rolledBack (f : Failure) : Failure := { f with isRollback := true }

def causedBy (f cause : Failure) : Failure := { f with cause := some cause }

def isCancellation (f : Failure) : Bool := f.kind = .cancellation

def display (f : Failure) : String := s!"{f.kind.name}: {f.message}"

/-- The JSON form; step and cause are left out when unknown. -/
def toJson : Failure → Json
  | ⟨kind, message, stepId, isRollback, cause⟩ =>
    let behind := match cause with
      | some c => some (toJson c)
      | none => none
    Json.record [
      ("kind", some kind.toJson),
      ("message", some (.str message)),
      ("step_id", stepId.map .str),
      ("is_rollback", some (.bool isRollback)),
      ("cause", behind)]

def ofJson? (v : Json) : Option Failure := do
  let kind ← v.required "kind" ErrorKind.ofJson?
  let message ← v.required "message" Json.asText?
  let stepId ← v.optional "step_id" Json.asText?
  let isRollback ← v.withDefault "is_rollback" Json.asBool? false
  match v.child? "cause" with
  | none | some ⟨.null, _⟩ => return ⟨kind, message, stepId, isRollback, none⟩
  | some ⟨w, _⟩ => return ⟨kind, message, stepId, isRollback, some (← ofJson? w)⟩
termination_by sizeOf v

end Failure

inductive EngineError where
  | unknownIdentifier (name : String)
  | validation (text : String)
  | stepExecution (text : String)
  | timeout (text : String)
  | matchExhausted (text : String)
  | nestedTransaction (text : String)
  | retryExhausted (attempts : Nat) (last : Failure)
  | cancellation (text : String)
  | flowNotFound (name : String)
  | configuration (text : String)
  | store (text : String)
  | invalidTransition (text : String)
  | serialization (text : String)
  | inputOutput (text : String)

namespace EngineError

def message : EngineError → String
  | unknownIdentifier name => "Unknown identifier: " ++ name
  | validation text => "Validation error: " ++ text
  | stepExecution text => "Step execution error: " ++ text
  | timeout text => "Timeout error: " ++ text
  | matchExhausted text => "Match exhausted: " ++ text
  | nestedTransaction text => "Nested transaction error: " ++ text
  | retryExhausted attempts last =>
    s!"Retry exhausted after {attempts} attempts: {last.message}"
  | cancellation text => "Cancellation error: " ++ text
  | flowNotFound name => "Flow definition not found: " ++ name
  | configuration text => "Configuration error: " ++ text
  | store text => "Record store error: " ++ text
  | invalidTransition text => "Invalid state transition: " ++ text
  | serialization text => "Serialization error: " ++ text
  | inputOutput text => "Input/output error: " ++ text

def kind : EngineError → ErrorKind
  | unknownIdentifier _ => .unknownIdentifier
  | validation _ | invalidTransition _ => .validation
  | stepExecution _ => .stepExecution
  | timeout _ => .timeout
  | matchExhausted _ => .matchExhausted
  | nestedTransaction _ => .nestedTransaction
  | retryExhausted _ _ => .retryExhausted
  | cancellation _ => .cancellation
  | flowNotFound _ => .notFound
  | configuration _ => .configuration
  | store _ | inputOutput _ => .store
  | serialization _ => .serialization

def toFailure : EngineError → Failure
  | retryExhausted attempts last => .exhausted attempts last
  | e => .new e.kind e.message

end EngineError
end FlowEngine
