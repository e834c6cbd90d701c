import FlowEngine.Step.Basic
import FlowEngine.Store.Basic

/-!
# A store with scripted delays and failures

Every kind of operation may be delayed, and its first calls may answer with a
failure before they reach the rows. Snapshot calls may fail as a whole.
-/
namespace FlowEngine

structure ScriptedFailure where
  times : Option Nat
  kind : ErrorKind
  message : String

structure StoreScript where
  snapshotError : Option String
  restoreError : Option String
  discardError : Option String
  delays : List (RecordOp × Nat)
  failures : List (RecordOp × ScriptedFailure)

def StoreScript.none : StoreScript := ⟨.none, .none, .none, [], []⟩

/-- An operation on the rows of a collection, with its arguments evaluated. -/
inductive RecordRequest where
  | create (record : String) (payload : Json)
  | update (record : String) (filter changes : Json)
  | delete (record : String) (filter : Json)
  | query (record : String) (filter : Json)

def RecordRequest.op : RecordRequest → RecordOp
  | create _ _ => .create
  | update _ _ _ => .update
  | delete _ _ => .delete
  | query _ _ => .query

namespace Store

def perform (s : Store) (request : RecordRequest) : Outcome × Store :=
  let result : Except Fault (Json × Store) := match request with
    | .create record payload => s.create record payload
    | .update record filter changes => s.update record filter changes
    | .delete record filter => s.delete record filter
    | .query record filter => (s.query record filter).map fun v => (v, s)
  match result with
  | .ok (v, s) => (.ok v, s)
  | .error fault => (.failed .validation fault.message, s)

end Store

structure ScriptedStore where
  store : Store
  script : StoreScript
  calls : List (RecordOp × Nat)

namespace ScriptedStore

def new (store : Store) (script : StoreScript) : ScriptedStore := ⟨store, script, []⟩

def callCount (s : ScriptedStore) (op : RecordOp) : Nat := (s.calls.lookup op).getD 0

def delay (s : ScriptedStore) (op : RecordOp) : Nat := (s.script.delays.lookup op).getD 0

def failure? (s : ScriptedStore) (op : RecordOp) (call : Nat) : Option ScriptedFailure := do
  let f ← s.script.failures.lookup op
  match f.times with
  | some times => if call ≤ times then some f else none
  | none => some f

/-- Carries out a request unless the script lets it fail. -/
def perform (s : ScriptedStore) (request : RecordRequest) : Outcome × ScriptedStore :=
  let op := request.op
  let call := s.callCount op + 1
  let s := { s with calls := (op, call) :: s.calls.filter fun (o, _) => o ≠ op }
  match s.failure? op call with
  | some f => (.failed f.kind f.message, s)
  | none =>
    let (outcome, store) := s.store.perform request
    (outcome, { s with store })

def snapshot (s : ScriptedStore) : Except EngineError (String × ScriptedStore) :=
  match s.script.snapshotError with
  | some text => .error (.store text)
  | none =>
    let (handle, store) := s.store.snapshot
    .ok (handle, { s with store })

def restore (s : ScriptedStore) (handle : String) : Except EngineError ScriptedStore :=
  match s.script.restoreError with
  | some text => .error (.store text)
  | none =>
    match s.store.restore handle with
    | .ok store => .ok { s with store }
    | .error fault => .error fault.toError

def discard (s : ScriptedStore) (handle : String) : Except EngineError ScriptedStore :=
  match s.script.discardError with
  | some text => .error (.store text)
  | none =>
    match s.store.discard handle with
    | .ok store => .ok { s with store }
    | .error fault => .error fault.toError

end ScriptedStore
end FlowEngine
