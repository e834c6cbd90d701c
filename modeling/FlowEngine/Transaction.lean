import FlowEngine.Store.Scripted

/-!
# Transactions

A run has at most one open snapshot. A transaction takes it and keeps the slot
until it releases it; only then is the snapshot restored or discarded.
-/
namespace FlowEngine

structure TransactionSlot where
  held : Option String
deriving DecidableEq

namespace TransactionSlot

inductive Fault where
  | taken (handle : String)
  | notHeld (handle : String)
deriving DecidableEq

def Fault.toError : Fault → EngineError
  | taken handle => .nestedTransaction s!"Snapshot {handle} is already open for this run"
  | notHeld handle => .store s!"Snapshot {handle} is not the open snapshot of this run"

def empty : TransactionSlot := ⟨none⟩

def begin (slot : TransactionSlot) (store : ScriptedStore) :
    Except EngineError (String × TransactionSlot × ScriptedStore) :=
  match slot.held with
  | some handle => .error (Fault.taken handle).toError
  | none => do
    let (handle, store) ← store.snapshot
    return (handle, ⟨some handle⟩, store)

def release (slot : TransactionSlot) (handle : String) : Except EngineError TransactionSlot :=
  if slot.held = some handle then .ok empty else .error (Fault.notHeld handle).toError

/-- Releases the slot and then discards the snapshot. The slot stays released
when the store refuses. -/
def commit (slot : TransactionSlot) (store : ScriptedStore) (handle : String) :
    Except EngineError ScriptedStore × TransactionSlot :=
  match slot.release handle with
  | .ok slot => (store.discard handle, slot)
  | .error e => (.error e, slot)

/-- Releases the slot and then restores the snapshot. The slot stays released
when the store refuses. -/
def rollback (slot : TransactionSlot) (store : ScriptedStore) (handle : String) :
    Except EngineError ScriptedStore × TransactionSlot :=
  match slot.release handle with
  | .ok slot => (store.restore handle, slot)
  | .error e => (.error e, slot)

end TransactionSlot
end FlowEngine
