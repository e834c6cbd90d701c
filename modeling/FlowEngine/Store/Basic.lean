import FlowEngine.Outcome
import FlowEngine.Json.Printer

/-!
# The record store

Collections of rows in insertion order, with foreign keys and snapshots. A
snapshot is a copy of every collection; it is used up by a restore or a discard.
An operation that reports a failure changes nothing.
-/
namespace FlowEngine

abbrev Row := List (String × Json)

/-- Rows in insertion order and the last id that was generated or seen. -/
structure Collection where
  rows : List Row
  lastId : UInt64

instance : Inhabited Collection := ⟨⟨[], 0⟩⟩

abbrev Collections := List (String × Collection)

/-- A field whose value has to be the id of a row of another collection. -/
structure ForeignKey where
  record : String
  field : String
  references : String
deriving DecidableEq

def idField : String := "id"

namespace Collection

/-- The row with an id: its own if it has one, else the next one. The counter
follows ids that are unsigned integers. -/
def withId (c : Collection) (row : Row) : Row × UInt64 :=
  match Fields.get? idField row with
  | some v =>
    match v.asUnsigned? with
    | some n => (row, if c.lastId < .ofNat n then .ofNat n else c.lastId)
    | none => (row, c.lastId)
  | none =>
    let id := c.lastId + 1
    (Fields.insert idField (.ofNat id.toNat) row, id)

def append (c : Collection) (row : Row) : Row × Collection :=
  let (stored, lastId) := c.withId row
  (stored, ⟨c.rows ++ [stored], lastId⟩)

end Collection

namespace Row

/-- Whether a row has every field of a filter with an equal value. -/
def agrees (filter : Row) (row : Row) : Bool :=
  filter.all fun (field, expected) =>
    match Fields.get? field row with
    | some actual => actual.valueEq expected
    | none => false

def hasId (id : Json) (row : Row) : Bool :=
  match Fields.get? idField row with
  | some v => v.valueEq id
  | none => false

end Row

structure Store where
  keys : List ForeignKey
  collections : Collections
  snapshots : List (String × Collections)
  /-- The number of snapshots taken so far, which names the next one. -/
  taken : Nat

namespace Store

inductive Fault where
  | payloadNotObject (got : Json)
  | filterNotObject (got : Json)
  | changesNotObject (got : Json)
  | missingReference (key : ForeignKey)
  | danglingReference (key : ForeignKey) (value : Json)
  | seedNotObject (record : String) (got : Json)
  | unknownSnapshot (handle : String)

def Fault.message : Fault → String
  | payloadNotObject got => s!"Record payload must be an object, got {got.render}"
  | filterNotObject got => s!"Filter must be an object, got {got.render}"
  | changesNotObject got => s!"Update payload must be an object, got {got.render}"
  | missingReference key =>
    s!"{key.record}.{key.field} must reference a {key.references} row"
  | danglingReference key value =>
    s!"{key.record}.{key.field} = {value.render} references a missing {key.references} row"
  | seedNotObject record got => s!"Seed rows of {record} must be objects, got {got.render}"
  | unknownSnapshot handle => s!"Unknown snapshot {handle}"

def Fault.toError : Fault → EngineError
  | unknownSnapshot handle => .store (unknownSnapshot handle).message
  | fault => .validation fault.message

def empty (keys : List ForeignKey) : Store := ⟨keys, [], [], 0⟩

instance : Inhabited Store := ⟨empty []⟩

/-- A collection; one that was never written is empty. -/
def collection (s : Store) (record : String) : Collection :=
  (Fields.get? record s.collections).getD default

def rows (s : Store) (record : String) : List Row := (s.collection record).rows

def putCollection (s : Store) (record : String) (c : Collection) : Store :=
  { s with collections := Fields.insert record c s.collections }

def checkKey (s : Store) (row : Row) (key : ForeignKey) : Except Fault Unit :=
  match Fields.get? key.field row with
  | none | some .null => .error (.missingReference key)
  | some v =>
    if (s.rows key.references).any (Row.hasId v) then .ok ()
    else .error (.danglingReference key v)

/-- Checks the foreign keys of a row of a collection, in the order they were declared. -/
def checkReferences (s : Store) (record : String) (row : Row) : Except Fault Unit :=
  (s.keys.filter fun key => key.record = record).forM (s.checkKey row)

/-- Appends rows without checking foreign keys, up to the first value that is no
object. -/
def seedRows (record : String) : List Json → Collection → Collection × Except Fault Unit
  | [], c => (c, .ok ())
  | .obj row :: rest, c => seedRows record rest (c.append row).2
  | v :: _, c => (c, .error (.seedNotObject record v))

/-- Appends rows to a collection without checking foreign keys. The rows before a
value that is no object stay. -/
def seed (s : Store) (record : String) (values : List Json) : Store × Except Fault Unit :=
  let (c, result) := seedRows record values (s.collection record)
  (s.putCollection record c, result)

def create (s : Store) (record : String) (payload : Json) : Except Fault (Json × Store) := do
  let row ← match payload with
    | .obj row => .ok row
    | other => .error (Fault.payloadNotObject other)
  s.checkReferences record row
  let (stored, c) := (s.collection record).append row
  return (.obj stored, s.putCollection record c)

def filterFields : Json → Except Fault Row
  | .obj filter => .ok filter
  | other => .error (.filterNotObject other)

/-- Overlays changes on the rows that agree with a filter and returns their number. -/
def update (s : Store) (record : String) (filter changes : Json) :
    Except Fault (Json × Store) := do
  let filter ← filterFields filter
  let changes ← match changes with
    | .obj changes => .ok changes
    | other => .error (Fault.changesNotObject other)
  let changed (row : Row) := Fields.insertAll row changes
  let affected := (s.rows record).filter (Row.agrees filter)
  affected.forM fun row => s.checkReferences record (changed row)
  let count := Json.ofNat affected.length
  if affected.isEmpty then return (count, s)
  let rows := (s.rows record).map fun row =>
    if Row.agrees filter row then changed row else row
  return (count, s.putCollection record { s.collection record with rows })

def delete (s : Store) (record : String) (filter : Json) : Except Fault (Json × Store) := do
  let filter ← filterFields filter
  let all := s.rows record
  let kept := all.filter fun row => !Row.agrees filter row
  let count := Json.ofNat (all.length - kept.length)
  if kept.length = all.length then return (count, s)
  return (count, s.putCollection record { s.collection record with rows := kept })

def query (s : Store) (record : String) (filter : Json) : Except Fault Json := do
  let filter ← filterFields filter
  return .arr (((s.rows record).filter (Row.agrees filter)).map .obj)

/-- Takes a snapshot of every collection and returns its handle. -/
def snapshot (s : Store) : String × Store :=
  let taken := s.taken + 1
  let handle := s!"snap-{taken}"
  (handle, { s with taken, snapshots := Fields.insert handle s.collections s.snapshots })

/-- Puts every collection back as it was when a snapshot was taken, and uses the
snapshot up. -/
def restore (s : Store) (handle : String) : Except Fault Store :=
  match Fields.get? handle s.snapshots with
  | some saved =>
    .ok { s with collections := saved, snapshots := Fields.erase handle s.snapshots }
  | none => .error (.unknownSnapshot handle)

/-- Uses a snapshot up without restoring it. -/
def discard (s : Store) (handle : String) : Except Fault Store :=
  if Fields.has handle s.snapshots then
    .ok { s with snapshots := Fields.erase handle s.snapshots }
  else .error (.unknownSnapshot handle)

/-- The number of snapshots neither restored nor discarded. -/
def openSnapshots (s : Store) : Nat := s.snapshots.length

def outcome : Except Fault Json → Outcome
  | .ok v => .ok v
  | .error fault => .failed .validation fault.message

end Store
end FlowEngine
