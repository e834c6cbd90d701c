import FlowEngine.Failure
import FlowEngine.Target
import FlowEngine.Text.Split
import FlowEngine.Text.Unsigned

/-!
# The scope chain of a run

Bindings live in a stack of frames over the flow scope, which is never closed.
The flow scope also holds the object `state` of flow-wide fields and the object
`step` through which the output of a step is read as `step.<id>.output`. Names
are looked up from the innermost frame outwards.
-/
namespace FlowEngine

inductive ScopeKind where
  | flow
  | step
  | loopIteration
deriving DecidableEq, Repr

namespace ScopeKind

def label : ScopeKind → String
  | flow => "Flow"
  | step => "Step"
  | loopIteration => "LoopIteration"

def name : ScopeKind → String
  | flow => "flow"
  | step => "step"
  | loopIteration => "loop_iteration"

def ofName? (text : String) : Option ScopeKind :=
  [flow, step, loopIteration].find? fun k => k.name = text

end ScopeKind

structure Frame where
  kind : ScopeKind
  bindings : List (String × Json)

namespace Frame

def binds (name : String) (f : Frame) : Bool := Fields.has name f.bindings

def bind (name : String) (value : Json) (f : Frame) : Frame :=
  { f with bindings := Fields.insert name value f.bindings }

end Frame

/-- The scope chain: open frames, innermost first, over the flow scope. -/
structure Scope where
  inner : List Frame
  flow : List (String × Json)

namespace Scope

inductive Fault where
  | unbound (name : String)
  | emptyPath (path : String)
  | notOpen (kind : ScopeKind)
  | outermost
deriving DecidableEq

/-- A text in quotes for a message; quotes, backslashes and control characters
are escaped. -/
def quoted (s : String) : String :=
  let escape (c : Char) : List Char :=
    if c = '"' then ['\\', '"']
    else if c = '\\' then ['\\', '\\']
    else if c = '\n' then ['\\', 'n']
    else if c = '\t' then ['\\', 't']
    else if c = '\r' then ['\\', 'r']
    else if c = '\x00' then ['\\', '0']
    else if c.toNat < 0x20 ∨ (0x7f ≤ c.toNat ∧ c.toNat < 0xa0) then
      ['\\', 'u', '\x7b'] ++ Nat.toDigits 16 c.toNat ++ ['\x7d']
    else [c]
  String.ofList ('"' :: s.toList.flatMap escape ++ ['"'])

def Fault.toError : Fault → EngineError
  | unbound name => .unknownIdentifier name
  | emptyPath path => .validation ("Empty variable path: " ++ quoted path)
  | notOpen kind => .validation s!"No open {kind.label} scope to declare in"
  | outermost => .validation "Cannot pop the flow scope"

def stepName : String := "step"

/-- A flow scope with the given inputs; `state` and `step` start empty unless
an input of that name is given. -/
def ofBindings (inputs : List (String × Json)) : Scope :=
  ⟨[], Fields.insertAll (Fields.ofList [(Target.stateName, .obj []), (stepName, .obj [])]) inputs⟩

def empty : Scope := ofBindings []

instance : Inhabited Scope := ⟨empty⟩

def frames (s : Scope) : List Frame := s.inner ++ [⟨.flow, s.flow⟩]

def depth (s : Scope) : Nat := s.inner.length + 1

def kind (s : Scope) : ScopeKind := (s.inner.head?.map Frame.kind).getD .flow

/-- Replaces the innermost frame that passes a test; none if there is no such frame. -/
def updateFrame? (test : Frame → Bool) (change : Frame → Frame) : List Frame → Option (List Frame)
  | [] => none
  | f :: rest =>
    if test f then some (change f :: rest) else (updateFrame? test change rest).map (f :: ·)

def declareLocal (name : String) (value : Json) (s : Scope) : Scope :=
  match s.inner with
  | f :: rest => { s with inner := f.bind name value :: rest }
  | [] => { s with flow := Fields.insert name value s.flow }

def declare (kind : ScopeKind) (name : String) (value : Json) (s : Scope) : Except Fault Scope :=
  match updateFrame? (fun f => f.kind = kind) (Frame.bind name value) s.inner with
  | some inner => .ok { s with inner }
  | none =>
    if kind = .flow then .ok { s with flow := Fields.insert name value s.flow }
    else .error (.notOpen kind)

/-- Rebinds a name in the innermost frame that binds it, or binds it in the
innermost frame when no frame does. -/
def assign (name : String) (value : Json) (s : Scope) : Scope :=
  match updateFrame? (Frame.binds name) (Frame.bind name value) s.inner with
  | some inner => { s with inner }
  | none =>
    if Fields.has name s.flow then { s with flow := Fields.insert name value s.flow }
    else s.declareLocal name value

def lookup? (name : String) (s : Scope) : Option Json :=
  s.frames.findSome? fun f => Fields.get? name f.bindings

def resolve (name : String) (s : Scope) : Except Fault Json :=
  match s.lookup? name with
  | some v => .ok v
  | none => .error (.unbound name)

def isBound (name : String) (s : Scope) : Bool := s.frames.any (Frame.binds name)

/-- One step of a path: a field of an object or a position of a list, which may
have a plus sign. -/
def child? (segment : List Char) : Json → Option Json
  | .obj fields => Fields.get? (String.ofList segment) fields
  | .arr items => (Text.unsigned? segment).bind fun i => items[i]?
  | _ => none

/-- Follows the rest of a path; whatever is missing is null. -/
def follow (value : Json) : List (List Char) → Json
  | [] => value
  | s :: rest =>
    match child? s value with
    | some next => follow next rest
    | none => .null

/-- The value of a dotted path. Its first segment has to be bound. -/
def resolvePath (path : String) (s : Scope) : Except Fault Json :=
  match Text.split '.' path.toList with
  | [] | [] :: _ => .error (.emptyPath path)
  | head :: rest => do return follow (← s.resolve (String.ofList head)) rest

def push (kind : ScopeKind) (s : Scope) : Scope := { s with inner := ⟨kind, []⟩ :: s.inner }

def pop (s : Scope) : Except Fault Scope :=
  match s.inner with
  | _ :: rest => .ok { s with inner := rest }
  | [] => .error .outermost

/-- Closes the innermost frame unless only the flow scope is left. -/
def leave (s : Scope) : Scope := { s with inner := s.inner.drop 1 }

/-- Writes a field of the flow-wide object, replacing a `state` that is no object. -/
def setStateField (field : String) (value : Json) (s : Scope) : Scope :=
  let fields := ((Fields.get? Target.stateName s.flow).bind Json.asFields?).getD []
  { s with flow := Fields.insert Target.stateName (.obj (Fields.insert field value fields)) s.flow }

/-- Records the output of a completed step, replacing a `step` that is no object. -/
def recordOutput (id : String) (output : Json) (s : Scope) : Scope :=
  let fields := ((Fields.get? stepName s.flow).bind Json.asFields?).getD []
  let entry := .obj [("output", output)]
  { s with flow := Fields.insert stepName (.obj (Fields.insert id entry fields)) s.flow }

def stepOutput? (id : String) (s : Scope) : Option Json := do
  (← (← Fields.get? stepName s.flow).field? id).field? "output"

/-- Every visible binding, inner frames before outer ones. -/
def visible (s : Scope) : List (String × Json) :=
  s.inner.foldr (fun f acc => Fields.insertAll acc f.bindings) s.flow

/-- A copy with one more frame, for work whose writes are dropped. -/
def fork (kind : ScopeKind) (s : Scope) : Scope := s.push kind

end Scope
end FlowEngine
