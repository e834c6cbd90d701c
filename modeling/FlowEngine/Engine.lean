import FlowEngine.Execution.Flow
import FlowEngine.Flow.Validity
import FlowEngine.Machine.System

/-!
# The engine

An engine keeps valid flows under their names and runs them on one machine, one
after another or submitted together.
-/
namespace FlowEngine

structure Engine where
  config : Config
  flows : List (String × Flow)
  machine : Machine

namespace Engine

/-- An engine without flows, whatever its configuration. -/
def unchecked (config : Config) (world : World) : Engine := ⟨config, [], .new config world⟩

def create (config : Config) (world : World) : Except Config.Fault Engine := do
  config.validate
  return unchecked config world

/-! ## The registry -/

def register (e : Engine) (flow : Flow) : Except Flow.Fault Engine := do
  flow.validate
  return { e with flows := Fields.insert flow.name flow e.flows }

def find (e : Engine) (name : String) : Except EngineError Flow :=
  match Fields.get? name e.flows with
  | some flow => .ok flow
  | none => .error (.flowNotFound name)

def unregister (e : Engine) (name : String) : Except EngineError Engine := do
  let _ ← e.find name
  return { e with flows := Fields.erase name e.flows }

def names (e : Engine) : List String := e.flows.map Prod.fst

/-! ## Running -/

/-- How many steps a machine may take for one result. -/
def patience : Nat := 1_000_000_000_000_000

def newToken (e : Engine) (cancelled : Bool) (cancelAfter : Option Nat) : Token × Engine :=
  let (token, m) := e.machine.newToken
  let m := if cancelled then m.cancel token else m
  let m := match cancelAfter with
    | some span => (m.schedule span (.cancel token)).2
    | none => m
  (token, { e with machine := m })

def execute {α : Type} (e : Engine) (p : Program α) : Option (α × Engine) :=
  (System.execute patience e.machine p).map fun (a, machine) => (a, { e with machine })

def run (e : Engine) (flow : Flow) (inputs : List (String × Json)) (token : Token) :
    Option (RunResult × Engine) :=
  e.execute (Execution.run e.config flow inputs token)

def submit (e : Engine) (name : String) (inputs : List (String × Json)) (token : Token) :
    Except EngineError (Nat × Engine) := do
  let flow ← e.find name
  let (number, machine) := e.machine.submit (Execution.submitted e.config flow inputs token)
  return (number, { e with machine })

def await (e : Engine) (number : Nat) : Option (RunResult × Engine) :=
  e.execute (Program.ask (.awaitRun number) : Program RunResult)

def freeSlots (e : Engine) : Nat := e.machine.slots.free

def spans (e : Engine) (r : RunResult) : List SpanMark :=
  e.machine.runs[r.number]?.elim [] ActiveRun.spans

end Engine
end FlowEngine
