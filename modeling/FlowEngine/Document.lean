import FlowEngine.Config
import FlowEngine.Flow.Validity
import FlowEngine.Json.Parser
import FlowEngine.Yaml.Parser

/-!
# Documents

Flows and configurations as JSON or YAML text. A place of a YAML document that asks
for a text takes a plain scalar as it is spelled; inside a step only its id is such
a place, since the other fields are read by the kind of the step.
-/
namespace FlowEngine

inductive DocumentFault where
  | malformed
  | flow (fault : Flow.Fault)
  | config (fault : Config.Fault)

def DocumentFault.toError : DocumentFault → EngineError
  | malformed => .serialization "malformed document"
  | flow fault => fault.toError
  | config fault => fault.toError

inductive Language where
  | json
  | yaml
deriving DecidableEq

namespace Yaml

/-- The fields of a mapping that have a reader, as an object. Other fields are left
out. -/
def recordToJson? (readers : List (String × (Yaml → Option Json))) (node : Yaml) :
    Option Json := do
  let fields ← (← node.fields?).filterMapM fun (name, value) =>
    match readers.lookup name with
    | some read => do return some (name, ← read value)
    | none => return none
  return .object fields

def stepToJson? (node : Yaml) : Option Json := do
  let fields ← (← node.fields?).mapM fun (name, value) => do
    return (name, ← if name = "id" then value.textToJson? else value.toJson?)
  return .object fields

/-- The JSON value of a sequence of steps; an empty place is an empty sequence. -/
def stepsToJson? : Yaml → Option Json
  | seq steps => (steps.mapM stepToJson?).map .arr
  | scalar "" true => some (.arr [])
  | node => node.toJson?

def optionalStepsToJson? (node : Yaml) : Option Json :=
  if node.isNull then some .null else node.stepsToJson?

def flowToJson? : Yaml → Option Json :=
  recordToJson? [("name", textToJson?), ("description", optionalTextToJson?),
    ("steps", stepsToJson?), ("on_error", optionalStepsToJson?)]

def configToJson? : Yaml → Option Json :=
  recordToJson? [("max_concurrency", toJson?), ("max_concurrent_runs", toJson?),
    ("run_timeout_ms", toJson?), ("default_step_timeout_ms", toJson?), ("log_level", textToJson?)]

end Yaml

def DocumentFault.require {α : Type} (a : Option α) : Except DocumentFault α :=
  match a with
  | some a => .ok a
  | none => .error malformed

def Flow.jsonOfText? (language : Language) (source : String) : Option Json :=
  match language with
  | .json => Json.parse? source
  | .yaml => do (← (← Yaml.parse? source)).flowToJson?

def Flow.ofText (language : Language) (source : String) : Except DocumentFault Flow := do
  let flow ← DocumentFault.require ((Flow.jsonOfText? language source).bind Flow.ofJson?)
  flow.validate.mapError .flow
  return flow

/-- Reads a configuration and checks that it is valid. An empty document stands for
the defaults. -/
def Config.ofText (source : String) : Except DocumentFault Config := do
  let config ← match ← DocumentFault.require (Yaml.parse? source) with
    | none => pure {}
    | some node => DocumentFault.require (node.configToJson?.bind Config.ofJson?)
  config.validate.mapError .config
  return config

end FlowEngine
