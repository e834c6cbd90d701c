import FlowEngine.Step.Codec

/-!
# Flows

A flow is a named sequence of steps with an optional handler for the failure
that escapes them.
-/
namespace FlowEngine

structure Flow where
  name : String
  description : Option String
  steps : List Step
  onError : Option (List Step)

namespace Flow

def toJson (f : Flow) : Json :=
  Json.record [("name", some (.str f.name)), ("description", f.description.map .str),
    ("steps", some (.arr (Step.stepsToJson f.steps))), ("on_error", Step.optionToJson f.onError)]

def ofJson? (v : Json) : Option Flow := do
  return {
    name := ← v.required "name" Json.asText?
    description := ← v.optional "description" Json.asText?
    steps := ← v.required "steps" Step.sequenceOfJson?
    onError := ← v.optional "on_error" Step.sequenceOfJson? }

def nodes (f : Flow) : List Step := Step.sequenceNodes f.steps ++ Step.optionNodes f.onError

def stepCount (f : Flow) : Nat := f.nodes.length

end Flow
end FlowEngine
