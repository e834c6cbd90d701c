import FlowEngine.Step.Basic

/-!
# The JSON form of steps

A step is one object: its id, the tag `kind` and the parameters of that kind,
then its retry policy and deadline. Written steps show every default; options
that are not set are left out.
-/
namespace FlowEngine

def Millis.toJson (ms : Millis) : Json := .ofNat ms.toNat

def Millis.ofJson? (v : Json) : Option Millis := v.asUnsigned?.map UInt64.ofNat

namespace JoinPolicy

def name : JoinPolicy → String
  | waitAll => "wait-all"
  | failFast => "fail-fast"

def toJson (p : JoinPolicy) : Json := .str p.name

def ofJson? (v : Json) : Option JoinPolicy :=
  v.asTag?.bind fun s => [waitAll, failFast].find? fun p => p.name = s

end JoinPolicy

namespace LoopBinding

def toJson : LoopBinding → Json
  | single name => .str name
  | destructure names => .arr (names.map .str)

def ofJson? : Json → Option LoopBinding
  | .str name => some (single name)
  | v => (v.listOf Json.asText?).map destructure

def names : LoopBinding → List String
  | single name => [name]
  | destructure names => names

end LoopBinding

namespace Pattern

def toJson : Pattern → Json
  | literal value => .object [("type", .str "literal"), ("value", value)]
  | ok bind => Json.record [("type", some (.str "ok")), ("bind", bind.map .str)]
  | err bind => Json.record [("type", some (.str "err")), ("bind", bind.map .str)]

def ofJson? (v : Json) : Option Pattern := do
  match ← v.required "type" Json.asText? with
  | "literal" => return literal (← v.field? "value")
  | "ok" => return ok (← v.optional "bind" Json.asText?)
  | "err" => return err (← v.optional "bind" Json.asText?)
  | _ => none

end Pattern

namespace Backoff

instance : Inhabited Backoff := ⟨fixed 100⟩

def toJson : Backoff → Json
  | fixed delay => .object [("type", .str "fixed"), ("delay_ms", delay.toJson)]
  | linear delay => .object [("type", .str "linear"), ("delay_ms", delay.toJson)]
  | exponential initial multiplier limit =>
    Json.record [("type", some (.str "exponential")), ("initial_ms", some initial.toJson),
      ("multiplier", some (.ofFloat multiplier)), ("max_ms", limit.map Millis.toJson)]

def ofJson? (v : Json) : Option Backoff := do
  match ← v.required "type" Json.asText? with
  | "fixed" => return fixed (← v.required "delay_ms" Millis.ofJson?)
  | "linear" => return linear (← v.required "delay_ms" Millis.ofJson?)
  | "exponential" =>
    return exponential (← v.required "initial_ms" Millis.ofJson?)
      (← v.required "multiplier" Json.asFloat?) (← v.optional "max_ms" Millis.ofJson?)
  | _ => none

end Backoff

namespace RetryPolicy

def toJson (p : RetryPolicy) : Json :=
  .object [("max_attempts", .ofNat p.maxAttempts.toNat), ("backoff", p.backoff.toJson),
    ("retry_on_timeout", .bool p.retryOnTimeout)]

def ofJson? (v : Json) : Option RetryPolicy := do
  return {
    maxAttempts := .ofNat (← v.required "max_attempts" Json.asWord32?)
    backoff := ← v.withDefault "backoff" Backoff.ofJson? default
    retryOnTimeout := ← v.withDefault "retry_on_timeout" Json.asBool? true }

end RetryPolicy

namespace CallSpec

def fields (c : CallSpec) : List (String × Option Json) :=
  [("target", some (.str c.target)),
    ("inputs", some (.obj (c.inputs.map fun (k, e) => (k, e.toJson)))),
    ("bind", c.bind.map .str), ("capture", some (.bool c.capture))]

def readInputs (v : Json) : Option (List (String × Expr)) := do
  (← v.asFields?).mapM fun (k, e) => (Expr.ofJson? e).map fun e => (k, e)

def ofJson? (v : Json) : Option CallSpec := do
  return {
    target := ← v.required "target" Json.asText?
    inputs := ← v.withDefault "inputs" readInputs []
    bind := ← v.optional "bind" Json.asText?
    capture := ← v.withDefault "capture" Json.asBool? false }

end CallSpec

namespace RecordSpec

def fields (r : RecordSpec) : List (String × Option Json) :=
  [("record", some (.str r.record)), ("payload", r.payload.map Expr.toJson),
    ("filter", r.filter.map Expr.toJson), ("bind", r.bind.map .str),
    ("capture", some (.bool r.capture))]

def ofJson? (v : Json) : Option RecordSpec := do
  return {
    record := ← v.required "record" Json.asText?
    payload := ← v.optional "payload" Expr.ofJson?
    filter := ← v.optional "filter" Expr.ofJson?
    bind := ← v.optional "bind" Json.asText?
    capture := ← v.withDefault "capture" Json.asBool? false }

end RecordSpec

namespace Step

mutual
def toJson : Step → Json
  | mk id action retry timeout =>
    Json.record ([("id", some (.str id)), ("kind", some (.str action.kind))]
      ++ actionFields action
      ++ [("retry", retry.map RetryPolicy.toJson), ("timeout_ms", timeout.map Millis.toJson)])

def actionFields : Action → List (String × Option Json)
  | .call _ spec => spec.fields
  | .record _ spec => spec.fields
  | .script expr bind => [("expr", some expr.toJson), ("bind", bind.map .str)]
  | .assign target value declare =>
    [("target", some (.str target)), ("value", some value.toJson),
      ("declare", some (.bool declare))]
  | .conditional branches otherwise =>
    [("branches", some (.arr (branchesToJson branches))),
      ("otherwise", optionToJson otherwise)]
  | .choose subject arms otherwise =>
    [("subject", some subject.toJson), ("arms", some (.arr (armsToJson arms))),
      ("otherwise", optionToJson otherwise)]
  | .guard condition body =>
    [("condition", some condition.toJson), ("body", some (.arr (stepsToJson body)))]
  | .repeatTimes count counter body =>
    [("count", some count.toJson), ("counter", counter.map .str),
      ("body", some (.arr (stepsToJson body)))]
  | .repeatForEach collection binding index body =>
    [("collection", some collection.toJson), ("binding", some binding.toJson),
      ("index", index.map .str), ("body", some (.arr (stepsToJson body)))]
  | .forEach collection binding body join collect =>
    [("collection", some collection.toJson), ("binding", some binding.toJson),
      ("body", some (.arr (stepsToJson body))), ("join", some join.toJson),
      ("collect", collect.map Expr.toJson)]
  | .parallel branches join =>
    [("branches", some (.arr (parallelToJson branches))), ("join", some join.toJson)]
  | .transaction body onError =>
    [("body", some (.arr (stepsToJson body))), ("on_error", optionToJson onError)]

def stepsToJson : List Step → List Json
  | [] => []
  | s :: rest => s.toJson :: stepsToJson rest

def optionToJson : Option (List Step) → Option Json
  | none => none
  | some body => some (.arr (stepsToJson body))

def branchesToJson : List (Expr × List Step) → List Json
  | [] => []
  | (condition, body) :: rest =>
    .object [("condition", condition.toJson), ("body", .arr (stepsToJson body))]
      :: branchesToJson rest

def armsToJson : List (Pattern × List Step) → List Json
  | [] => []
  | (pattern, body) :: rest =>
    .object [("pattern", pattern.toJson), ("body", .arr (stepsToJson body))] :: armsToJson rest

def parallelToJson : List (List Step × Option Expr) → List Json
  | [] => []
  | (steps, collect) :: rest =>
    Json.record [("steps", some (.arr (stepsToJson steps))), ("collect", collect.map Expr.toJson)]
      :: parallelToJson rest
end

def itemsOf? (key : String) (v : Json) : Option (List v.Within) := do
  let child ← v.child? key
  return (← child.1.childItems?).map child.widen

def partItems? (key : String) {v : Json} (part : v.Within) : Option (List v.Within) :=
  (itemsOf? key part.1).map fun items => items.map part.widen

def body? (v : Json) (read : v.Within → Option Step) (key : String) : Option (List Step) := do
  (← itemsOf? key v).mapM read

def optionalBody? (v : Json) (read : v.Within → Option Step) (key : String) :
    Option (Option (List Step)) :=
  match v.field? key with
  | none | some .null => some none
  | some _ => (body? v read key).map some

def readAction (v : Json) (read : v.Within → Option Step) : Option Action := do
  match ← v.required "kind" Json.asText? with
  | "ai-call" => return .call .model (← CallSpec.ofJson? v)
  | "agent-call" => return .call .agent (← CallSpec.ofJson? v)
  | "tool-call" => return .call .tool (← CallSpec.ofJson? v)
  | "db-create" => return .record .create (← RecordSpec.ofJson? v)
  | "db-update" => return .record .update (← RecordSpec.ofJson? v)
  | "db-delete" => return .record .delete (← RecordSpec.ofJson? v)
  | "db-query" => return .record .query (← RecordSpec.ofJson? v)
  | "script" =>
    return .script (← v.required "expr" Expr.ofJson?) (← v.optional "bind" Json.asText?)
  | "set-variable" =>
    return .assign (← v.required "target" Json.asText?) (← v.required "value" Expr.ofJson?)
      (← v.withDefault "declare" Json.asBool? false)
  | "conditional" =>
    let branches ← (← itemsOf? "branches" v).mapM fun b => do
      let condition ← b.1.required "condition" Expr.ofJson?
      return (condition, ← (← partItems? "body" b).mapM read)
    return .conditional branches (← optionalBody? v read "otherwise")
  | "match" =>
    let subject ← v.required "subject" Expr.ofJson?
    let arms ← (← itemsOf? "arms" v).mapM fun a => do
      let pattern ← a.1.required "pattern" Pattern.ofJson?
      return (pattern, ← (← partItems? "body" a).mapM read)
    return .choose subject arms (← optionalBody? v read "otherwise")
  | "guard" => return .guard (← v.required "condition" Expr.ofJson?) (← body? v read "body")
  | "repeat-times" =>
    return .repeatTimes (← v.required "count" Expr.ofJson?) (← v.optional "counter" Json.asText?)
      (← body? v read "body")
  | "repeat-for-each" =>
    return .repeatForEach (← v.required "collection" Expr.ofJson?)
      (← v.required "binding" LoopBinding.ofJson?) (← v.optional "index" Json.asText?)
      (← body? v read "body")
  | "for-each" =>
    return .forEach (← v.required "collection" Expr.ofJson?)
      (← v.required "binding" LoopBinding.ofJson?) (← body? v read "body")
      (← v.withDefault "join" JoinPolicy.ofJson? .waitAll) (← v.optional "collect" Expr.ofJson?)
  | "parallel" =>
    let branches ← (← itemsOf? "branches" v).mapM fun b => do
      let steps ← (← partItems? "steps" b).mapM read
      return (steps, ← b.1.optional "collect" Expr.ofJson?)
    return .parallel branches (← v.withDefault "join" JoinPolicy.ofJson? .waitAll)
  | "transaction" =>
    return .transaction (← body? v read "body") (← optionalBody? v read "on_error")
  | _ => none

def ofJson? (v : Json) : Option Step := do
  let id ← v.required "id" Json.asText?
  let retry ← v.optional "retry" RetryPolicy.ofJson?
  let timeout ← v.optional "timeout_ms" Millis.ofJson?
  let action ← readAction v fun part =>
    have := part.2
    ofJson? part.1
  return mk id action retry timeout
termination_by sizeOf v

def sequenceOfJson? (v : Json) : Option (List Step) := v.listOf ofJson?

end Step
end FlowEngine
