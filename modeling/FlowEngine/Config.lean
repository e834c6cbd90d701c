import FlowEngine.Json.Decode
import FlowEngine.Failure
import FlowEngine.Text.Unsigned

/-!
# Engine configuration

Limits of the engine with their defaults, read from data or from the variables
of an environment.
-/
namespace FlowEngine

structure Config where
  /-- How many collaborator calls of one run may be in progress at once. -/
  maxConcurrency : UInt64 := 8
  /-- How many submitted runs may execute at once. -/
  maxConcurrentRuns : UInt64 := 4
  runTimeout : Option UInt64 := none
  stepTimeout : Option UInt64 := none
  logLevel : String := "info"
deriving DecidableEq

instance : Inhabited Config := ⟨{}⟩

namespace Config

inductive Fault where
  | noConcurrency
  | noConcurrentRuns
deriving DecidableEq

def Fault.toError : Fault → EngineError
  | noConcurrency => .configuration "max_concurrency must be at least 1"
  | noConcurrentRuns => .configuration "max_concurrent_runs must be at least 1"

def validate (c : Config) : Except Fault Unit :=
  if c.maxConcurrency = 0 then .error .noConcurrency
  else if c.maxConcurrentRuns = 0 then .error .noConcurrentRuns
  else .ok ()

def toJson (c : Config) : Json :=
  let limit (n : Option UInt64) : Json := (n.map fun n => Json.ofNat n.toNat).getD .null
  .object [("max_concurrency", .ofNat c.maxConcurrency.toNat),
    ("max_concurrent_runs", .ofNat c.maxConcurrentRuns.toNat),
    ("run_timeout_ms", limit c.runTimeout), ("default_step_timeout_ms", limit c.stepTimeout),
    ("log_level", .str c.logLevel)]

/-- Reads the JSON form of a configuration; missing fields take their defaults. -/
def ofJson? (v : Json) : Option Config := do
  let fallback : Config := {}
  let word (w : Json) : Option UInt64 := w.asUnsigned?.map .ofNat
  guard v.asFields?.isSome
  return {
    maxConcurrency := ← v.withDefault "max_concurrency" word fallback.maxConcurrency
    maxConcurrentRuns := ← v.withDefault "max_concurrent_runs" word fallback.maxConcurrentRuns
    runTimeout := ← v.optional "run_timeout_ms" word
    stepTimeout := ← v.optional "default_step_timeout_ms" word
    logLevel := ← v.withDefault "log_level" Json.asText? fallback.logLevel }

/-- The configuration that an environment describes on top of the defaults. A
number that cannot be read is ignored. -/
def ofEnvironment (lookup : String → Option String) : Config :=
  let fallback : Config := {}
  let number (name : String) := do return .ofNat (← Text.unsigned? (← lookup name).toList)
  { maxConcurrency := (number "CASCADE_MAX_CONCURRENCY").getD fallback.maxConcurrency
    maxConcurrentRuns := (number "CASCADE_MAX_CONCURRENT_RUNS").getD fallback.maxConcurrentRuns
    runTimeout := number "CASCADE_RUN_TIMEOUT_MS"
    stepTimeout := number "CASCADE_STEP_TIMEOUT_MS"
    logLevel := (lookup "CASCADE_LOG_LEVEL").getD fallback.logLevel }

end Config
end FlowEngine
