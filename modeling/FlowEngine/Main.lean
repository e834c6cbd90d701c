import FlowEngine.CommandLine
import FlowEngine.Json.Indented

/-!
# The program

Reads the files that the arguments name, carries the command out and prints its
report.
-/
namespace FlowEngine

def readFile? (path : String) : IO (Option String) := do
  try
    return some (← IO.FS.readFile path)
  catch _ => return none

def readVariable (name : String) : IO (Option (String × String)) := do
  return (← IO.getEnv name).map fun value => (name, value)

def usage : String := "Usage: flow-run <FLOW> [BINDINGS]"

end FlowEngine

open FlowEngine in
def main (arguments : List String) : IO UInt32 := do
  let names := ["CASCADE_CONFIG", "CASCADE_MAX_CONCURRENCY", "CASCADE_MAX_CONCURRENT_RUNS",
    "CASCADE_RUN_TIMEOUT_MS", "CASCADE_STEP_TIMEOUT_MS", "CASCADE_LOG_LEVEL"]
  let environment := (← names.mapM readVariable).filterMap id
  let paths := arguments ++ (environment.lookup "CASCADE_CONFIG").toList
  let files ← paths.mapM fun path => return (path, ← readFile? path)
  let report := CommandLine.execute (fun path => (files.lookup path).join)
    (fun name => environment.lookup name) arguments
  match report.outcome with
  | some (.ok result) => IO.println (result.toJson.renderIndented)
  | some (.error fault) => IO.eprintln ("Error: " ++ fault.message)
  | none => if report.exitCode = 0 then IO.println usage else IO.eprintln usage
  return .ofNat report.exitCode
