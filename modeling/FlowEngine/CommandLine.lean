import FlowEngine.Document
import FlowEngine.Engine
import FlowEngine.Json.Printer

/-!
# The command line

Runs one flow from a file with collaborators that answer with their inputs and an
empty record store. Files and variables come in as functions, so a run is a
function of its arguments.
-/
namespace FlowEngine.CommandLine

inductive Request where
  | run (flow : String) (bindings : Option String)
  | help
  | version
deriving DecidableEq

def option? (argument : String) : Option Request :=
  match argument.toList with
  | '-' :: '-' :: _ =>
    if argument = "--help" then some .help
    else if argument = "--version" then some .version
    else none
  | '-' :: 'h' :: _ => some .help
  | '-' :: 'V' :: _ => some .version
  | _ => none

def ofPaths? : List String → Option Request
  | [flow] => some (.run flow none)
  | [flow, bindings] => some (.run flow (some bindings))
  | _ => none

/-- Reads the arguments after some paths; a wrong argument is none. After two
hyphens every argument is a path. -/
def parseAfter (paths : List String) : List String → (pathsOnly : Bool) → Option Request
  | [], _ => ofPaths? paths
  | argument :: rest, pathsOnly =>
    if !pathsOnly && argument = "--" then parseAfter paths rest true
    else if !pathsOnly && argument.startsWith "-" && argument ≠ "-" then option? argument
    else if argument.isEmpty || 2 ≤ paths.length then none
    else parseAfter (paths ++ [argument]) rest pathsOnly

def parse? (arguments : List String) : Option Request := parseAfter [] arguments false

inductive Fault where
  | configuration (path : Option String)
  | unreadableFlow (path : String)
  | invalidFlow (path : String)
  | unreadableBindings (path : String)
  | invalidBindings (path : String)
  | bindingsNotObject (got : Json)
  | notRunnable

def Fault.message : Fault → String
  | configuration none => "Failed to load configuration"
  | configuration (some path) => s!"Failed to load configuration from {path}"
  | unreadableFlow path => s!"Failed to read flow {path}"
  | invalidFlow path => s!"Invalid flow {path}"
  | unreadableBindings path => s!"Failed to read bindings {path}"
  | invalidBindings path => s!"Invalid bindings {path}"
  | bindingsNotObject got => s!"Bindings must be a JSON object, got {got.render}"
  | notRunnable => "Run failed to start"

/-! ## Inputs -/

def components (path : String) : List String :=
  (Text.split '/' path.toList).map String.ofList |>.filter fun part =>
    !part.isEmpty && part ≠ "."

/-- What follows the last point of a file name, unless nothing precedes it. -/
def extension? (path : String) : Option String := do
  let name ← (components path).getLast?
  if name = ".." then none
  let parts := Text.split '.' name.toList
  if parts.length < 2 || (parts.length = 2 && parts.head? = some []) then none
  return String.ofList (← parts.getLast?)

def languageOf (path : String) : Language :=
  if extension? path = some "yaml" || extension? path = some "yml" then .yaml else .json

/-- The configuration of the file that the environment names, or else the one that
the environment describes. -/
def loadConfig (file? lookup : String → Option String) : Except Fault Config :=
  match lookup "CASCADE_CONFIG" with
  | some path =>
    match (file? path).map Config.ofText with
    | some (.ok config) => .ok config
    | _ => .error (.configuration (some path))
  | none =>
    let config := Config.ofEnvironment lookup
    config.validate.map (fun _ => config) |>.mapError fun _ => .configuration none

def loadFlow (file? : String → Option String) (path : String) : Except Fault Flow :=
  match file? path with
  | none => .error (.unreadableFlow path)
  | some source => (Flow.ofText (languageOf path) source).mapError fun _ => .invalidFlow path

/-- The bindings of a file; without a file there are none. -/
def loadBindings (file? : String → Option String) (path : Option String) :
    Except Fault (List (String × Json)) :=
  match path with
  | none => .ok []
  | some path =>
    match file? path with
    | none => .error (.unreadableBindings path)
    | some source =>
      match Json.parse? source with
      | none => .error (.invalidBindings path)
      | some (.obj fields) => .ok fields
      | some other => .error (.bindingsNotObject other)

/-! ## Runs -/

def echoWorld : World := ⟨.echo, none, .echo, .new (.empty []) .none, .silent⟩

def runFile (file? lookup : String → Option String) (flow : String) (bindings : Option String) :
    Except Fault RunResult := do
  let config ← loadConfig file? lookup
  let flow ← loadFlow file? flow
  let inputs ← loadBindings file? bindings
  let (token, engine) := (Engine.unchecked config echoWorld).newToken false none
  match engine.run flow inputs token with
  | some (result, _) => return result
  | none => throw .notRunnable

structure Report where
  exitCode : Nat
  outcome : Option (Except Fault RunResult)

def execute (file? lookup : String → Option String) (arguments : List String) : Report :=
  match parse? arguments with
  | none => ⟨2, none⟩
  | some .help | some .version => ⟨0, none⟩
  | some (.run flow bindings) =>
    match runFile file? lookup flow bindings with
    | .error fault => ⟨1, some (.error fault)⟩
    | .ok result => ⟨if result.isSuccess then 0 else 1, some (.ok result)⟩

end FlowEngine.CommandLine
