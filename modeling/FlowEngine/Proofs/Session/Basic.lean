import FlowEngine.Engine
import FlowEngine.Proofs.Program.History
import FlowEngine.Proofs.Store.Snapshots

/-!
# Sessions

A session is everything that happens on one machine: runs that are awaited, runs
that are submitted, tokens that are cancelled, and the steps of all tasks in
between. `Session` collects the systems that can come about, each with the log of
what happened; `System.Reaches` is the part of a session between two systems.
-/
namespace FlowEngine

/-! ## Tasks -/

/-- What a task ends with. -/
abbrev TaskId.Result : TaskId → Type
  | .main => RunResult
  | .branch _ => Except Failure Json
  | .submission _ => RunResult

def System.task? (s : System RunResult) : (t : TaskId) → Option (TaskState t.Result)
  | .main => some s.main
  | .branch number => s.machine.branches[number]?.map Task.state
  | .submission number => s.machine.submissions[number]?.map Task.state

/-- A task has come to a program. -/
def System.At (s : System RunResult) (t : TaskId) (p : Program t.Result) : Prop :=
  ∃ wait, s.task? t = some (.active p wait)

/-! ## What happens -/

structure Poll where
  task : TaskId
  effect : Effect
  answer : Option effect.Answer
  before : Machine
  after : Machine

/-- Something that happens in a session. -/
inductive Occurrence where
  | errand
  | poll (x : Poll)
  | ended (t : TaskId)

def deedsOf (t : TaskId) : List Occurrence → List Deed
  | [] => []
  | .errand :: rest => if t = .main then [] else deedsOf t rest
  | .ended _ :: rest => deedsOf t rest
  | .poll ⟨task, e, some a, _, _⟩ :: rest =>
    if task = t then ⟨e, a⟩ :: deedsOf t rest else deedsOf t rest
  | .poll ⟨_, _, none, _, _⟩ :: rest => deedsOf t rest

namespace Machine

def pollOf (m : Machine) (t : TaskId) (wait : Wait) (e : Effect) : Poll :=
  match m.poll t wait e with
  | .answered a after => ⟨t, e, some a, m, after⟩
  | .waiting _ after => ⟨t, e, none, m, after⟩

end Machine

namespace System

def occurrences (s : System RunResult) : List Occurrence :=
  match s.machine.running with
  | none => []
  | some t =>
    match s.task? t with
    | some (.active (.perform e _) wait) => [.poll (s.machine.pollOf t wait e)]
    | some (.active (.pure _) _) => [.ended t]
    | _ => []

inductive Errand (config : Config) : Program RunResult → Prop where
  | run (flow : Flow) (inputs : List (String × Json)) (token : Token) :
      Errand config (Execution.run config flow inputs token)
  | await (submission : Nat) : Errand config (Program.ask (.awaitRun submission))

def Idle (s : System RunResult) : Prop :=
  (∃ result order, s.main = .ended result order) ∧ s.machine.running = none

inductive Moves (config : Config) : System RunResult → List Occurrence → System RunResult → Prop where
  | step {s s' : System RunResult} (h : s.step? = some s') : Moves config s s.occurrences s'
  | newToken {s : System RunResult} (h : s.Idle) :
      Moves config s [] { s with machine := s.machine.newToken.2 }
  | cancel {s : System RunResult} (h : s.Idle) (token : Token) :
      Moves config s [] { s with machine := s.machine.cancel token }
  | cancelAfter {s : System RunResult} (h : s.Idle) (span : Nat) (token : Token) :
      Moves config s [] { s with machine := (s.machine.schedule span (.cancel token)).2 }
  | submit {s : System RunResult} (h : s.Idle) (flow : Flow) (inputs : List (String × Json))
      (token : Token) :
      Moves config s []
        { s with machine := (s.machine.submit (Execution.submitted config flow inputs token)).2 }
  | start {s : System RunResult} (h : s.Idle) {p : Program RunResult} (errand : Errand config p) :
      Moves config s [.errand] (start s.machine p)

/-- The part of a session between two systems, with what happens in it. -/
inductive Reaches (config : Config) (s : System RunResult) :
    List Occurrence → System RunResult → Prop where
  | refl : Reaches config s [] s
  | move {log more : List Occurrence} {t u : System RunResult} (before : Reaches config s log t)
      (move : Moves config t more u) : Reaches config s (log ++ more) u

/-- A machine that nothing was run on. Whoever used its store before took every
snapshot that is open. -/
inductive Initial (config : Config) : System RunResult → Prop where
  | new (world : World) (numbered : world.store.store.Numbered) :
      Initial config ⟨.new config world, .ended default 0⟩

end System

/-- The systems of a session with what happened so far. -/
def Session (config : Config) (log : List Occurrence) (s : System RunResult) : Prop :=
  ∃ s₀, System.Initial config s₀ ∧ s₀.Reaches config log s

end FlowEngine
