import FlowEngine.Cancellation
import FlowEngine.Run.Result
import FlowEngine.Store.Scripted

/-!
# Effects

What a running step asks of the machine that runs it, and the type of the
machine's answer. An effect is plain data: a fan-out names its branches by their
steps and scopes, not by programs.
-/
namespace FlowEngine

/-- What the steps of one scope of cancellation share. -/
structure Context where
  run : Nat
  token : Token
  stepLimit : Option Millis

inductive Branch where
  | steps (ctx : Context) (scope : Scope) (body : List Step) (collect : Option Expr)
  | timed (observed : Option Token) (delay : Nat) (result : Except Failure Json)

inductive BranchOutcome where
  | completed (value : Json)
  | failed (error : Failure)
  | cancelled (error : Failure)

namespace BranchOutcome

def ofExcept : Except Failure Json → BranchOutcome
  | .ok value => completed value
  | .error f => if f.isCancellation then cancelled f else failed f

def isCompleted : BranchOutcome → Bool
  | completed _ => true
  | _ => false

/-- The envelope of an outcome, with the whole failure in it. -/
def envelope : BranchOutcome → Json
  | completed value => .obj [("ok", .bool true), ("value", value)]
  | failed f | cancelled f => .obj [("error", f.toJson), ("ok", .bool false)]

def toJson : BranchOutcome → Json
  | completed value => .object [("status", .str "completed"), ("value", value)]
  | failed f => .object [("status", .str "failed"), ("error", f.toJson)]
  | cancelled f => .object [("status", .str "cancelled"), ("error", f.toJson)]

end BranchOutcome

inductive Request where
  | call (route : Route) (target : String) (inputs : Json)
  | record (request : RecordRequest)

/-- The moment at which a cancelled request is given up. -/
inductive Interruption where
  | waiting
  | calling
deriving DecidableEq

def Interruption.failure : Interruption → Failure
  | waiting => .cancelled "cancelled while waiting for a concurrency permit"
  | calling => .cancelled "cancelled during collaborator call"

/-- What a program asks of the machine that runs it. -/
inductive Effect where
  | isCancelled (token : Token)
  | childToken (token : Token)
  | startDeadline (token : Token) (limit : Millis)
  | stopDeadline (deadline : Nat)
  | note (run : Nat) (entry : Entry)
  | startSpan (ctx : Context) (step : String)
  | endSpan (ctx : Context) (step : String) (status : StepStatus)
  /-- Sends a request under a permit of the run, unless the token is cancelled. -/
  | request (run : Nat) (token : Token) (request : Request)
  /-- Waits, and tells whether the time passed before the token was cancelled. -/
  | sleep (token : Option Token) (span : Nat)
  /-- Starts branches and waits for them. The first failure ends a fail-fast join;
  it cancels the group and leaves the unfinished branches to the run. -/
  | join (run : Nat) (policy : JoinPolicy) (group : Token) (branches : List Branch)
  | settle (run : Nat) (token : Option Token)
  | beginTransaction (ctx : Context)
  | releaseTransaction (run : Nat) (handle : String)
  | discardSnapshot (handle : String)
  | restoreSnapshot (handle : String)
  | acquireSlot
  | releaseSlot
  | openRun (flow : String) (parent : Token)
  | closeRun (run : Nat) (ending : Ending) (outputs : List (String × Json))
  | awaitRun (submission : Nat)

def Effect.Answer : Effect → Type
  | isCancelled _ => Bool
  | childToken _ => Token
  | startDeadline _ _ => Nat
  | stopDeadline _ => Bool
  | note _ _ => Unit
  | startSpan _ _ => Except EngineError Unit
  | endSpan _ _ _ => Except EngineError Unit
  | request _ _ _ => Except Interruption Outcome
  | sleep _ _ => Bool
  | join _ _ _ _ => Except Failure (List BranchOutcome)
  | settle _ _ => Except Failure Nat
  | beginTransaction _ => Except EngineError String
  | releaseTransaction _ _ => Except EngineError Unit
  | discardSnapshot _ => Except EngineError Unit
  | restoreSnapshot _ => Except EngineError Unit
  | acquireSlot => Unit
  | releaseSlot => Unit
  | openRun _ _ => Nat × Token
  | closeRun _ _ _ => RunResult
  | awaitRun _ => RunResult

end FlowEngine
