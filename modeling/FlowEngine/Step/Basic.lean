import FlowEngine.Expr.Basic

/-!
# Steps

A flow is an ordered tree of steps. A step names itself, says what it does, and
may carry a retry policy around its attempts and a deadline for each of them.
-/
namespace FlowEngine

/-- A span of time in milliseconds. -/
abbrev Millis := UInt64

inductive Route where
  | model
  | agent
  | tool
deriving DecidableEq, Repr

structure CallSpec where
  target : String
  inputs : List (String × Expr)
  bind : Option String
  capture : Bool

inductive RecordOp where
  | create
  | update
  | delete
  | query
deriving DecidableEq, Repr

structure RecordSpec where
  record : String
  payload : Option Expr
  filter : Option Expr
  bind : Option String
  capture : Bool

/-- What an arm of a match accepts. -/
inductive Pattern where
  | literal (value : Json)
  | ok (bind : Option String)
  | err (bind : Option String)

/-- The names that one element of a collection is bound to. -/
inductive LoopBinding where
  | single (name : String)
  | destructure (names : List String)
deriving DecidableEq

/-- What the failure of one branch does to its siblings. -/
inductive JoinPolicy where
  | waitAll
  | failFast
deriving DecidableEq, Repr

inductive Backoff where
  | fixed (delay : Millis)
  | linear (delay : Millis)
  | exponential (initial : Millis) (multiplier : Float) (limit : Option Millis)

structure RetryPolicy where
  maxAttempts : UInt32
  backoff : Backoff
  /-- Whether an attempt that ran past its deadline is repeated. -/
  retryOnTimeout : Bool

mutual
inductive Step where
  | mk (id : String) (action : Action) (retry : Option RetryPolicy) (timeout : Option Millis)

inductive Action where
  | call (route : Route) (spec : CallSpec)
  | record (op : RecordOp) (spec : RecordSpec)
  | script (expr : Expr) (bind : Option String)
  /-- Assigns to a name or a flow-wide field, or declares a name in the innermost frame. -/
  | assign (target : String) (value : Expr) (declare : Bool)
  | conditional (branches : List (Expr × List Step)) (otherwise : Option (List Step))
  | choose (subject : Expr) (arms : List (Pattern × List Step)) (otherwise : Option (List Step))
  /-- Leaves the enclosing sequence after the body unless the condition holds. -/
  | guard (condition : Expr) (body : List Step)
  | repeatTimes (count : Expr) (counter : Option String) (body : List Step)
  | repeatForEach (collection : Expr) (binding : LoopBinding) (index : Option String)
      (body : List Step)
  /-- One concurrent branch for each element of a collection. -/
  | forEach (collection : Expr) (binding : LoopBinding) (body : List Step) (join : JoinPolicy)
      (collect : Option Expr)
  /-- Concurrent branches, each with an expression for its result. -/
  | parallel (branches : List (List Step × Option Expr)) (join : JoinPolicy)
  /-- A body whose record changes are undone when it fails. -/
  | transaction (body : List Step) (onError : Option (List Step))
end

instance : Inhabited Action := ⟨.script (.literal .null) none⟩
instance : Inhabited Step := ⟨.mk "" default none none⟩

namespace Step

def id : Step → String
  | mk id _ _ _ => id

def action : Step → Action
  | mk _ action _ _ => action

def retry : Step → Option RetryPolicy
  | mk _ _ retry _ => retry

def timeout : Step → Option Millis
  | mk _ _ _ timeout => timeout

end Step

namespace Action

def kind : Action → String
  | call .model _ => "ai-call"
  | call .agent _ => "agent-call"
  | call .tool _ => "tool-call"
  | script _ _ => "script"
  | assign _ _ _ => "set-variable"
  | record .create _ => "db-create"
  | record .update _ => "db-update"
  | record .delete _ => "db-delete"
  | record .query _ => "db-query"
  | conditional _ _ => "conditional"
  | choose _ _ _ => "match"
  | guard _ _ => "guard"
  | repeatTimes _ _ _ => "repeat-times"
  | repeatForEach _ _ _ _ => "repeat-for-each"
  | forEach _ _ _ _ _ => "for-each"
  | parallel _ _ => "parallel"
  | transaction _ _ => "transaction"

/-- Whether a step of this kind waits for a collaborator or the record store. -/
def isExternal : Action → Bool
  | call _ _ | record _ _ => true
  | _ => false

def children : Action → List (List Step)
  | conditional branches otherwise => branches.map Prod.snd ++ otherwise.toList
  | choose _ arms otherwise => arms.map Prod.snd ++ otherwise.toList
  | guard _ body | repeatTimes _ _ body | repeatForEach _ _ _ body | forEach _ _ body _ _ => [body]
  | parallel branches _ => branches.map Prod.fst
  | transaction body onError => body :: onError.toList
  | _ => []

end Action

namespace Step

def kind (s : Step) : String := s.action.kind

def isExternal (s : Step) : Bool := s.action.isExternal

def children (s : Step) : List (List Step) := s.action.children

mutual
/-- A step and all steps inside it, in the order in which they are written. -/
def nodes : Step → List Step
  | mk id action retry timeout => mk id action retry timeout :: actionNodes action

def actionNodes : Action → List Step
  | .conditional branches otherwise => branchNodes branches ++ optionNodes otherwise
  | .choose _ arms otherwise => armNodes arms ++ optionNodes otherwise
  | .guard _ body => sequenceNodes body
  | .repeatTimes _ _ body => sequenceNodes body
  | .repeatForEach _ _ _ body => sequenceNodes body
  | .forEach _ _ body _ _ => sequenceNodes body
  | .parallel branches _ => parallelNodes branches
  | .transaction body onError => sequenceNodes body ++ optionNodes onError
  | .call _ _ => []
  | .record _ _ => []
  | .script _ _ => []
  | .assign _ _ _ => []

def sequenceNodes : List Step → List Step
  | [] => []
  | s :: rest => s.nodes ++ sequenceNodes rest

def optionNodes : Option (List Step) → List Step
  | none => []
  | some body => sequenceNodes body

def branchNodes : List (Expr × List Step) → List Step
  | [] => []
  | (_, body) :: rest => sequenceNodes body ++ branchNodes rest

def armNodes : List (Pattern × List Step) → List Step
  | [] => []
  | (_, body) :: rest => sequenceNodes body ++ armNodes rest

def parallelNodes : List (List Step × Option Expr) → List Step
  | [] => []
  | (body, _) :: rest => sequenceNodes body ++ parallelNodes rest
end

end Step
end FlowEngine
