import FlowEngine.Failure
import FlowEngine.Flow.Basic
import FlowEngine.Target
import FlowEngine.Text.Blank

/-!
# Valid flows

A flow is refused when its name is blank, a step id is empty or used twice, a
retry policy allows no attempt, a step writes a name that no variable path can
reach, or a transaction lies in the body of another one. Steps are checked in
writing order and the first fault is reported.
-/
namespace FlowEngine

def reachable (name : String) : Bool := !name.isEmpty && !name.toList.contains '.'

namespace Flow

inductive Fault where
  | blankName
  | emptyId
  | duplicateId (id : String)
  | noAttempts (id : String)
  | unreachableName (id name : String)
  | nestedTransaction (id : String)
deriving DecidableEq

def Fault.toError : Fault → EngineError
  | blankName => .validation "Flow name must not be empty"
  | emptyId => .validation "Step id must not be empty"
  | duplicateId id => .validation s!"Duplicate step id: {id}"
  | noAttempts id => .validation s!"Step {id} declares a retry policy with zero attempts"
  | unreachableName id name => .validation s!"Step {id} binds unreachable name '{name}'"
  | nestedTransaction id =>
    .nestedTransaction s!"Transaction {id} is nested inside another transaction"

def writtenNames : Action → List String
  | .call _ spec => spec.bind.toList
  | .record _ spec => spec.bind.toList
  | .script _ bind => bind.toList
  | .choose _ arms _ => arms.filterMap fun (pattern, _) => match pattern with
    | .ok bind => bind
    | .err bind => bind
    | .literal _ => none
  | .repeatTimes _ counter _ => counter.toList
  | .repeatForEach _ binding index _ => binding.names ++ index.toList
  | .forEach _ binding _ _ _ => binding.names
  | _ => []

/-- The first name that an action writes and no path reaches. -/
def unreachable? (action : Action) : Option String :=
  match action with
  | .assign target _ _ => if reachable (Target.ofText target).name then none else some target
  | _ => (writtenNames action).find? fun name => !reachable name

/-- Checks a step without what is inside it. -/
def checkNode (s : Step) (seen : List String) : Except Fault (List String) :=
  if s.id.isEmpty then .error .emptyId
  else if seen.contains s.id then .error (.duplicateId s.id)
  else if (s.retry.map fun p => p.maxAttempts == 0) = some true then .error (.noAttempts s.id)
  else match unreachable? s.action with
    | some name => .error (.unreachableName s.id name)
    | none => .ok (s.id :: seen)

mutual
/-- Checks a step. `seen` are the ids of earlier steps, which are returned with
those of this one. -/
def checkStep : Step → Bool → List String → Except Fault (List String)
  | .mk id action retry timeout, inTransaction, seen => do
    let seen ← checkNode (.mk id action retry timeout) seen
    checkAction id action inTransaction seen

def checkAction (id : String) : Action → Bool → List String → Except Fault (List String)
  | .conditional branches otherwise, inside, seen => do
    checkOption otherwise inside (← checkBranches branches inside seen)
  | .choose _ arms otherwise, inside, seen => do
    checkOption otherwise inside (← checkArms arms inside seen)
  | .guard _ body, inside, seen => checkSequence body inside seen
  | .repeatTimes _ _ body, inside, seen => checkSequence body inside seen
  | .repeatForEach _ _ _ body, inside, seen => checkSequence body inside seen
  | .forEach _ _ body _ _, inside, seen => checkSequence body inside seen
  | .parallel branches _, inside, seen => checkParallel branches inside seen
  | .transaction body onError, inside, seen => do
    if inside then throw (.nestedTransaction id)
    checkOption onError false (← checkSequence body true seen)
  | .call _ _, _, seen => .ok seen
  | .record _ _, _, seen => .ok seen
  | .script _ _, _, seen => .ok seen
  | .assign _ _ _, _, seen => .ok seen

def checkSequence : List Step → Bool → List String → Except Fault (List String)
  | [], _, seen => .ok seen
  | s :: rest, inside, seen => do checkSequence rest inside (← checkStep s inside seen)

def checkOption : Option (List Step) → Bool → List String → Except Fault (List String)
  | none, _, seen => .ok seen
  | some body, inside, seen => checkSequence body inside seen

def checkBranches : List (Expr × List Step) → Bool → List String → Except Fault (List String)
  | [], _, seen => .ok seen
  | (_, body) :: rest, inside, seen => do
    checkBranches rest inside (← checkSequence body inside seen)

def checkArms : List (Pattern × List Step) → Bool → List String → Except Fault (List String)
  | [], _, seen => .ok seen
  | (_, body) :: rest, inside, seen => do checkArms rest inside (← checkSequence body inside seen)

def checkParallel : List (List Step × Option Expr) → Bool → List String →
    Except Fault (List String)
  | [], _, seen => .ok seen
  | (body, _) :: rest, inside, seen => do
    checkParallel rest inside (← checkSequence body inside seen)
end

def validate (f : Flow) : Except Fault Unit := do
  if Text.isBlank f.name then throw .blankName
  let seen ← checkSequence f.steps false []
  let _ ← checkOption f.onError false seen

end Flow
end FlowEngine
