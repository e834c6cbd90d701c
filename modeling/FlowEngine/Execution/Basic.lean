import FlowEngine.Boundary
import FlowEngine.Control
import FlowEngine.Program.Basic

/-!
# Programs that act on a scope chain

An `Exec` reads and changes the scope chain, performs effects, and ends with a
value or a failure. Changes of the scope chain stay when it fails.
-/
namespace FlowEngine

abbrev Exec (α : Type) : Type := ExceptT Failure (StateT Scope Program) α

namespace Exec

variable {α ε : Type}

def ask (e : Effect) : Exec e.Answer := ExceptT.lift (StateT.lift (Program.ask e))

/-- Runs a program and hands on what it ended with instead of failing. -/
def outcome (x : Exec α) : Exec (Except Failure α) := ExceptT.lift x.run

def ofResult (r : Except Failure α) : Exec α :=
  match r with
  | .ok a => return a
  | .error f => throw f

def ofExcept (toError : ε → EngineError) (r : Except ε α) : Exec α :=
  ofResult (r.mapError fun e => (toError e).toFailure)

def orFail (r : Except EngineError α) : Exec α := ofExcept id r

def decided (decision : Scope → Except Control.Fault α) : Exec α := do
  ofExcept Control.Fault.toError (decision (← get))

def evaluate (e : Expr) : Exec Json := decided (Control.evaluate e)

/-- Runs a program in a scope that a frame was opened for, and closes one frame
however the program ends. -/
def inFrame (enter : Scope → Scope) (body : Exec α) : Exec α := do
  modify enter
  let result ← body.outcome
  modify Scope.leave
  ofResult result

end Exec
end FlowEngine
