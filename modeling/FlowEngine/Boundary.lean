import FlowEngine.Scope

/-!
# Error boundaries

A boundary hands a failure to a sequence of steps. It belongs to a flow or to a
transaction and is named after its owner. Cancellation passes through it.
-/
namespace FlowEngine.Boundary

def errorName : String := "error"

def intercepts (f : Failure) : Bool := !f.isCancellation

def enter (f : Failure) (s : Scope) : Scope :=
  (s.push .step).declareLocal errorName f.toJson

/-- The failure that is handled or escapes. That of a handler escapes; unless it
is a cancellation or has a cause of its own, the handled one becomes its cause. -/
def resolve (f : Failure) (handler : Except Failure Unit) : Except Failure Failure :=
  match handler with
  | .ok () => .ok f
  | .error g =>
    if g.cause.isNone && !g.isCancellation then .error (g.causedBy f) else .error g

end FlowEngine.Boundary
