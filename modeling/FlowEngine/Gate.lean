/-!
# Admission gates

A gate has a fixed number of permits. Whoever finds none free waits in line, and
a released permit goes to the one that waited longest. A permit that was handed
to a waiter is not free, also before the waiter takes it.
-/
namespace FlowEngine

structure Gate (ι : Type) where
  size : Nat
  free : Nat
  waiting : List ι
  granted : List ι

namespace Gate

variable {ι : Type} [DecidableEq ι]

def new (size : Nat) : Gate ι := ⟨size, size, [], []⟩

def tryAcquire? (g : Gate ι) : Option (Gate ι) :=
  if g.free = 0 then none else some { g with free := g.free - 1 }

def enqueue (g : Gate ι) (i : ι) : Gate ι := { g with waiting := g.waiting ++ [i] }

def claim? (g : Gate ι) (i : ι) : Option (Gate ι) :=
  if i ∈ g.granted then some { g with granted := g.granted.erase i } else none

/-- Gives a permit back. The one that waited longest is returned with it. -/
def release (g : Gate ι) : Gate ι × Option ι :=
  match g.waiting with
  | [] => ({ g with free := g.free + 1 }, none)
  | i :: rest => ({ g with waiting := rest, granted := g.granted ++ [i] }, some i)

/-- Leaves the line; a permit that was handed over already is passed on. -/
def withdraw (g : Gate ι) (i : ι) : Gate ι × Option ι :=
  match g.claim? i with
  | some g => g.release
  | none => ({ g with waiting := g.waiting.erase i }, none)

end Gate
end FlowEngine
