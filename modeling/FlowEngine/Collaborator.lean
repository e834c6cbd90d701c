import FlowEngine.Outcome

/-!
# Scripted collaborators

A collaborator answers calls by target. It keeps the calls made to it and the
largest number of calls that were in progress at once.
-/
namespace FlowEngine

inductive Reply where
  | echo
  | value (v : Json)
  | failure (kind : ErrorKind) (message : String)
  | failFirst (times : Nat) (value : Json)
  | delayed (ms : Nat) (reply : Reply)
deriving Inhabited

namespace Reply

def delay : Reply → Nat
  | delayed ms reply => ms + reply.delay
  | _ => 0

def outcome (target : String) (inputs : Json) (call : Nat) : Reply → Outcome
  | echo => .ok (.object [("target", .str target), ("inputs", inputs)])
  | value v => .ok v
  | failure kind message => .failed kind message
  | failFirst times v =>
    if call ≤ times then .failure s!"{target} failed on call {call}" else .ok v
  | delayed _ reply => reply.outcome target inputs call

end Reply

structure Call where
  target : String
  inputs : Json

structure Collaborator where
  replies : List (String × Reply)
  fallback : Reply
  calls : List Call
  inProgress : Nat
  /-- The largest number of calls that were in progress at once. -/
  peak : Nat

namespace Collaborator

def new (replies : List (String × Reply)) (fallback : Reply) : Collaborator :=
  ⟨replies, fallback, [], 0, 0⟩

def echo : Collaborator := new [] .echo

instance : Inhabited Collaborator := ⟨echo⟩

def reply (c : Collaborator) (target : String) : Reply :=
  (c.replies.lookup target).getD c.fallback

/-- Starts a call. Its answer is known at once and arrives after the delay. -/
def start (c : Collaborator) (target : String) (inputs : Json) : Nat × Outcome × Collaborator :=
  let number := (c.calls.filter fun call => call.target = target).length + 1
  let reply := c.reply target
  let inProgress := c.inProgress + 1
  (reply.delay, reply.outcome target inputs number,
    { c with
      calls := c.calls ++ [⟨target, inputs⟩]
      inProgress
      peak := max c.peak inProgress })

def finish (c : Collaborator) : Collaborator := { c with inProgress := c.inProgress - 1 }

end Collaborator
end FlowEngine
