import FlowEngine.Execution.Step
import FlowEngine.Machine.Basic

/-!
# Answers to effects

`Machine.poll` carries an effect of a task as far as it goes now. It is either
answered or has to wait; then the task is polled again when something that it
waits for has happened. Whatever waits under a token looks at the token first.
-/
namespace FlowEngine

inductive Polled (α : Type) where
  | answered (answer : α) (m : Machine)
  | waiting (wait : Wait) (m : Machine)

namespace Machine

/-! ## Requests -/

def releasePermit (m : Machine) (run : Nat) : Machine :=
  match m.runs[run]? with
  | none => m
  | some r =>
    let (gate, next) := r.gate.release
    (m.modifyRun run fun r => { r with gate }).wakeIfSome next

def withdraw (m : Machine) (run : Nat) (me : TaskId) : Machine :=
  match m.runs[run]? with
  | none => m
  | some r =>
    let (gate, next) := r.gate.withdraw me
    (m.modifyRun run fun r => { r with gate }).wakeIfSome next

def setGate (m : Machine) (run : Nat) (gate : Gate TaskId) : Machine :=
  m.modifyRun run fun r => { r with gate }

/-- Ends a call on the side of its collaborator; a record operation has none. -/
def hangUp (m : Machine) : Request → Machine
  | .call route _ _ =>
    m.modifyWorld fun w => setCollaborator w route (collaborator w route).finish
  | .record _ => m

def operate (m : Machine) (request : RecordRequest) : Outcome × Machine :=
  let (outcome, store) := m.world.store.perform request
  (outcome, m.setStore store)

def answerRequest (m : Machine) (me : TaskId) (run : Nat) (request : Request) (outcome : Outcome) :
    Polled (Except Interruption Outcome) :=
  .answered (.ok outcome) (((m.hangUp request).forget me).releasePermit run)

def startRequest (m : Machine) (me : TaskId) (run : Nat) (token : Token) (request : Request) :
    Polled (Except Interruption Outcome) :=
  let m := m.forget me
  match request with
  | .call route target inputs =>
    let (delay, outcome, c) := (collaborator m.world route).start target inputs
    let m := m.modifyWorld fun w => setCollaborator w route c
    if delay = 0 then m.answerRequest me run request outcome
    else
      let (timer, m) := m.schedule delay (.wake me)
      .waiting (.call timer outcome) (m.observe token me)
  | .record operation =>
    let delay := m.world.store.delay operation.op
    if delay = 0 then
      let (outcome, m) := m.operate operation
      m.answerRequest me run request outcome
    else
      let (timer, m) := m.schedule delay (.wake me)
      .waiting (.operation timer) (m.observe token me)

def abandonRequest (m : Machine) (me : TaskId) (run : Nat) (request : Request) (timer : Nat) :
    Polled (Except Interruption Outcome) :=
  .answered (.error .calling)
    ((((m.stopTimer timer).hangUp request).forget me).releasePermit run)

def pollRequest (m : Machine) (me : TaskId) (run : Nat) (token : Token) (request : Request) :
    Wait → Polled (Except Interruption Outcome)
  | .permit =>
    if m.isCancelled token then
      .answered (.error .waiting) ((m.withdraw run me).forget me)
    else match m.runs[run]?.bind fun r => r.gate.claim? me with
      | some gate => (m.setGate run gate).startRequest me run token request
      | none => .waiting .permit m
  | .call timer outcome =>
    if m.isCancelled token then m.abandonRequest me run request timer
    else if m.isPending timer then .waiting (.call timer outcome) m
    else m.answerRequest me run request outcome
  | .operation timer =>
    if m.isCancelled token then m.abandonRequest me run request timer
    else if m.isPending timer then .waiting (.operation timer) m
    else match request with
      | .record operation =>
        let (outcome, m) := m.operate operation
        m.answerRequest me run request outcome
      | .call _ _ _ => .waiting (.operation timer) m
  | _ =>
    if m.isCancelled token then .answered (.error .waiting) m
    else match m.runs[run]? with
      | none => .answered (.error .waiting) m
      | some r =>
        match r.gate.tryAcquire? with
        | some gate => (m.setGate run gate).startRequest me run token request
        | none => .waiting .permit ((m.setGate run (r.gate.enqueue me)).observe token me)

/-! ## Waiting for time -/

def interrupts (m : Machine) (token : Option Token) : Bool :=
  match token with
  | none => false
  | some t => m.isCancelled t

def pollSleep (m : Machine) (me : TaskId) (token : Option Token) (span : Nat) :
    Wait → Polled Bool
  | .timer timer =>
    if m.interrupts token then .answered false ((m.stopTimer timer).forget me)
    else if m.isPending timer then .waiting (.timer timer) m
    else .answered true (m.forget me)
  | _ =>
    if m.interrupts token then .answered false m
    else if span = 0 then .answered true m
    else
      let (timer, m) := m.schedule span (.wake me)
      match token with
      | none => .waiting (.timer timer) m
      | some t => .waiting (.timer timer) (m.observe t me)

/-! ## Joins -/

def earlier (first : Option (Failure × Nat)) :
    Option (Except Failure Json × Nat) → Option (Failure × Nat)
  | some (.error f, order) =>
    match first with
    | none => some (f, order)
    | some (_, least) => if order < least then some (f, order) else first
  | _ => first

def firstFailure? (m : Machine) (tasks : List Nat) : Option (Failure × Nat) :=
  tasks.foldl (fun first task => earlier first (m.branchResult? task)) none

def endedAfter (m : Machine) (order : Nat) (task : Nat) : Bool :=
  match m.branchResult? task with
  | some (_, other) => order < other
  | none => true

/-- The outcomes of branches, unless one of them has not ended. -/
def outcomes? (m : Machine) (tasks : List Nat) : Option (List BranchOutcome) :=
  tasks.mapM fun task => (m.branchResult? task).map fun (result, _) => .ofExcept result

def gather (m : Machine) (tasks : List Nat) : Polled (Except Failure (List BranchOutcome)) :=
  match m.outcomes? tasks with
  | some outcomes => .answered (.ok outcomes) m
  | none => .waiting (.branches tasks) m

def checkJoin (m : Machine) (run : Nat) (policy : JoinPolicy) (group : Token) (tasks : List Nat) :
    Polled (Except Failure (List BranchOutcome)) :=
  match policy, m.firstFailure? tasks with
  | .failFast, some (f, order) =>
    let left := tasks.filter (m.endedAfter order)
    .answered (.error f) (((m.cancel group).setWaiters none left).adopt run left)
  | _, _ => m.gather tasks

def pollJoin (m : Machine) (me : TaskId) (run : Nat) (policy : JoinPolicy) (group : Token)
    (branches : List Branch) : Wait → Polled (Except Failure (List BranchOutcome))
  | .branches tasks => m.checkJoin run policy group tasks
  | _ =>
    let (tasks, m) := m.spawn (branches.map Branch.program)
    if tasks.isEmpty then .answered (.ok []) m
    else .waiting (.branches tasks) (m.setWaiters (some me) tasks)

/-! ## Settling -/

/-- What became of a list of branches that are waited for. -/
inductive Settling where
  | settled (count : Nat) (m : Machine)
  /-- The wait was cancelled; those not waited for are left to the run again. -/
  | interrupted (m : Machine)
  | waiting (tasks : List Nat) (count : Nat) (m : Machine)

def settleList (me : TaskId) (run : Nat) (token : Option Token) :
    List Nat → Nat → Machine → Settling
  | [], count, m => .settled count m
  | task :: rest, count, m =>
    if m.interrupts token then
      .interrupted (((m.forget me).setWaiter none task).adopt run (task :: rest))
    else if (m.branchResult? task).isSome then
      settleList me run token rest (count + 1) (m.forget me)
    else
      let m := m.setWaiter (some me) task
      .waiting (task :: rest) count (match token with
        | none => m
        | some t => m.observe t me)

def settleInterrupted : Failure := .cancelled "cancelled while waiting for abandoned branches"

def settleRun (m : Machine) (me : TaskId) (run : Nat) (token : Option Token) (tasks : List Nat)
    (count : Nat) : Settling :=
  match settleList me run token tasks count m with
  | .settled count m =>
    let (more, m) := m.takeStragglers run
    settleList me run token more count m
  | settling => settling

def pollSettle (m : Machine) (me : TaskId) (run : Nat) (token : Option Token) (wait : Wait) :
    Polled (Except Failure Nat) :=
  let (tasks, count) := match wait with
    | .stragglers tasks count => (tasks, count)
    | _ => ([], 0)
  match m.settleRun me run token tasks count with
  | .settled count m => .answered (.ok count) m
  | .interrupted m => .answered (.error settleInterrupted) m
  | .waiting tasks count m => .waiting (.stragglers tasks count) m

/-! ## Transactions -/

def storeAnswer (m : Machine) (r : Except EngineError ScriptedStore) :
    Polled (Except EngineError Unit) :=
  match r with
  | .ok store => .answered (.ok ()) (m.setStore store)
  | .error e => .answered (.error e) m

def setSlot (m : Machine) (run : Nat) (slot : TransactionSlot) : Machine :=
  m.modifyRun run fun r => { r with slot }

def beginTransaction (m : Machine) (run : Nat) : Polled (Except EngineError String) :=
  let slot := m.runs[run]?.elim .empty ActiveRun.slot
  match slot.begin m.world.store with
  | .ok (handle, slot, store) => .answered (.ok handle) ((m.setSlot run slot).setStore store)
  | .error e => .answered (.error e) m

def releaseTransaction (m : Machine) (run : Nat) (handle : String) :
    Polled (Except EngineError Unit) :=
  let slot := m.runs[run]?.elim .empty ActiveRun.slot
  match slot.release handle with
  | .ok slot => .answered (.ok ()) (m.setSlot run slot)
  | .error e => .answered (.error e) m

/-! ## Submitted runs -/

def pollSlot (m : Machine) (me : TaskId) : Wait → Polled Unit
  | .slot =>
    match m.slots.claim? me with
    | some slots => .answered () { m with slots }
    | none => .waiting .slot m
  | _ =>
    match m.slots.tryAcquire? with
    | some slots => .answered () { m with slots }
    | none => .waiting .slot { m with slots := m.slots.enqueue me }

def releaseSlot (m : Machine) : Machine :=
  let (slots, next) := m.slots.release
  { m with slots }.wakeIfSome next

def pollRun (m : Machine) (me : TaskId) (submission : Nat) : Polled RunResult :=
  match m.submissions[submission]?.bind fun task => task.state.result? with
  | some (result, _) => .answered result m
  | none =>
    let submissions := m.submissions.modify submission fun task => { task with waiter := some me }
    .waiting .submission { m with submissions }

def closeRun (m : Machine) (run : Nat) (ending : Ending) (outputs : List (String × Json)) :
    RunResult × Machine :=
  match m.runs[run]? with
  | none => (default, m)
  | some r =>
    let journal := r.journal.finish ending
    (journal.result run ending outputs, m.modifyRun run fun r => { r with journal })

/-! ## All effects -/

/-- Carries an effect of a task as far as it goes now. -/
def poll (m : Machine) (me : TaskId) (wait : Wait) : (e : Effect) → Polled e.Answer
  | .isCancelled token => .answered (m.isCancelled token) m
  | .childToken token =>
    let (child, m) := m.childToken token
    .answered child m
  | .startDeadline token limit =>
    let (timer, m) := m.schedule limit.toNat (.cancel token)
    .answered timer m
  | .stopDeadline deadline => .answered (!m.isPending deadline) (m.stopTimer deadline)
  | .note run entry => .answered () (m.note run entry)
  | .startSpan ctx step =>
    let (answer, m) := m.mark ctx.run step none
    .answered answer m
  | .endSpan ctx step status =>
    let (answer, m) := m.mark ctx.run step (some status)
    .answered answer m
  | .request run token request => m.pollRequest me run token request wait
  | .sleep token span => m.pollSleep me token span wait
  | .join run policy group branches => m.pollJoin me run policy group branches wait
  | .settle run token => m.pollSettle me run token wait
  | .beginTransaction ctx => m.beginTransaction ctx.run
  | .releaseTransaction run handle => m.releaseTransaction run handle
  | .discardSnapshot handle => m.storeAnswer (m.world.store.discard handle)
  | .restoreSnapshot handle => m.storeAnswer (m.world.store.restore handle)
  | .acquireSlot => m.pollSlot me wait
  | .releaseSlot => .answered () m.releaseSlot
  | .openRun flow parent =>
    let (opened, m) := m.openRun flow parent
    .answered opened m
  | .closeRun run ending outputs =>
    let (result, m) := m.closeRun run ending outputs
    .answered result m
  | .awaitRun submission => m.pollRun me submission

end Machine
end FlowEngine
