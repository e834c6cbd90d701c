import FlowEngine.Proofs.Machine.Outline
import Mathlib.Data.List.Forall2
import Mathlib.Data.List.Induction

/-!
# What a poll can do

`Machine.Requests` and `Machine.Sleeps` say case by case what the poll of a request and that of a
wait for time can come to, so that a proof about one of them goes by these cases.

`Outline.Polls` says once, effect by effect, how a poll can be answered and what
becomes of the outline. Whatever depends on queues, timers or permits is left open.
-/
namespace FlowEngine

inductive Turn (α : Type) where
  | answered (answer : α)
  | waiting (wait : Wait)

def Turn.answer? {α : Type} : Turn α → Option α
  | answered a => some a
  | waiting _ => none

theorem Turn.eq_answered {α : Type} {turn : Turn α} {a : α} (h : turn.answer? = some a) :
    turn = .answered a := by
  cases turn with
  | answered b => rw [Option.some.inj h]
  | waiting wait => cases h

namespace Polled

variable {α : Type}

def turn : Polled α → Turn α
  | answered a _ => .answered a
  | waiting w _ => .waiting w

def machine : Polled α → Machine
  | answered _ m => m
  | waiting _ m => m

end Polled

def Wait.isCall : Wait → Bool
  | call _ _ => true
  | _ => false

def Wait.pending : Wait → List Nat
  | stragglers tasks _ => tasks
  | _ => []

/-! ## Requests and waits for time, case by case -/

def Wait.asked : Wait → Bool
  | permit | call _ _ | operation _ => true
  | _ => false

def Wait.awaited? : Wait → Option Nat
  | call n _ | operation n => some n
  | _ => none

theorem Wait.awaited?_of_not_asked {w : Wait} (h : w.asked = false) : w.awaited? = none := by
  cases w with
  | call | operation => cases h
  | _ => rfl

namespace Machine

section

variable (m : Machine) (me : TaskId) (run : Nat) (token : Token) (request : Request)

/-- How a request that holds a permit begins. It reaches nothing of the world that spans are written
to. It is answered at once, or it waits for a timer of its own. -/
inductive Begins : Polled (Except Interruption Outcome) → Prop where
  | answers {f : World → World} (sink : ∀ w, (f w).sink = w.sink) (outcome : Outcome) :
      Begins (((m.forget me).modifyWorld f).answerRequest me run request outcome)
  | calls {f : World → World} (sink : ∀ w, (f w).sink = w.sink) {route : Route} {target : String}
      {inputs : Json} (call : request = .call route target inputs) (span : Nat) (outcome : Outcome) :
      Begins (.waiting (.call m.next outcome)
        ((((m.forget me).modifyWorld f).schedule span (.wake me)).2.observe token me))
  | operates {operation : RecordRequest} (record : request = .record operation) (span : Nat) :
      Begins (.waiting (.operation m.next)
        (((m.forget me).schedule span (.wake me)).2.observe token me))

inductive Requests : Wait → Polled (Except Interruption Outcome) → Prop where
  /-- It is given up before it has begun: it has no run, or its token is cancelled. -/
  | refused {w : Wait} (first : w.asked = false)
      (why : m.isCancelled token = false → m.runs[run]? = none) :
      Requests w (.answered (.error .waiting) m)
  | leaves (cancelled : m.isCancelled token = true) :
      Requests .permit (.answered (.error .waiting) ((m.withdraw run me).forget me))
  | abandoned {w : Wait} {timer : Nat} (awaited : w.awaited? = some timer)
      (cancelled : m.isCancelled token = true) :
      Requests w (m.abandonRequest me run request timer)
  | starts {w : Wait} {r : ActiveRun} {gate : Gate TaskId} (valid : m.isCancelled token = false)
      (there : m.runs[run]? = some r)
      (taken : w = .permit ∧ r.gate.claim? me = some gate ∨
        w.asked = false ∧ r.gate.tryAcquire? = some gate) :
      Requests w ((m.setGate run gate).startRequest me run token request)
  | queues {w : Wait} {r : ActiveRun} (first : w.asked = false)
      (valid : m.isCancelled token = false) (there : m.runs[run]? = some r)
      (full : r.gate.tryAcquire? = none) :
      Requests w (.waiting .permit ((m.setGate run (r.gate.enqueue me)).observe token me))
  | queued (valid : m.isCancelled token = false)
      (nothing : ∀ r, m.runs[run]? = some r → r.gate.claim? me = none) :
      Requests .permit (.waiting .permit m)
  | waits {w : Wait} {timer : Nat} (awaited : w.awaited? = some timer)
      (valid : m.isCancelled token = false) (pending : m.isPending timer = true) :
      Requests w (.waiting w m)
  | replied {timer : Nat} {outcome : Outcome} (valid : m.isCancelled token = false)
      (fired : m.isPending timer = false) :
      Requests (.call timer outcome) (m.answerRequest me run request outcome)
  | performed {timer : Nat} {operation : RecordRequest} (record : request = .record operation)
      (valid : m.isCancelled token = false) (fired : m.isPending timer = false) :
      Requests (.operation timer)
        ((m.operate operation).2.answerRequest me run request (m.operate operation).1)
  | unsuited {timer : Nat} {route : Route} {target : String} {inputs : Json}
      (call : request = .call route target inputs) (valid : m.isCancelled token = false) :
      Requests (.operation timer) (.waiting (.operation timer) m)

end

inductive Sleeps (m : Machine) (me : TaskId) (token : Option Token) (span : Nat) :
    Wait → Polled Bool → Prop where
  | refused {w : Wait} (first : ∀ timer, w ≠ .timer timer) (cut : m.interrupts token = true) :
      Sleeps m me token span w (.answered false m)
  | interrupted {timer : Nat} (cut : m.interrupts token = true) :
      Sleeps m me token span (.timer timer) (.answered false ((m.stopTimer timer).forget me))
  | instant {w : Wait} (first : ∀ timer, w ≠ .timer timer) (valid : m.interrupts token = false)
      (short : span = 0) : Sleeps m me token span w (.answered true m)
  | starts {w : Wait} (first : ∀ timer, w ≠ .timer timer) (valid : m.interrupts token = false)
      (long : span ≠ 0) :
      Sleeps m me token span w (.waiting (.timer m.next)
        (token.elim (m.schedule span (.wake me)).2 ((m.schedule span (.wake me)).2.observe · me)))
  | waits {timer : Nat} (valid : m.interrupts token = false) (pending : m.isPending timer = true) :
      Sleeps m me token span (.timer timer) (.waiting (.timer timer) m)
  | woken {timer : Nat} (valid : m.interrupts token = false) (fired : m.isPending timer = false) :
      Sleeps m me token span (.timer timer) (.answered true (m.forget me))

variable (m : Machine) (me : TaskId)

theorem sink_setCollaborator (w : World) (route : Route) (c : Collaborator) :
    (setCollaborator w route c).sink = w.sink := by
  cases route with
  | agent =>
      unfold setCollaborator
      dsimp only
      split <;> rfl
  | _ => rfl

theorem startRequest_begins (run : Nat) (token : Token) (request : Request) :
    m.Begins me run token request (m.startRequest me run token request) := by
  unfold startRequest
  cases request with
  | call route target inputs =>
      dsimp only
      split
      · exact .answers (fun w => sink_setCollaborator w route _) _
      · exact .calls (fun w => sink_setCollaborator w route _) rfl _ _
  | record operation =>
      dsimp only
      split
      · have hsink (w : World) : ({ w with store :=
            ((m.forget me).world.store.perform operation).2 } : World).sink = w.sink := rfl
        exact .answers hsink _
      · exact .operates rfl _

theorem pollRequest_requests (run : Nat) (token : Token) (request : Request) (wait : Wait) :
    m.Requests me run token request wait (m.pollRequest me run token request wait) := by
  unfold pollRequest
  cases hc : m.isCancelled token with
  | true =>
      cases wait with
      | permit => exact .leaves hc
      | call timer outcome => exact .abandoned rfl hc
      | operation timer => exact .abandoned rfl hc
      | _ => exact .refused rfl (by simp [hc])
  | false =>
      simp only [Bool.false_eq_true, if_false]
      cases wait with
      | permit =>
          dsimp only
          split
          · rename_i gate hgate
            obtain ⟨r, hr, hclaim⟩ := Option.bind_eq_some_iff.mp hgate
            exact .starts hc hr (Or.inl ⟨rfl, hclaim⟩)
          · rename_i hnone
            exact .queued hc fun r hr => by simpa [hr] using hnone
      | call timer outcome =>
          dsimp only
          split
          · exact .waits rfl hc ‹_›
          · exact .replied hc (eq_false_of_ne_true ‹_›)
      | operation timer =>
          dsimp only
          split
          · exact .waits rfl hc ‹_›
          · cases request with
            | call route target inputs => exact .unsuited rfl hc
            | record operation => exact .performed rfl hc (eq_false_of_ne_true ‹_›)
      | _ =>
          dsimp only
          split
          · exact .refused rfl fun _ => ‹_›
          · split
            · exact .starts hc ‹_› (Or.inr ⟨rfl, ‹_›⟩)
            · exact .queues rfl hc ‹_› ‹_›

theorem pollSleep_sleeps (token : Option Token) (span : Nat) (wait : Wait) :
    m.Sleeps me token span wait (m.pollSleep me token span wait) := by
  unfold pollSleep
  cases hi : m.interrupts token with
  | true =>
      cases wait with
      | timer timer => exact .interrupted hi
      | _ => exact .refused (by simp) hi
  | false =>
      simp only [Bool.false_eq_true, if_false]
      cases wait with
      | timer timer =>
          dsimp only
          split
          · exact .waits hi ‹_›
          · exact .woken hi (eq_false_of_ne_true ‹_›)
      | _ =>
          dsimp only
          split
          · exact .instant (by simp) hi ‹_›
          · cases token <;> exact .starts (by simp) hi ‹_›

end Machine

namespace Outline

def Ended (o : Outline) (number : Nat) : Prop := (o.branchResult? number).isSome

def endedAfter (o : Outline) (order number : Nat) : Bool :=
  match o.branchResult? number with
  | some (_, other) => order < other
  | none => true

structure FirstFailure (o : Outline) (tasks : List Nat) (f : Failure) (order : Nat) : Prop where
  mem : ∃ n ∈ tasks, o.branchResult? n = some (.error f, order)
  least : ∀ n ∈ tasks, ∀ g k, o.branchResult? n = some (.error g, k) → order ≤ k

inductive Joins (o : Outline) (run : Nat) (policy : JoinPolicy) (group : Token)
    (tasks : List Nat) : Turn (Except Failure (List BranchOutcome)) → Outline → Prop where
  | failed {f : Failure} {order : Nat} (fast : policy = .failFast)
      (first : o.FirstFailure tasks f order) :
      Joins o run policy group tasks (.answered (.error f))
        ({ o with cancelled := group :: o.cancelled }.modifyRun run fun r =>
          { r with stragglers := r.stragglers ++ tasks.filter (o.endedAfter order) })
  | completed {outcomes : List BranchOutcome}
      (quiet : policy = .failFast → ∀ n ∈ tasks, ∀ f k, o.branchResult? n ≠ some (.error f, k))
      (all : List.Forall₂ (fun n outcome => ∃ r k, o.branchResult? n = some (r, k) ∧
        outcome = .ofExcept r) tasks outcomes) :
      Joins o run policy group tasks (.answered (.ok outcomes)) o
  | waiting
      (quiet : policy = .failFast → ∀ n ∈ tasks, ∀ f k, o.branchResult? n ≠ some (.error f, k))
      (unended : ∃ n ∈ tasks, ¬ o.Ended n) :
      Joins o run policy group tasks (.waiting (.branches tasks)) o

theorem ended_of_outcomes {o : Outline} {tasks : List Nat} {outcomes : List BranchOutcome}
    (all : List.Forall₂ (fun n outcome => ∃ r k, o.branchResult? n = some (r, k) ∧
      outcome = .ofExcept r) tasks outcomes) : ∀ n ∈ tasks, o.Ended n := by
  induction all with
  | nil => simp
  | cons head tail ih =>
      obtain ⟨r, k, hr, -⟩ := head
      rintro n (_ | ⟨_, hm⟩)
      · rw [Ended, hr]
        rfl
      · exact ih n hm

/-- Branches are waited for in order: first those a task waits for already, then
those that were left to the run. -/
inductive Settles (o : Outline) (run : Nat) (token : Option Token) (pending : List Nat) :
    Turn (Except Failure Nat) → Outline → Prop where
  | settled {count : Nat} (pendingEnded : ∀ n ∈ pending, o.Ended n)
      (leftEnded : ∀ n ∈ o.stragglers run, o.Ended n) :
      Settles o run token pending (.answered (.ok count))
        (o.modifyRun run fun r => { r with stragglers := [] })
  | interruptedFirst {ended rest : List Nat} (h : o.interrupts token = true)
      (split : pending = ended ++ rest) (left : rest ≠ []) (endedEnded : ∀ n ∈ ended, o.Ended n) :
      Settles o run token pending (.answered (.error Machine.settleInterrupted))
        (o.modifyRun run fun r => { r with stragglers := r.stragglers ++ rest })
  | interruptedLater {ended rest : List Nat} (h : o.interrupts token = true)
      (pendingEnded : ∀ n ∈ pending, o.Ended n) (split : o.stragglers run = ended ++ rest)
      (endedEnded : ∀ n ∈ ended, o.Ended n) :
      Settles o run token pending (.answered (.error Machine.settleInterrupted))
        (o.modifyRun run fun r => { r with stragglers := rest })
  | waitingFirst {ended rest : List Nat} {count : Nat} (h : o.interrupts token = false)
      (split : pending = ended ++ rest) (endedEnded : ∀ n ∈ ended, o.Ended n) :
      Settles o run token pending (.waiting (.stragglers rest count)) o
  | waitingLater {ended rest : List Nat} {count : Nat} (h : o.interrupts token = false)
      (pendingEnded : ∀ n ∈ pending, o.Ended n) (split : o.stragglers run = ended ++ rest)
      (endedEnded : ∀ n ∈ ended, o.Ended n) :
      Settles o run token pending (.waiting (.stragglers rest count))
        (o.modifyRun run fun r => { r with stragglers := [] })

/-- A request goes on: it may be given up because its run does not exist, it may
wait, its reply may arrive, or a record operation may be carried out. Only a call waits for a
reply. -/
inductive Requests (o : Outline) (w : Wait) (request : Request) :
    Turn (Except Interruption Outcome) → Outline → Prop where
  | refused : Requests o w request (.answered (.error .waiting)) o
  | waiting (w' : Wait) (calls : Route → List Call)
      (h : ∀ operation, request = .record operation → w'.isCall = true → w.isCall = true) :
      Requests o w request (.waiting w') { o with calls }
  | replied (outcome : Outcome) (calls : Route → List Call)
      (h : ∀ operation, request = .record operation → w.isCall = true) :
      Requests o w request (.answered (.ok outcome)) { o with calls }
  | performed {operation : RecordRequest} (h : request = .record operation) :
      Requests o w request (.answered (.ok (o.store.perform operation).1))
        { o with store := (o.store.perform operation).2 }

def Stores (o : Outline) (r : Except EngineError ScriptedStore) (turn : Turn (Except EngineError Unit))
    (o' : Outline) : Prop :=
  match r with
  | .ok store => turn = .answered (.ok ()) ∧ o' = { o with store }
  | .error e => turn = .answered (.error e) ∧ o' = o

def Polls (o : Outline) (wait : Wait) (o' : Outline) : (e : Effect) → Turn e.Answer → Prop
  | .isCancelled t, turn => turn = .answered (o.isCancelled t) ∧ o' = o
  | .childToken t, turn => (∃ n, turn = .answered (t.child n)) ∧ o' = o
  | .startDeadline _ _, turn => (∃ n, turn = .answered n) ∧ o' = o
  | .stopDeadline _, turn => (∃ b, turn = .answered b) ∧ o' = o
  | .note run entry, turn => turn = .answered () ∧
      o' = o.modifyRun run fun r => { r with journal := r.journal.add entry }
  | .startSpan _ _, turn => (∃ r, turn = .answered r) ∧ o' = o
  | .endSpan _ _ _, turn => (∃ r, turn = .answered r) ∧ o' = o
  | .request _ token request, turn =>
      if o.isCancelled token then (∃ i, turn = .answered (.error i)) ∧ o' = o
      else o.Requests wait request turn o'
  | .sleep token _, turn => o' = o ∧
      (turn = .answered (!o.interrupts token) ∨
        (∃ w, turn = .waiting w) ∧ o.interrupts token = false)
  | .join run policy group branches, turn =>
      match wait with
      | .branches tasks => o.Joins run policy group tasks turn o'
      | _ => o' = o.spawn (branches.map Branch.program) ∧
          (turn = .answered (.ok []) ∧ branches = [] ∨ branches ≠ [] ∧
            turn = .waiting (.branches (List.range' o.branches.length branches.length)))
  | .settle run token, turn => o.Settles run token wait.pending turn o'
  | .beginTransaction ctx, turn =>
      match (o.slot ctx.run).begin o.store with
      | .ok (handle, slot, store) => turn = .answered (.ok handle) ∧
          o' = { o with store }.modifyRun ctx.run fun r => { r with slot }
      | .error e => turn = .answered (.error e) ∧ o' = o
  | .releaseTransaction run handle, turn =>
      match (o.slot run).release handle with
      | .ok slot => turn = .answered (.ok ()) ∧ o' = o.modifyRun run fun r => { r with slot }
      | .error e => turn = .answered (.error e) ∧ o' = o
  | .discardSnapshot handle, turn => o.Stores (o.store.discard handle) turn o'
  | .restoreSnapshot handle, turn => o.Stores (o.store.restore handle) turn o'
  | .acquireSlot, turn => o' = o ∧ (turn = .answered () ∨ ∃ w, turn = .waiting w)
  | .releaseSlot, turn => turn = .answered () ∧ o' = o
  | .openRun flow parent, turn => (∃ n, turn = .answered (o.runs.length, parent.child n)) ∧
      o' = { o with runs := o.runs ++ [⟨.empty, [], .start flow⟩] }
  | .closeRun run ending outputs, turn =>
      match o.runs[run]? with
      | none => turn = .answered (default : RunResult) ∧ o' = o
      | some r => turn = .answered ((r.journal.finish ending).result run ending outputs) ∧
          o' = o.modifyRun run fun r' => { r' with journal := r.journal.finish ending }
  | .awaitRun number, turn => o' = o ∧
      ((∃ result order, o.submissions[number]? = some (.ended result order) ∧
        turn = .answered result) ∨ ∃ w, turn = .waiting w)

end Outline

namespace Machine

variable (m : Machine) (main : TaskState RunResult)

@[simp] theorem isCancelled_outline (t : Token) :
    (m.outline main).isCancelled t = m.isCancelled t := rfl

@[simp] theorem interrupts_outline (t : Option Token) :
    (m.outline main).interrupts t = m.interrupts t := by
  cases t <;> rfl

@[simp] theorem branchResult?_outline (number : Nat) :
    (m.outline main).branchResult? number = m.branchResult? number := by
  simp only [Outline.branchResult?, branchResult?, outline, List.getElem?_map,
    Array.getElem?_toList, Option.bind_map, Function.comp_def]

@[simp] theorem slot_outline (run : Nat) :
    (m.outline main).slot run = m.runs[run]?.elim .empty ActiveRun.slot := by
  cases h : m.runs[run]? <;> simp [Outline.slot, outline, ActiveRun.outline, h]

@[simp] theorem stragglers_outline (run : Nat) :
    (m.outline main).stragglers run = m.runs[run]?.elim [] ActiveRun.stragglers := by
  cases h : m.runs[run]? <;> simp [Outline.stragglers, outline, ActiveRun.outline, h]

/-! ## Requests -/

theorem answerRequest_outline (me : TaskId) (run : Nat) (request : Request) (outcome : Outcome) :
    (m.answerRequest me run request outcome).machine.outline main = m.outline main := by
  simp [answerRequest, Polled.machine]

theorem startRequest_outline (me : TaskId) (run : Nat) (token : Token) (request : Request)
    (w : Wait) : (m.outline main).Requests w request (m.startRequest me run token request).turn
      ((m.startRequest me run token request).machine.outline main) := by
  cases request with
  | call route target inputs =>
      have hs (w : World) (c : Collaborator) : (setCollaborator w route c).store = w.store := by
        unfold setCollaborator
        split
        · rfl
        · rfl
        · split <;> rfl
      have hc (c : Collaborator) : ∃ calls,
          ((m.forget me).modifyWorld fun w => setCollaborator w route c).outline main =
            { m.outline main with calls } := by
        refine ⟨fun other => (collaborator (setCollaborator m.world route c) other).calls, ?_⟩
        simp only [outline, modifyWorld, forget, hs]
      unfold startRequest
      dsimp only
      split
      · obtain ⟨calls, h⟩ := hc _
        rw [answerRequest_outline, h]
        exact .replied _ calls (by rintro _ ⟨⟩)
      · obtain ⟨calls, h⟩ := hc _
        simp only [Polled.turn, Polled.machine, outline_observe, outline_schedule]
        rw [h]
        exact .waiting _ calls (by rintro _ ⟨⟩)
  | record operation =>
      unfold startRequest
      dsimp only
      split
      · rw [answerRequest_outline]
        simp only [operate]
        rw [outline_setStore, outline_forget]
        exact .performed rfl
      · simp only [Polled.turn, Polled.machine, outline_observe, outline_schedule, outline_forget]
        exact .waiting _ (m.outline main).calls (by rintro _ ⟨⟩ ⟨⟩)

theorem pollRequest_outline (me : TaskId) (run : Nat) (token : Token) (request : Request)
    (wait : Wait) : (m.outline main).Polls wait
      ((m.pollRequest me run token request wait).machine.outline main)
      (.request run token request) (m.pollRequest me run token request wait).turn := by
  have hcut {w : Wait} {o' : Outline} {i : Interruption} (hc : m.isCancelled token = true)
      (ho : o' = m.outline main) :
      (m.outline main).Polls w o' (.request run token request) (.answered (.error i)) := by
    simp only [Outline.Polls, isCancelled_outline, hc, if_true]
    exact ⟨⟨i, rfl⟩, ho⟩
  have hgoes {w : Wait} {o' : Outline} {turn : Turn (Except Interruption Outcome)}
      (hc : m.isCancelled token = false) (ho : (m.outline main).Requests w request turn o') :
      (m.outline main).Polls w o' (.request run token request) turn := by
    simpa only [Outline.Polls, isCancelled_outline, hc, Bool.false_eq_true, if_false] using ho
  have hpoll := m.pollRequest_requests me run token request wait
  generalize m.pollRequest me run token request wait = polled at hpoll ⊢
  cases hpoll with
  | refused first why =>
      cases hc : m.isCancelled token with
      | true => exact hcut hc rfl
      | false => exact hgoes hc .refused
  | leaves cancelled => exact hcut cancelled (by simp [Polled.machine])
  | abandoned awaited cancelled =>
      exact hcut cancelled (by simp [abandonRequest, Polled.machine])
  | @starts _ r gate valid there taken =>
      have hstart := (m.setGate run gate).startRequest_outline main me run token request wait
      rw [outline_setGate] at hstart
      exact hgoes valid hstart
  | queues first valid there full =>
      simp only [Polled.machine, outline_observe, outline_setGate]
      exact hgoes valid (.waiting _ (m.outline main).calls (by rintro _ - ⟨⟩))
  | queued valid nothing => exact hgoes valid (.waiting _ (m.outline main).calls fun _ _ h => h)
  | waits awaited valid pending =>
      exact hgoes valid (.waiting _ (m.outline main).calls fun _ _ h => h)
  | replied valid fired =>
      rw [answerRequest_outline]
      exact hgoes valid (.replied _ (m.outline main).calls fun _ _ => rfl)
  | performed record valid fired =>
      rw [answerRequest_outline, operate, outline_setStore]
      exact hgoes valid (.performed record)
  | unsuited call valid => exact hgoes valid (.waiting _ (m.outline main).calls fun _ _ h => h)

theorem pollSleep_outline (me : TaskId) (token : Option Token) (span : Nat) (wait : Wait) :
    (m.outline main).Polls wait ((m.pollSleep me token span wait).machine.outline main)
      (.sleep token span) (m.pollSleep me token span wait).turn := by
  have hpoll := m.pollSleep_sleeps me token span wait
  generalize m.pollSleep me token span wait = polled at hpoll ⊢
  simp only [Outline.Polls, interrupts_outline]
  cases hpoll with
  | refused first cut => exact ⟨rfl, Or.inl (by rw [cut]; rfl)⟩
  | interrupted cut => exact ⟨rfl, Or.inl (by rw [cut]; rfl)⟩
  | instant first valid short => exact ⟨rfl, Or.inl (by rw [valid]; rfl)⟩
  | starts first valid long =>
      refine ⟨?_, Or.inr ⟨⟨_, rfl⟩, valid⟩⟩
      cases token with
      | none => rfl
      | some t => exact outline_observe _ main t me
  | waits valid pending => exact ⟨rfl, Or.inr ⟨⟨_, rfl⟩, valid⟩⟩
  | woken valid fired => exact ⟨rfl, Or.inl (by rw [valid]; rfl)⟩

/-! ## Joins -/

def Earliest (m : Machine) (tasks : List Nat) : Option (Failure × Nat) → Prop
  | none => ∀ n ∈ tasks, ∀ f k, (m.outline main).branchResult? n ≠ some (.error f, k)
  | some (f, order) => (m.outline main).FirstFailure tasks f order

section

variable {m main} {tasks : List Nat} {first : Option (Failure × Nat)} {n : Nat}

/-- A branch that has not failed does not change which failure came first. -/
theorem Earliest.of_unfailed (h : Earliest main m tasks first)
    (hn : ∀ f k, m.branchResult? n ≠ some (.error f, k)) :
    Earliest main m (tasks ++ [n]) first := by
  rw [← branchResult?_outline m main] at hn
  cases first with
  | none =>
      intro n' hn'
      rcases List.mem_append.mp hn' with hm | hm
      · exact h n' hm
      · rw [List.mem_singleton.mp hm]
        exact hn
  | some p =>
      obtain ⟨n₀, hm₀, h₀⟩ := h.mem
      refine ⟨⟨n₀, List.mem_append_left _ hm₀, h₀⟩, fun n' hn' g k hg => ?_⟩
      rcases List.mem_append.mp hn' with hm | hm
      · exact h.least n' hm g k hg
      · rw [List.mem_singleton.mp hm] at hg
        exact absurd hg (hn g k)

/-- A branch that failed before all others did is the first. -/
theorem Earliest.of_first {f : Failure} {order : Nat} (h : Earliest main m tasks first)
    (hn : m.branchResult? n = some (.error f, order))
    (hbefore : ∀ g least, first = some (g, least) → order ≤ least) :
    Earliest main m (tasks ++ [n]) (some (f, order)) := by
  rw [← branchResult?_outline m main] at hn
  refine ⟨⟨n, by simp, hn⟩, fun n' hn' g k hg => ?_⟩
  rcases List.mem_append.mp hn' with hm | hm
  · cases first with
    | none => exact absurd hg (h n' hm g k)
    | some p => exact Nat.le_trans (hbefore p.1 p.2 rfl) (h.least n' hm g k hg)
  · rw [List.mem_singleton.mp hm, hn] at hg
    cases hg
    exact Nat.le_refl _

/-- A branch that failed after another one is not the first. -/
theorem Earliest.of_later {f g : Failure} {order least : Nat}
    (h : Earliest main m tasks (some (g, least)))
    (hn : m.branchResult? n = some (.error f, order)) (hle : least ≤ order) :
    Earliest main m (tasks ++ [n]) (some (g, least)) := by
  rw [← branchResult?_outline m main] at hn
  obtain ⟨n₀, hm₀, h₀⟩ := h.mem
  refine ⟨⟨n₀, List.mem_append_left _ hm₀, h₀⟩, fun n' hn' g' k hg => ?_⟩
  rcases List.mem_append.mp hn' with hm | hm
  · exact h.least n' hm g' k hg
  · rw [List.mem_singleton.mp hm, hn] at hg
    cases hg
    exact hle

theorem Earliest.step (h : Earliest main m tasks first) (n : Nat) :
    Earliest main m (tasks ++ [n]) (earlier first (m.branchResult? n)) := by
  cases hr : m.branchResult? n with
  | none => exact h.of_unfailed (by simp [hr])
  | some p =>
      obtain ⟨r, order⟩ := p
      cases r with
      | ok v => exact h.of_unfailed (by simp [hr])
      | error f =>
          cases first with
          | none => exact h.of_first hr nofun
          | some q =>
              obtain ⟨g, least⟩ := q
              simp only [earlier]
              split
              · rename_i hlt
                refine h.of_first hr ?_
                rintro _ _ ⟨⟩
                exact Nat.le_of_lt hlt
              · rename_i hle
                exact h.of_later hr (Nat.le_of_not_lt hle)

end

theorem firstFailure?_outline (tasks : List Nat) :
    Earliest main m tasks (m.firstFailure? tasks) := by
  induction tasks using List.reverseRecOn with
  | nil => exact nofun
  | append_singleton tasks n ih =>
      have hfold : m.firstFailure? (tasks ++ [n]) =
          earlier (m.firstFailure? tasks) (m.branchResult? n) := by
        simp only [firstFailure?, List.foldl_append, List.foldl_cons, List.foldl_nil]
      rw [hfold]
      exact ih.step n

theorem outcomes?_outline (tasks : List Nat) :
    match m.outcomes? tasks with
    | none => ∃ n ∈ tasks, ¬ (m.outline main).Ended n
    | some outcomes => List.Forall₂ (fun n outcome => ∃ r k,
        (m.outline main).branchResult? n = some (r, k) ∧ outcome = .ofExcept r) tasks outcomes := by
  induction tasks with
  | nil => exact .nil
  | cons n rest ih =>
      simp only [outcomes?, List.mapM_cons] at ih ⊢
      cases hr : m.branchResult? n with
      | none => exact ⟨n, by simp, by simp [Outline.Ended, hr]⟩
      | some p =>
          obtain ⟨r, k⟩ := p
          cases ho : rest.mapM fun task =>
              (m.branchResult? task).map fun p => BranchOutcome.ofExcept p.1 with
          | none =>
              rw [ho] at ih
              obtain ⟨n', hm, hn⟩ := ih
              exact ⟨n', List.mem_cons_of_mem _ hm, hn⟩
          | some outcomes =>
              rw [ho] at ih
              exact .cons ⟨r, k, by rw [branchResult?_outline, hr], rfl⟩ ih

theorem gather_outline {run : Nat} {policy : JoinPolicy} {group : Token} {tasks : List Nat}
    (quiet : policy = .failFast → ∀ n ∈ tasks, ∀ f k,
      (m.outline main).branchResult? n ≠ some (.error f, k)) :
    (m.outline main).Joins run policy group tasks (m.gather tasks).turn
      ((m.gather tasks).machine.outline main) := by
  have ho := m.outcomes?_outline main tasks
  unfold gather
  cases h : m.outcomes? tasks with
  | none =>
      rw [h] at ho
      exact .waiting quiet ho
  | some outcomes =>
      rw [h] at ho
      exact .completed quiet ho

theorem checkJoin_outline (run : Nat) (policy : JoinPolicy) (group : Token) (tasks : List Nat) :
    (m.outline main).Joins run policy group tasks (m.checkJoin run policy group tasks).turn
      ((m.checkJoin run policy group tasks).machine.outline main) := by
  have hf := m.firstFailure?_outline main tasks
  unfold checkJoin
  cases policy with
  | waitAll => exact m.gather_outline main (by simp)
  | failFast =>
      cases h : m.firstFailure? tasks with
      | none =>
          rw [h] at hf
          exact m.gather_outline main fun _ => hf
      | some p =>
          obtain ⟨f, order⟩ := p
          rw [h] at hf
          have he : m.endedAfter order = (m.outline main).endedAfter order := by
            funext n
            exact congrArg (fun r : Option (Except Failure Json × Nat) => match r with
              | some (_, other) => decide (order < other)
              | none => true) (m.branchResult?_outline main n).symm
          simp only [Polled.turn, Polled.machine, adopt, he]
          rw [outline_modifyRun (g := fun r => { r with
              stragglers := r.stragglers ++ List.filter ((m.outline main).endedAfter order) tasks })
            _ main run _ fun _ => rfl]
          rw [outline_setWaiters, outline_cancel]
          exact .failed rfl hf

theorem pollJoin_outline (me : TaskId) (run : Nat) (policy : JoinPolicy) (group : Token)
    (branches : List Branch) (wait : Wait) : (m.outline main).Polls wait
      ((m.pollJoin me run policy group branches wait).machine.outline main)
      (.join run policy group branches) (m.pollJoin me run policy group branches wait).turn := by
  have hspawn := m.spawn_eq main (branches.map Branch.program)
  have hsize : (m.outline main).branches.length = m.branches.size := by simp [outline]
  simp only [Outline.Polls]
  unfold pollJoin
  cases wait with
  | branches tasks => exact m.checkJoin_outline main run policy group tasks
  | _ =>
      dsimp only
      rw [hspawn.1, hsize, List.length_map]
      split
      · rename_i he
        refine ⟨hspawn.2, Or.inl ⟨rfl, ?_⟩⟩
        simpa using he
      · rename_i he
        refine ⟨by simp only [Polled.machine, outline_setWaiters, hspawn.2], Or.inr ⟨?_, rfl⟩⟩
        simpa using he

/-! ## Settling -/

theorem settleList_outline (me : TaskId) (run : Nat) (token : Option Token) (tasks : List Nat)
    (count : Nat) :
    match settleList me run token tasks count m with
    | .settled _ m' => (∀ n ∈ tasks, (m.outline main).Ended n) ∧ m'.outline main = m.outline main
    | .interrupted m' => (m.outline main).interrupts token = true ∧
        ∃ ended rest, tasks = ended ++ rest ∧ rest ≠ [] ∧
          (∀ n ∈ ended, (m.outline main).Ended n) ∧
          m'.outline main = (m.outline main).modifyRun run fun r =>
            { r with stragglers := r.stragglers ++ rest }
    | .waiting rest _ m' => (m.outline main).interrupts token = false ∧
        (∃ ended, tasks = ended ++ rest ∧ ∀ n ∈ ended, (m.outline main).Ended n) ∧
          m'.outline main = m.outline main := by
  induction tasks generalizing m count with
  | nil => exact ⟨by simp, rfl⟩
  | cons n rest ih =>
      rw [settleList]
      by_cases hi : m.interrupts token = true
      · rw [if_pos hi]
        refine ⟨by simpa using hi, [], n :: rest, rfl, by simp, by simp, ?_⟩
        simp only [adopt]
        rw [outline_modifyRun (g := fun r => { r with stragglers := r.stragglers ++ n :: rest })
          _ main run _ fun r => rfl]
        simp
      · rw [if_neg hi]
        by_cases hr : (m.branchResult? n).isSome = true
        · rw [if_pos hr]
          have hn : (m.outline main).Ended n := by simpa [Outline.Ended] using hr
          have := ih (m.forget me) (count + 1)
          rw [outline_forget] at this
          cases hs : settleList me run token rest (count + 1) (m.forget me) with
          | settled c m' =>
              rw [hs] at this
              refine ⟨?_, this.2⟩
              rintro n' (_ | ⟨_, hm⟩)
              · exact hn
              · exact this.1 n' hm
          | interrupted m' =>
              rw [hs] at this
              obtain ⟨hi', ended, left, rfl, hne, he, ho⟩ := this
              refine ⟨hi', n :: ended, left, rfl, hne, ?_, ho⟩
              rintro n' (_ | ⟨_, hm⟩)
              · exact hn
              · exact he n' hm
          | waiting left c m' =>
              rw [hs] at this
              obtain ⟨hi', ⟨ended, rfl, he⟩, ho⟩ := this
              refine ⟨hi', ⟨n :: ended, rfl, ?_⟩, ho⟩
              rintro n' (_ | ⟨_, hm⟩)
              · exact hn
              · exact he n' hm
        · rw [if_neg hr]
          refine ⟨by simpa using hi, ⟨[], rfl, by simp⟩, ?_⟩
          cases token with
          | none => exact outline_setWaiter m main _ n
          | some t => exact (outline_observe _ main t me).trans (outline_setWaiter m main _ n)

theorem settleRun_outline (me : TaskId) (run : Nat) (token : Option Token) (pending : List Nat)
    (count : Nat) :
    match m.settleRun me run token pending count with
    | .settled c m' => (m.outline main).Settles run token pending (.answered (.ok c))
        (m'.outline main)
    | .interrupted m' => (m.outline main).Settles run token pending
        (.answered (.error settleInterrupted)) (m'.outline main)
    | .waiting rest c m' => (m.outline main).Settles run token pending
        (.waiting (.stragglers rest c)) (m'.outline main) := by
  have hfirst := m.settleList_outline main me run token pending count
  unfold settleRun
  cases hs : settleList me run token pending count m with
  | interrupted m' =>
      rw [hs] at hfirst
      obtain ⟨hi, ended, rest, hsplit, hne, he, ho⟩ := hfirst
      dsimp only
      rw [ho]
      exact .interruptedFirst hi hsplit hne he
  | waiting rest c m' =>
      rw [hs] at hfirst
      obtain ⟨hi, ⟨ended, hsplit, he⟩, ho⟩ := hfirst
      dsimp only
      rw [ho]
      exact .waitingFirst hi hsplit he
  | settled c m' =>
      rw [hs] at hfirst
      obtain ⟨hp, ho⟩ := hfirst
      have htaken : (m'.takeStragglers run).2.outline main =
          (m.outline main).modifyRun run fun r => { r with stragglers := [] } := by
        rw [← ho]
        exact m'.outline_modifyRun main run _ _ fun _ => rfl
      have hleft : (m'.takeStragglers run).1 = (m.outline main).stragglers run := by
        rw [← ho, stragglers_outline]
        rfl
      have hlater := (m'.takeStragglers run).2.settleList_outline main me run token
        (m'.takeStragglers run).1 c
      rw [htaken, hleft] at hlater
      dsimp only
      rw [hleft]
      cases hs' : settleList me run token ((m.outline main).stragglers run) c
          (m'.takeStragglers run).2 with
      | settled c' m'' =>
          rw [hs'] at hlater
          dsimp only
          rw [hlater.2]
          exact .settled hp hlater.1
      | interrupted m'' =>
          rw [hs'] at hlater
          obtain ⟨hi, ended, rest, hsplit, _, he, ho'⟩ := hlater
          dsimp only
          rw [ho', Outline.modifyRun_modifyRun]
          exact .interruptedLater hi hp hsplit he
      | waiting rest c' m'' =>
          rw [hs'] at hlater
          obtain ⟨hi, ⟨ended, hsplit, he⟩, ho'⟩ := hlater
          dsimp only
          rw [ho']
          exact .waitingLater hi hp hsplit he

theorem pollSettle_outline (me : TaskId) (run : Nat) (token : Option Token) (wait : Wait) :
    (m.outline main).Polls wait ((m.pollSettle me run token wait).machine.outline main)
      (.settle run token) (m.pollSettle me run token wait).turn := by
  have from_pending (pending : List Nat) (count : Nat) := m.settleRun_outline main me run token
    pending count
  simp only [Outline.Polls]
  unfold pollSettle
  cases wait with
  | stragglers tasks count =>
      have h := from_pending tasks count
      dsimp only
      cases hs : m.settleRun me run token tasks count <;> rw [hs] at h <;> exact h
  | _ =>
      have h := from_pending [] 0
      dsimp only
      cases hs : m.settleRun me run token [] 0 <;> rw [hs] at h <;> exact h

/-! ## All effects -/

theorem storeAnswer_outline (r : Except EngineError ScriptedStore) :
    (m.outline main).Stores r (m.storeAnswer r).turn ((m.storeAnswer r).machine.outline main) := by
  cases r with
  | ok store => exact ⟨rfl, m.outline_setStore main store⟩
  | error e => exact ⟨rfl, rfl⟩

theorem beginTransaction_outline (ctx : Context) (wait : Wait) :
    (m.outline main).Polls wait ((m.beginTransaction ctx.run).machine.outline main)
      (.beginTransaction ctx) (m.beginTransaction ctx.run).turn := by
  simp only [Outline.Polls, slot_outline]
  unfold beginTransaction
  have hstore : (m.outline main).store = m.world.store := rfl
  rw [hstore]
  dsimp only
  cases (m.runs[ctx.run]?.elim .empty ActiveRun.slot).begin m.world.store with
  | error e => exact ⟨rfl, rfl⟩
  | ok p =>
      obtain ⟨handle, slot, store⟩ := p
      refine ⟨rfl, ?_⟩
      simp only [Polled.machine]
      rw [outline_setStore]
      simp only [setSlot]
      rw [outline_modifyRun (g := fun r => { r with slot }) _ main _ _ fun _ => rfl]
      rfl

theorem releaseTransaction_outline (run : Nat) (handle : String) (wait : Wait) :
    (m.outline main).Polls wait ((m.releaseTransaction run handle).machine.outline main)
      (.releaseTransaction run handle) (m.releaseTransaction run handle).turn := by
  simp only [Outline.Polls, slot_outline]
  unfold releaseTransaction
  dsimp only
  cases (m.runs[run]?.elim .empty ActiveRun.slot).release handle with
  | error e => exact ⟨rfl, rfl⟩
  | ok slot => exact ⟨rfl, m.outline_modifyRun main run _ _ fun _ => rfl⟩

theorem pollSlot_outline (me : TaskId) (wait : Wait) : (m.outline main).Polls wait
    ((m.pollSlot me wait).machine.outline main) .acquireSlot (m.pollSlot me wait).turn := by
  unfold pollSlot
  cases wait with
  | slot =>
      dsimp only
      split
      · exact ⟨rfl, Or.inl rfl⟩
      · exact ⟨rfl, Or.inr ⟨_, rfl⟩⟩
  | _ =>
      dsimp only
      split
      · exact ⟨rfl, Or.inl rfl⟩
      · exact ⟨rfl, Or.inr ⟨_, rfl⟩⟩

theorem pollRun_outline (me : TaskId) (number : Nat) (wait : Wait) : (m.outline main).Polls wait
    ((m.pollRun me number).machine.outline main) (.awaitRun number)
    (m.pollRun me number).turn := by
  unfold pollRun
  cases hr : m.submissions[number]?.bind fun task => task.state.result? with
  | none =>
      have hm := map_modify (h := Task.state) (g := id)
        (f := fun task => { task with waiter := some me }) (fun _ => rfl) m.submissions.toList
        number
      refine ⟨?_, Or.inr ⟨_, rfl⟩⟩
      simp only [Polled.machine, outline, Array.toList_modify, hm, List.modify_id]
  | some p =>
      obtain ⟨result, order⟩ := p
      refine ⟨rfl, Or.inl ⟨result, order, ?_, rfl⟩⟩
      obtain ⟨task, ht, hs⟩ := Option.bind_eq_some_iff.mp hr
      have hstate : task.state = .ended result order := by
        cases hst : task.state with
        | active p w =>
            rw [hst] at hs
            cases hs
        | ended r k =>
            rw [hst] at hs
            cases hs
            rfl
      simp [outline, ht, hstate]

theorem closeRun_outline (run : Nat) (ending : Ending) (outputs : List (String × Json))
    (wait : Wait) : (m.outline main).Polls wait ((m.closeRun run ending outputs).2.outline main)
      (.closeRun run ending outputs) (.answered (m.closeRun run ending outputs).1) := by
  have hruns : (m.outline main).runs[run]? = m.runs[run]?.map ActiveRun.outline := by
    simp [outline]
  simp only [Outline.Polls, hruns]
  unfold closeRun
  cases m.runs[run]? with
  | none => exact ⟨rfl, rfl⟩
  | some r => exact ⟨rfl, m.outline_modifyRun main run _ _ fun _ => rfl⟩

theorem poll_outline (me : TaskId) (wait : Wait) (e : Effect) : (m.outline main).Polls wait
    ((m.poll me wait e).machine.outline main) e (m.poll me wait e).turn := by
  cases e with
  | isCancelled token => exact ⟨rfl, rfl⟩
  | childToken token => exact ⟨⟨_, rfl⟩, rfl⟩
  | startDeadline token limit => exact ⟨⟨_, rfl⟩, rfl⟩
  | stopDeadline deadline => exact ⟨⟨_, rfl⟩, rfl⟩
  | note run entry => exact ⟨rfl, m.outline_modifyRun main run _ _ fun _ => rfl⟩
  | startSpan ctx step => exact ⟨⟨_, rfl⟩, m.outline_mark main _ _ _⟩
  | endSpan ctx step status => exact ⟨⟨_, rfl⟩, m.outline_mark main _ _ _⟩
  | request run token request => exact m.pollRequest_outline main me run token request wait
  | sleep token span => exact m.pollSleep_outline main me token span wait
  | join run policy group branches =>
      exact m.pollJoin_outline main me run policy group branches wait
  | settle run token => exact m.pollSettle_outline main me run token wait
  | beginTransaction ctx => exact m.beginTransaction_outline main ctx wait
  | releaseTransaction run handle => exact m.releaseTransaction_outline main run handle wait
  | discardSnapshot handle => exact m.storeAnswer_outline main _
  | restoreSnapshot handle => exact m.storeAnswer_outline main _
  | acquireSlot => exact m.pollSlot_outline main me wait
  | releaseSlot => exact ⟨rfl, outline_wakeIfSome _ main _⟩
  | openRun flow parent =>
      refine ⟨⟨m.next, ?_⟩, ?_⟩
      · simp [poll, openRun, Polled.turn, outline, childToken]
      · simp [poll, openRun, Polled.machine, outline, childToken, ActiveRun.outline]
  | closeRun run ending outputs => exact m.closeRun_outline main run ending outputs wait
  | awaitRun number => exact m.pollRun_outline main me number wait

end Machine
end FlowEngine
