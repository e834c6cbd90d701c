import FlowEngine.Proofs.Execution.Tidy
import FlowEngine.Proofs.Machine.Signals
import FlowEngine.Proofs.Session.Polled
import FlowEngine.Proofs.Store.Calls
import FlowEngine.Proofs.Store.Persistence

/-!
# Tidy systems

The rows and snapshots of a tidy system are tidy, its collaborators reply with tidy values to tidy
inputs, and its tasks ended with tidy values or go on with programs that hand over such values only.
A step keeps a system tidy.
-/
namespace FlowEngine

/-! ## Collaborators -/

namespace Reply

def Tidy : Reply → Prop
  | value v | failFirst _ v => v.Tidy
  | delayed _ reply => reply.Tidy
  | echo | failure _ _ => True

theorem Tidy.outcome {reply : Reply} (h : reply.Tidy) (target : String) {inputs : Json}
    (hinputs : inputs.Tidy) (call : Nat) : (reply.outcome target inputs call).Tidy := by
  induction reply with
  | echo =>
      rintro _ ⟨⟩
      exact Json.tidy_object (by simp [hinputs])
  | value v =>
      rintro _ ⟨⟩
      exact h
  | failure kind message => rintro _ ⟨⟩
  | failFirst times v =>
      rw [Reply.outcome]
      split
      · rintro _ ⟨⟩
      · rintro _ ⟨⟩
        exact h
  | delayed ms reply ih => exact ih h

end Reply

namespace Machine

variable {m m' : Machine} {w : World} {me : TaskId} {run : Nat} {token : Token} {request : Request}

def replies (m : Machine) (route : Route) : String → Reply := (collaborator m.world route).reply

theorem replies_of_shared (h : m'.shared = m.shared) : m'.replies = m.replies := by
  change m'.shared.replies = m.shared.replies
  rw [h]

@[simp] theorem replies_wakeIfSome (t : Option TaskId) : (m.wakeIfSome t).replies = m.replies :=
  replies_of_shared (m.shared_wakeIfSome t)

theorem outsider_replies : Outsider replies where
  observers _ _ := rfl
  branches _ _ := rfl
  stragglers _ _ _ := rfl
  wake m t := replies_of_shared (m.shared_wake t)

@[simp] theorem replies_observe (token : Token) (t : TaskId) : (m.observe token t).replies = m.replies :=
  outsider_replies.observe m token t

/-- A collaborator that replies as before may take the place of another one. -/
theorem replies_setCollaborator {route : Route} {c : Collaborator}
    (h : c.reply = (collaborator m.world route).reply) :
    (m.modifyWorld fun w => setCollaborator w route c).replies = m.replies := by
  funext other
  simp only [replies, modifyWorld]
  cases route <;> cases other <;> cases ha : m.world.agents <;>
    simp_all [collaborator, setCollaborator]

@[simp] theorem replies_setStore (store : ScriptedStore) : (m.setStore store).replies = m.replies := by
  funext route
  cases route <;> rfl

@[simp] theorem replies_hangUp (request : Request) : (m.hangUp request).replies = m.replies := by
  cases request with
  | record _ => rfl
  | call route target inputs => exact replies_setCollaborator rfl

@[simp] theorem replies_releasePermit (run : Nat) : (m.releasePermit run).replies = m.replies := by
  unfold releasePermit
  split
  · rfl
  · exact replies_wakeIfSome _

@[simp] theorem replies_withdraw (run : Nat) (t : TaskId) : (m.withdraw run t).replies = m.replies := by
  unfold withdraw
  split
  · rfl
  · exact replies_wakeIfSome _

theorem replies_cancel (token : Token) : (m.cancel token).replies = m.replies :=
  outsider_replies.cancel (fun _ _ => rfl) m token

theorem replies_answerRequest (outcome : Outcome) :
    (m.answerRequest me run request outcome).machine.replies = m.replies :=
  (replies_releasePermit run).trans (replies_hangUp request)

theorem replies_startRequest :
    (m.startRequest me run token request).machine.replies = m.replies := by
  unfold startRequest
  cases request with
  | call route target inputs =>
      have hcalled : ((m.forget me).modifyWorld fun w => setCollaborator w route
          ((collaborator (m.forget me).world route).start target inputs).2.2).replies = m.replies :=
        replies_setCollaborator rfl
      dsimp only
      split
      · exact (replies_answerRequest _).trans hcalled
      · exact (replies_observe token me).trans hcalled
  | record operation =>
      dsimp only
      split
      · exact (replies_answerRequest _).trans (replies_setStore _)
      · exact replies_observe token me

theorem replies_pollRequest (wait : Wait) :
    (m.pollRequest me run token request wait).machine.replies = m.replies := by
  have hpoll := m.pollRequest_requests me run token request wait
  generalize m.pollRequest me run token request wait = polled at hpoll ⊢
  cases hpoll with
  | refused | queued | waits | unsuited => rfl
  | leaves => exact replies_withdraw run me
  | abandoned => exact (replies_releasePermit run).trans (replies_hangUp request)
  | starts => exact replies_startRequest
  | queues => exact replies_observe token me
  | replied => exact replies_answerRequest _
  | performed => exact (replies_answerRequest _).trans (replies_setStore _)

theorem replies_storeAnswer (r : Except EngineError ScriptedStore) :
    (m.storeAnswer r).machine.replies = m.replies := by
  cases r with
  | ok store => exact replies_setStore store
  | error e => rfl

theorem replies_poll (wait : Wait) (e : Effect) : (m.poll me wait e).machine.replies = m.replies := by
  cases e with
  | isCancelled | childToken | startDeadline | stopDeadline | note | openRun => rfl
  | startSpan ctx step =>
      unfold poll mark
      dsimp only
      split <;> rfl
  | endSpan ctx step status =>
      unfold poll mark
      dsimp only
      split <;> rfl
  | request run token request => exact replies_pollRequest wait
  | sleep token span =>
      have hpoll := m.pollSleep_sleeps me token span wait
      change (m.pollSleep me token span wait).machine.replies = m.replies
      generalize m.pollSleep me token span wait = polled at hpoll ⊢
      cases hpoll with
      | starts =>
          cases token with
          | none => rfl
          | some token => exact replies_observe token me
      | _ => rfl
  | join run policy group branches =>
      exact outsider_replies.pollJoin policy (fun _ _ => replies_cancel) m me run group branches wait
  | settle run token => exact outsider_replies.pollSettle m me run token wait
  | beginTransaction ctx =>
      unfold poll beginTransaction
      dsimp only
      split
      · exact replies_setStore _
      · rfl
  | releaseTransaction run handle =>
      unfold poll releaseTransaction
      dsimp only
      split <;> rfl
  | discardSnapshot handle => exact replies_storeAnswer _
  | restoreSnapshot handle => exact replies_storeAnswer _
  | acquireSlot =>
      unfold poll pollSlot
      cases wait <;> dsimp only <;> split <;> rfl
  | releaseSlot => exact replies_wakeIfSome (m := { m with slots := m.slots.release.1 }) _
  | closeRun run ending outputs =>
      unfold poll closeRun
      dsimp only
      split <;> rfl
  | awaitRun submission =>
      unfold poll pollRun
      dsimp only
      split <;> rfl

theorem Passes.replies (h : m.Passes m') : m'.replies = m.replies := by
  cases h with
  | same shared => exact replies_of_shared shared
  | counted shared => exact (replies_of_shared shared : m'.replies = { m with next := m.next + 1 }.replies)
  | cancelled token => exact replies_cancel token
  | scheduled span token => rfl
  | clock h =>
      obtain ⟨due, rfl⟩ := m.advanceClock?_eq h
      exact outsider_replies.rings (fun _ _ => rfl) _ _

end Machine

theorem System.Moves.replies {config : Config} {s s' : System RunResult} {log : List Occurrence}
    (h : s.Moves config log s') : s'.machine.replies = s.machine.replies := by
  rcases h.polled_or_unpolled with ⟨t, e, next, w, polls, rfl⟩ | hquiet
  · rw [Machine.replies_of_shared polls.shared, Machine.replies_poll]
  · exact hquiet.machine.replies

/-! ## The record store -/

namespace Store

def TidyRows (collections : Collections) : Prop :=
  ∀ f ∈ collections, ∀ row ∈ f.2.rows, Fields.Tidy row

variable {s s' : Store} {record : String} {request : RecordRequest}

def Tidy (s : Store) : Prop := s.Keeping TidyRows

theorem Tidy.rows (h : s.Tidy) (record : String) : ∀ row ∈ s.rows record, Fields.Tidy row := by
  unfold Store.rows collection
  cases hc : Fields.get? record s.collections with
  | none => exact List.forall_mem_nil _
  | some c => exact h.now _ (Fields.mem_of_get? hc)

theorem Tidy.put (h : s.Tidy) (record : String) {c : Collection} (hc : ∀ row ∈ c.rows, Fields.Tidy row) :
    TidyRows (s.putCollection record c).collections := by
  intro f hf
  rcases Fields.mem_insert hf with rfl | hf
  · exact hc
  · exact h.now f hf

theorem tidy_withId {row : Row} (hrow : Fields.Tidy row) (c : Collection) :
    Fields.Tidy (c.withId row).1 := by
  unfold Collection.withId
  split
  · split <;> exact hrow
  · exact hrow.insert _ (Json.tidy_ofNat _)

theorem Writes.tidy (h : s.Writes request s') (hs : s.Tidy) (hr : request.Tidy) :
    TidyRows s'.collections := by
  cases h with
  | nothing => exact hs.now
  | @created record row checked =>
      have hrow := tidy_withId (Json.tidy_obj.mp hr) (s.collection record)
      exact hs.put record (List.forall_mem_append.mpr
        ⟨hs.rows record, List.forall_mem_singleton.mpr hrow⟩)
  | @updated record filter changes checked =>
      refine hs.put record fun row hrow => ?_
      obtain ⟨old, hold, rfl⟩ := List.mem_map.mp hrow
      split
      · exact (hs.rows record old hold).insertAll fun f hf => (Json.tidy_obj.mp hr.2).each hf
      · exact hs.rows record old hold
  | @deleted record filter =>
      exact hs.put record fun row hrow => hs.rows record row (List.mem_of_mem_filter hrow)

theorem Tidy.called {c : StoreCall} (h : s.Tidy) (hc : s.Called c s')
    (hr : ∀ request, c = .request request → request.Tidy) : s'.Tidy :=
  hc.keeping (fun hrequest hw => hw.tidy h (hr _ hrequest)) h

theorem Tidy.ensures_create (record : String) {payload : Json} (hpayload : payload.Tidy) :
    Ensures (fun answer => answer.1.Tidy) (s.create record payload) := by
  rintro ⟨v, s'⟩ h
  obtain ⟨row, rfl, -, rfl, -⟩ := writes_of_create h
  exact Json.tidy_obj.mpr (tidy_withId (Json.tidy_obj.mp hpayload) _)

theorem ensures_update (record : String) (filter changes : Json) :
    Ensures (fun answer => answer.1.Tidy) (s.update record filter changes) := by
  refine (Ensures.any _).bind fun fields _ => ?_
  cases changes with
  | obj overlay =>
      refine (Ensures.any _).bind fun overlay _ => (Ensures.any _).bind fun checked _ => ?_
      split <;> exact .ok (Json.tidy_ofNat _)
  | _ => exact .error _

theorem ensures_delete (record : String) (filter : Json) :
    Ensures (fun answer => answer.1.Tidy) (s.delete record filter) := by
  refine (Ensures.any _).bind fun fields _ => ?_
  dsimp only
  split <;> exact .ok (Json.tidy_ofNat _)

theorem Tidy.ensures_query (h : s.Tidy) (record : String) (filter : Json) :
    Ensures Json.Tidy (s.query record filter) := by
  refine (Ensures.any _).bind fun fields _ => .ok (Json.tidy_arr.mpr fun v hv => ?_)
  obtain ⟨row, hrow, rfl⟩ := List.mem_map.mp hv
  exact Json.tidy_obj.mpr (h.rows record row (List.mem_of_mem_filter hrow))

/-- Rows are handed out as they are kept; the other answers are numbers. -/
theorem Tidy.perform (h : s.Tidy) (hr : request.Tidy) :
    Outcome.Tidy (s.perform request).1 ∧ (s.perform request).2.Tidy := by
  refine ⟨?_, h.called (s.called (.request request)) (by rintro _ ⟨⟩; exact hr)⟩
  unfold Store.perform
  dsimp only
  split
  · rename_i v s' hanswer
    rintro _ ⟨⟩
    cases request with
    | create record payload => exact Tidy.ensures_create record hr _ hanswer
    | update record filter changes => exact ensures_update record filter changes _ hanswer
    | delete record filter => exact ensures_delete record filter _ hanswer
    | query record filter =>
        have hquery : Ensures (fun answer => Json.Tidy (Prod.fst answer))
            ((s.query record filter).map fun v => (v, s)) :=
          (h.ensures_query record filter).map fun v hv => hv
        exact hquery _ hanswer
  · rintro _ ⟨⟩

end Store

namespace ScriptedStore

variable {s s' : ScriptedStore} {handle : String}

theorem tidy_perform {request : RecordRequest} (h : s.store.Tidy) (hr : request.Tidy) :
    Outcome.Tidy (s.perform request).1 ∧ (s.perform request).2.store.Tidy := by
  rcases s.perform_cases request with ⟨⟨kind, message, houtcome⟩, hstore⟩ | ⟨houtcome, hstore⟩
  · rw [houtcome, hstore]
    exact ⟨(by rintro _ ⟨⟩), h⟩
  · rw [houtcome, hstore]
    exact h.perform hr

theorem tidy_snapshot (h : s.store.Tidy) (hs : s.snapshot = .ok (handle, s')) : s'.store.Tidy := by
  obtain ⟨-, rfl⟩ := snapshot_eq_ok hs
  exact h.called .taken (by rintro _ ⟨⟩)

theorem tidy_discard (h : s.store.Tidy) (hs : s.discard handle = .ok s') : s'.store.Tidy := by
  obtain ⟨-, rfl⟩ := discard_eq_ok hs
  have hcalled : s.store.Called (.discard handle) _ := .discarded
  exact h.called hcalled (by rintro _ ⟨⟩)

theorem tidy_restore (h : s.store.Tidy) (hs : s.restore handle = .ok s') : s'.store.Tidy := by
  obtain ⟨saved, hsaved, rfl⟩ := restore_eq_ok hs
  exact h.called (.restored hsaved) (by rintro _ ⟨⟩)

end ScriptedStore

/-! ## Tasks -/

/-- A call that is waited for comes back with a tidy outcome. -/
def Effect.Expects : Effect → Wait → Prop
  | .request _ _ _, .call _ outcome => outcome.Tidy
  | _, _ => True

@[simp] theorem Effect.expects_fresh (e : Effect) : e.Expects .fresh := by
  cases e <;> trivial

namespace TaskState

variable {α : Type} {P : α → Prop} {p : Program α}

def Tidy (P : α → Prop) : TaskState α → Prop
  | active p w => p.Obeys tidiness (fun _ => P) () ∧ ∀ e next, p = .perform e next → e.Expects w
  | ended a _ => P a

theorem tidy_fresh (h : p.Obeys tidiness (fun _ => P) ()) : (active p .fresh).Tidy P :=
  ⟨h, fun e _ _ => e.expects_fresh⟩

end TaskState

/-- The result of a task is tidy. -/
def TaskId.Gives : (t : TaskId) → t.Result → Prop
  | .branch _, r => Ensures Json.Tidy r
  | .main, r | .submission _, r => Fields.Tidy r.outputs

namespace Outline

variable {o o₁ : Outline} {w : Wait} {e : Effect}

structure Tidy (o : Outline) : Prop where
  tasks {t : TaskId} {state : TaskState t.Result} : o.task? t = some state → state.Tidy t.Gives
  store : o.store.store.Tidy

namespace Tidy

theorem congr (h : o.Tidy) (htasks : ∀ t, o₁.task? t = o.task? t) (hstore : o₁.store = o.store) :
    o₁.Tidy :=
  ⟨fun {t _} ht => h.tasks ((htasks t).symm.trans ht), hstore ▸ h.store⟩

theorem setTask (h : o.Tidy) {t : TaskId} {state : TaskState t.Result} (hs : state.Tidy t.Gives) :
    (o.setTask t state).Tidy := by
  refine ⟨fun {u state'} hu => ?_, by rw [setTask_store]; exact h.store⟩
  by_cases hut : u = t
  · subst hut
    rwa [eq_of_task?_setTask _ _ hu]
  · rw [task?_setTask_of_ne _ _ hut] at hu
    exact h.tasks hu

theorem spawn (h : o.Tidy) {bs : List Branch} (hbs : ∀ b ∈ bs, b.Tidy) :
    (o.spawn (bs.map Branch.program)).Tidy := by
  refine ⟨fun {t state} ht => ?_, h.store⟩
  rcases task?_of_spawn ht with hold | ⟨i, b, hb, rfl, hstate⟩
  · exact h.tasks hold
  · obtain rfl := eq_of_heq hstate
    exact TaskState.tidy_fresh (hbs b (List.mem_of_getElem? hb)).obeys

theorem branchResult? (h : o.Tidy) {n order : Nat} {r : Except Failure Json}
    (hr : o.branchResult? n = some (r, order)) : Ensures Json.Tidy r := by
  obtain ⟨state, hstate, hresult⟩ := Option.bind_eq_some_iff.mp hr
  have htidy := h.tasks (t := .branch n) hstate
  cases state with
  | active p w => cases hresult
  | ended r' order' =>
      cases hresult
      exact htidy

end Tidy

theorem Alters.tidy {turn : Turn e.Answer} (ha : o.Alters w e turn o₁) (h : o.Tidy) (he : e.Tidy) :
    o₁.Tidy := by
  cases ha with
  | spawned first => exact h.spawn he
  | performed => exact ⟨h.tasks, (ScriptedStore.tidy_perform h.store he).2⟩
  | begun begins =>
      obtain ⟨-, -, hsnapshot⟩ := TransactionSlot.begin_eq_ok begins
      exact ⟨h.tasks, ScriptedStore.tidy_snapshot h.store hsnapshot⟩
  | discarded discards => exact ⟨h.tasks, ScriptedStore.tidy_discard h.store discards⟩
  | restored restores => exact ⟨h.tasks, ScriptedStore.tidy_restore h.store restores⟩
  | _ => exact h.congr (fun t => by cases t <;> rfl) rfl

theorem Tidy.joined (h : o.Tidy) {tasks : List Nat} {outcomes : List BranchOutcome}
    (all : List.Forall₂ (fun n outcome => ∃ r k, o.branchResult? n = some (r, k) ∧
      outcome = .ofExcept r) tasks outcomes) : ∀ outcome ∈ outcomes, outcome.Tidy := by
  induction all with
  | nil => exact List.forall_mem_nil _
  | cons head rest ih =>
      obtain ⟨r, k, hr, rfl⟩ := head
      refine List.forall_mem_cons.mpr ⟨?_, ih⟩
      cases r with
      | ok v =>
          rintro _ ⟨⟩
          exact h.branchResult? hr v rfl
      | error f =>
          unfold BranchOutcome.ofExcept
          dsimp only
          split <;> rintro _ ⟨⟩

/-- The answers to all effects but requests are read off the outline. -/
theorem Polls.brings {a : e.Answer} (hp : o.Polls w o₁ e (.answered a)) (h : o.Tidy) (he : e.Tidy)
    (hne : ∀ run token request, e ≠ .request run token request) : e.Brings a := by
  cases e with
  | request run token request => exact absurd rfl (hne run token request)
  | join run policy group bs =>
      simp only [Polls] at hp
      split at hp
      · cases hp with
        | failed fast first => exact .error _
        | completed quiet all => exact .ok (h.joined all)
      · obtain ⟨-, ⟨hturn, -⟩ | ⟨-, hturn⟩⟩ := hp
        · cases hturn
          exact .ok (List.forall_mem_nil _)
        · cases hturn
  | closeRun run ending outputs =>
      simp only [Polls] at hp
      split at hp
      · obtain ⟨hturn, -⟩ := hp
        cases hturn
        exact .nil
      · obtain ⟨hturn, -⟩ := hp
        cases hturn
        exact he
  | awaitRun number =>
      obtain ⟨-, ⟨result, order, hended, hturn⟩ | ⟨w', hturn⟩⟩ := hp
      · cases hturn
        exact h.tasks (t := .submission number) hended
      · cases hturn
  | _ => trivial

end Outline

/-! ## Requests -/

namespace Machine

variable {m : Machine} {me : TaskId} {run : Nat} {token : Token} {request : Request}

structure Tidy (m : Machine) : Prop where
  replies (route : Route) (target : String) : (m.replies route target).Tidy
  store : m.world.store.store.Tidy

end Machine

/-- An effect gets a tidy answer, or it waits for one. -/
def Polled.Serves (e : Effect) : Polled e.Answer → Prop
  | answered a _ => e.Brings a
  | waiting w _ => e.Expects w

namespace Machine

variable {m : Machine} {me : TaskId} {run : Nat} {token : Token} {request : Request}

theorem Tidy.startRequest (h : m.Tidy) (hr : request.Tidy) :
    (m.startRequest me run token request).Serves (.request run token request) := by
  unfold Machine.startRequest
  cases request with
  | call route target inputs =>
      have houtcome := (h.replies route target).outcome target hr
      dsimp only
      split
      · exact .ok (houtcome _)
      · exact houtcome _
  | record operation =>
      dsimp only
      split
      · exact .ok (ScriptedStore.tidy_perform h.store hr).1
      · trivial

theorem Tidy.pollRequest (h : m.Tidy) (hr : request.Tidy) {wait : Wait}
    (hw : (Effect.request run token request).Expects wait) :
    (m.pollRequest me run token request wait).Serves (.request run token request) := by
  have hpoll := m.pollRequest_requests me run token request wait
  generalize m.pollRequest me run token request wait = polled at hpoll ⊢
  cases hpoll with
  | refused | leaves | abandoned => exact .error _
  | starts =>
      have hm : ∀ gate, (m.setGate run gate).Tidy := fun gate => ⟨h.replies, h.store⟩
      exact (hm _).startRequest hr
  | queues | queued | unsuited => trivial
  | waits => exact hw
  | replied => exact .ok hw
  | performed record =>
      subst record
      exact .ok (ScriptedStore.tidy_perform h.store hr).1

theorem Tidy.poll (h : m.Tidy) {main : TaskState RunResult} (ho : (m.outline main).Tidy) {e : Effect}
    (he : e.Tidy) {wait : Wait} (hw : e.Expects wait) : (m.poll me wait e).Serves e := by
  by_cases hrequest : ∃ run token request, e = .request run token request
  · obtain ⟨run, token, request, rfl⟩ := hrequest
    exact h.pollRequest he hw
  · have hne : ∀ run token request, e ≠ .request run token request :=
      fun run token request heq => hrequest ⟨run, token, request, heq⟩
    have hpolls := m.poll_outline main me wait e
    generalize m.poll me wait e = polled at hpolls ⊢
    cases polled with
    | answered a m' => exact hpolls.brings ho he hne
    | waiting w m' =>
        unfold Polled.Serves Effect.Expects
        dsimp only
        split
        · exact absurd rfl (hne _ _ _)
        · trivial

end Machine

/-! ## Steps -/

structure System.Tidy (s : System RunResult) : Prop where
  replies (route : Route) (target : String) : (s.machine.replies route target).Tidy
  outline : s.outline.Tidy

namespace System.Tidy

variable {s s' : System RunResult}

theorem machine (h : s.Tidy) : s.machine.Tidy := ⟨h.replies, h.outline.store⟩

theorem turn (h : s.Tidy) {t : TaskId} {state state' : TaskState t.Result} {goesOn : Bool} {m : Machine}
    (hs : s.task? t = some state) (hstep : state.step t s.machine = (state', goesOn, m)) :
    (m.outline s.main).Tidy ∧ state'.Tidy t.Gives := by
  have hstate := h.outline.tasks ((task?_outline t).trans hs)
  cases state with
  | ended a order =>
      cases hstep
      exact ⟨h.outline, hstate⟩
  | active p w =>
      cases p with
      | pure a =>
          cases hstep
          exact ⟨h.outline, hstate.1⟩
      | perform e next =>
          obtain ⟨⟨he, hnext⟩, hw⟩ := hstate
          have hpolls := s.machine.poll_outline s.main t w e
          have hserves : (s.machine.poll t w e).Serves e := h.machine.poll h.outline he (hw e next rfl)
          rw [TaskState.step_perform] at hstep
          cases hstep
          refine ⟨hpolls.alters.tidy h.outline he, ?_⟩
          generalize s.machine.poll t w e = polled at hserves ⊢
          cases polled with
          | answered a m' => exact TaskState.tidy_fresh (hnext a () hserves)
          | waiting w' m' =>
              refine ⟨⟨he, hnext⟩, ?_⟩
              rintro _ _ ⟨⟩
              exact hserves

theorem step? (h : s.Tidy) (hs : s.step? = some s') : s'.Tidy := by
  have hmove : s.Moves {} s.occurrences s' := .step hs
  refine ⟨fun route target => hmove.replies ▸ h.replies route target, ?_⟩
  cases running : s.machine.running with
  | none =>
      rcases step?_outline_of_idle hs running with ⟨t, ho⟩ | ⟨tokens, ho⟩
      · exact h.outline.congr (fun u => by rw [ho]; cases u <;> rfl) (by rw [ho])
      · exact h.outline.congr (fun u => by rw [ho]; cases u <;> rfl) (by rw [ho])
  | some t =>
      cases active : s.task? t with
      | none =>
          rw [step?_of_missing hs running active]
          exact h.outline.congr (fun u => by cases u <;> rfl) rfl
      | some state =>
          rcases hstep : state.step t s.machine with ⟨state', goesOn, m⟩
          obtain ⟨hm, hstate⟩ := h.turn active hstep
          have hset := hm.setTask hstate
          rw [step?_outline hs running active hstep]
          cases goesOn with
          | true => exact hset
          | false => exact hset.congr (fun u => by cases u <;> rfl) rfl

/-- However many steps it takes, the main task ends with a tidy result on a tidy machine. -/
theorem run (h : s.Tidy) {fuel : Nat} {r : RunResult} {m : Machine} (hr : s.run fuel = some (r, m)) :
    Fields.Tidy r.outputs ∧ ∃ order, System.Tidy ⟨m, .ended r order⟩ := by
  obtain ⟨machine, main⟩ := s
  induction fuel generalizing machine main with
  | zero =>
      cases main with
      | active p w => cases hr
      | ended r' order =>
          cases hr
          exact ⟨h.outline.tasks (t := .main) rfl, order, h⟩
  | succ fuel ih =>
      cases main with
      | active p w =>
          obtain ⟨⟨machine', main'⟩, hstep, hr⟩ := Option.bind_eq_some_iff.mp hr
          exact ih machine' main' (h.step? hstep) hr
      | ended r' order =>
          cases hr
          exact ⟨h.outline.tasks (t := .main) rfl, order, h⟩

end System.Tidy
end FlowEngine
