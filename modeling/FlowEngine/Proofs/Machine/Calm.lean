import FlowEngine.Proofs.Machine.Heeding
import FlowEngine.Proofs.Machine.Advance
import FlowEngine.Proofs.Program.Alone

/-!
# Machines on which nothing is cancelled

On a calm machine no token was cancelled and no timer is going to cancel one, and the
collaborators and the record store answer a request as the request determines. The polls of
effects that disturb nothing keep it calm, and what they answer is determined, too.
-/
namespace FlowEngine

/-- The answer to a request depends on nothing but the request, however many calls were made. -/
structure World.Replies (w : World) (reply : Request → Outcome) : Prop where
  calls (route : Route) (target : String) (inputs : Json) (number : Nat) :
    ((Machine.collaborator w route).reply target).outcome target inputs number =
      reply (.call route target inputs)
  queries (record : String) (filter : Json) (made : List (RecordOp × Nat)) :
    (ScriptedStore.perform { w.store with calls := made } (.query record filter)).1 =
      reply (.record (.query record filter))

def Effect.Awaits (reply : Request → Outcome) : Effect → Wait → Prop
  | .request _ _ r, .call _ outcome => outcome = reply r
  | _, _ => True

def Effect.Attends : Effect → Prop
  | .acquireSlot | .releaseSlot | .openRun _ _ | .awaitRun _ => True
  | _ => False

@[simp] theorem Effect.awaits_fresh (reply : Request → Outcome) (e : Effect) :
    e.Awaits reply .fresh := by
  cases e <;> trivial

namespace Machine

variable (m : Machine)

/-! ## What many operations leave alone -/

def still (m : Machine) : List Token × List Timer × World := (m.cancelled, m.timers, m.world)

theorem still_of_shared {m m' : Machine} (h : m'.shared = m.shared) : m'.still = m.still := by
  change m'.shared.still = m.shared.still
  rw [h]

@[simp] theorem still_wake (t : TaskId) : (m.wake t).still = m.still :=
  still_of_shared (m.shared_wake t)

@[simp] theorem still_wakeIfSome (t : Option TaskId) : (m.wakeIfSome t).still = m.still :=
  still_of_shared (m.shared_wakeIfSome t)

theorem outsider_still : Outsider still where
  observers _ _ := rfl
  branches _ _ := rfl
  stragglers _ _ _ := rfl
  wake := still_wake

@[simp] theorem still_observe (token : Token) (t : TaskId) : (m.observe token t).still = m.still :=
  outsider_still.observe m token t

@[simp] theorem still_releasePermit (run : Nat) : (m.releasePermit run).still = m.still := by
  unfold releasePermit
  split
  · rfl
  · exact still_wakeIfSome _ _

@[simp] theorem still_mark (run : Nat) (step : String) (status : Option StepStatus) :
    (m.mark run step status).2.still = m.still := by
  unfold mark
  split <;> rfl

theorem still_closeRun (run : Nat) (ending : Ending) (outputs : List (String × Json)) :
    (m.closeRun run ending outputs).2.still = m.still := by
  unfold closeRun
  split <;> rfl

end Machine

/-! ## Worlds -/

namespace World.Replies

variable {w : World} {reply : Request → Outcome}

/-- Calls that start or end change nothing about the answers. -/
theorem setCollaborator (h : w.Replies reply) {route : Route} {c : Collaborator}
    (hreply : ∀ target, c.reply target = (Machine.collaborator w route).reply target) :
    (Machine.setCollaborator w route c).Replies reply := by
  constructor
  · intro other target inputs number
    rw [← h.calls other target inputs number]
    congr 1
    cases route <;> cases other <;> cases ha : w.agents <;>
      simp_all [Machine.collaborator, Machine.setCollaborator]
  · intro record filter made
    rw [← h.queries record filter made]
    cases route <;> simp only [Machine.setCollaborator]
    split <;> rfl

theorem store_of_query (s : ScriptedStore) (record : String) (filter : Json)
    (made : List (RecordOp × Nat)) :
    { (s.perform (.query record filter)).2 with calls := made } = { s with calls := made } := by
  have hrows (rows : Store) : (rows.perform (.query record filter)).2 = rows := by
    simp only [Store.perform]
    cases rows.query record filter <;> rfl
  unfold ScriptedStore.perform
  dsimp only
  split
  · rfl
  · simp only [hrows]

/-- A store with the same script and the same collections answers in the same way. -/
theorem setStore (h : w.Replies reply) {store : ScriptedStore} (hscript : store.script = w.store.script)
    (hcollections : store.store.collections = w.store.store.collections) :
    World.Replies { w with store } reply := by
  refine ⟨h.calls, fun record filter made => ?_⟩
  rw [← h.queries record filter made]
  have hrows : (store.store.perform (.query record filter)).1 =
      (w.store.store.perform (.query record filter)).1 := by
    simp only [Store.perform, Store.query, Store.rows, Store.collection, hcollections]
    cases Store.filterFields filter <;> rfl
  have hfailure (calls : List (RecordOp × Nat)) (op : RecordOp) (call : Nat) :
      ScriptedStore.failure? { store with calls } op call =
        ScriptedStore.failure? { w.store with calls } op call := by
    simp only [ScriptedStore.failure?, hscript]
  simp only [ScriptedStore.perform, ScriptedStore.callCount, hfailure]
  split
  · rfl
  · exact hrows

theorem perform (h : w.Replies reply) {request : RecordRequest} (hop : request.op = .query) :
    (w.store.perform request).1 = reply (.record request) ∧
      World.Replies { w with store := (w.store.perform request).2 } reply := by
  cases request with
  | query record filter =>
      refine ⟨h.queries record filter w.store.calls, h.calls, fun record' filter' made => ?_⟩
      rw [← h.queries record' filter' made]
      exact congrArg (fun s => (ScriptedStore.perform s _).1) (store_of_query w.store record filter made)
  | _ => cases hop

end World.Replies

/-- Nothing was cancelled or is going to be, and requests get the answers that they determine. -/
structure Machine.Calm (m : Machine) (reply : Request → Outcome) : Prop where
  uncancelled : m.cancelled = []
  alarms {x : Timer} : x ∈ m.timers → ∃ t, x.alarm = .wake t
  replies : m.world.Replies reply

def Polled.Stays {α : Type} (reply : Request → Outcome) (answers : α → Prop)
    (waits : Wait → Prop) : Polled α → Prop
  | .answered a m => m.Calm reply ∧ answers a
  | .waiting w m => m.Calm reply ∧ waits w

theorem Polled.Stays.mono {α : Type} {reply : Request → Outcome} {answers answers' : α → Prop}
    {waits : Wait → Prop} {p : Polled α} (h : p.Stays reply answers waits)
    (hanswers : ∀ a, answers a → answers' a) : p.Stays reply answers' waits := by
  cases p with
  | answered a m => exact ⟨h.1, hanswers a h.2⟩
  | waiting w m => exact h

namespace Machine

variable {m m' : Machine} {reply : Request → Outcome} {me : TaskId} {run : Nat} {token : Token}
  {request : Request}

namespace Calm

theorem of_still (h : m.Calm reply) (hm : m'.still = m.still) : m'.Calm reply := by
  obtain ⟨hcancelled, htimers, hworld⟩ : m'.cancelled = m.cancelled ∧ m'.timers = m.timers ∧
      m'.world = m.world := by simpa [still] using hm
  exact ⟨hcancelled.trans h.uncancelled, fun hx => h.alarms (htimers ▸ hx), hworld ▸ h.replies⟩

theorem not_cancelled (h : m.Calm reply) (token : Token) : m.isCancelled token = false := by
  rw [isCancelled, h.uncancelled]
  rfl

theorem schedule (h : m.Calm reply) (span : Nat) (t : TaskId) :
    (m.schedule span (.wake t)).2.Calm reply where
  uncancelled := h.uncancelled
  alarms hx := by
    rcases List.mem_append.mp hx with hx | hx
    · exact h.alarms hx
    · rw [List.mem_singleton.mp hx]
      exact ⟨t, rfl⟩
  replies := h.replies

/-! ## Requests -/

theorem hangUp (h : m.Calm reply) (request : Request) : (m.hangUp request).Calm reply := by
  cases request with
  | record _ => exact h
  | call route target inputs =>
      exact ⟨h.uncancelled, h.alarms, h.replies.setCollaborator fun _ => rfl⟩

theorem answerRequest (h : m.Calm reply) (waits : Wait → Prop) :
    (m.answerRequest me run request (reply request)).Stays reply (· = .ok (reply request)) waits :=
  ⟨(h.hangUp request).of_still (still_releasePermit _ run), rfl⟩

theorem operate (h : m.Calm reply) {operation : RecordRequest} (hop : operation.op = .query) :
    (m.operate operation).1 = reply (.record operation) ∧ (m.operate operation).2.Calm reply :=
  ⟨(h.replies.perform hop).1, h.uncancelled, h.alarms, (h.replies.perform hop).2⟩

theorem startRequest (h : m.Calm reply) (hreads : request.Reads) :
    (m.startRequest me run token request).Stays reply (· = .ok (reply request))
      ((Effect.request run token request).Awaits reply) := by
  have hforget : (m.forget me).Calm reply := h.of_still rfl
  unfold Machine.startRequest
  cases request with
  | call route target inputs =>
      have houtcome := hforget.replies.calls route target inputs
      have hcalled : ((m.forget me).modifyWorld fun w => setCollaborator w route
          ((collaborator (m.forget me).world route).start target inputs).2.2).Calm reply :=
        ⟨h.uncancelled, h.alarms, h.replies.setCollaborator fun _ => rfl⟩
      dsimp only [Collaborator.start] at hcalled ⊢
      rw [houtcome]
      split
      · exact hcalled.answerRequest _
      · exact ⟨(hcalled.schedule _ me).of_still (still_observe _ token me), rfl⟩
  | record operation =>
      dsimp only
      split
      · obtain ⟨houtcome, hm⟩ := hforget.operate (show operation.op = .query from hreads)
        rw [houtcome]
        exact hm.answerRequest _
      · exact ⟨(hforget.schedule _ me).of_still (still_observe _ token me), trivial⟩

theorem pollRequest (h : m.Calm reply) (hreads : request.Reads) (hrun : run < m.runs.size)
    {wait : Wait} (hwait : (Effect.request run token request).Awaits reply wait) :
    (m.pollRequest me run token request wait).Stays reply (· = .ok (reply request))
      ((Effect.request run token request).Awaits reply) := by
  have hnot := h.not_cancelled token
  have hpoll := m.pollRequest_requests me run token request wait
  generalize m.pollRequest me run token request wait = polled at hpoll ⊢
  cases hpoll with
  | refused first why => exact absurd (why hnot) (by simp [hrun])
  | leaves cancelled => cases hnot.symm.trans cancelled
  | abandoned awaited cancelled => cases hnot.symm.trans cancelled
  | starts valid there taken => exact startRequest (h.of_still rfl) hreads
  | queues => exact ⟨h.of_still (still_observe _ _ _), trivial⟩
  | queued | unsuited => exact ⟨h, trivial⟩
  | waits => exact ⟨h, hwait⟩
  | replied valid fired =>
      rw [show _ = reply request from hwait]
      exact h.answerRequest _
  | performed record valid fired =>
      subst record
      obtain ⟨houtcome, hm⟩ := h.operate (show _ = RecordOp.query from hreads)
      rw [houtcome]
      exact hm.answerRequest _

/-! ## All effects -/

theorem pollSleep (h : m.Calm reply) (token : Option Token) (span : Nat) (wait : Wait) :
    (m.pollSleep me token span wait).Stays reply (· = true)
      ((Effect.sleep token span).Awaits reply) := by
  have hnot : m.interrupts token = false := by
    cases token with
    | none => rfl
    | some token => exact h.not_cancelled token
  have hpoll := m.pollSleep_sleeps me token span wait
  generalize m.pollSleep me token span wait = polled at hpoll ⊢
  cases hpoll with
  | refused first cut => cases hnot.symm.trans cut
  | interrupted cut => cases hnot.symm.trans cut
  | instant => exact ⟨h, rfl⟩
  | starts =>
      cases token with
      | none => exact ⟨h.schedule span me, trivial⟩
      | some t => exact ⟨(h.schedule span me).of_still (still_observe _ t me), trivial⟩
  | waits => exact ⟨h, trivial⟩
  | woken => exact ⟨h.of_still rfl, rfl⟩

theorem stays_of_still {α : Type} (h : m.Calm reply) {p : Polled α}
    (hp : p.machine.still = m.still) {answers : α → Prop} (ha : ∀ a, answers a) {waits : Wait → Prop}
    (hw : ∀ w, waits w) : p.Stays reply answers waits := by
  cases p with
  | answered a m' => exact ⟨h.of_still hp, ha a⟩
  | waiting w m' => exact ⟨h.of_still hp, hw w⟩

/-- The poll of an effect that can be answered undisturbed or is a join that waits for all its
branches. -/
theorem poll (h : m.Calm reply) {e : Effect} {wait : Wait} (hwait : e.Awaits reply wait)
    (hquiet : (∃ a, e.Undisturbed reply a) ∨ ∃ run group bs, e = .join run .waitAll group bs)
    (hrun : ∀ run token request, e = .request run token request → run < m.runs.size)
    (hclose : ∀ run ending outputs, e = .closeRun run ending outputs →
      (Effect.closeRun run ending outputs).Undisturbed reply (m.closeRun run ending outputs).1) :
    (m.poll me wait e).Stays reply
      (fun a => e.Undisturbed reply a ∨ ∃ run group bs, e = .join run .waitAll group bs)
      (e.Awaits reply) := by
  rcases hquiet with ⟨a, ha⟩ | ⟨run, group, bs, rfl⟩
  · cases e with
    | isCancelled token => exact ⟨h, Or.inl (h.not_cancelled token)⟩
    | childToken token => exact ⟨h.of_still rfl, Or.inl trivial⟩
    | note run entry => exact ⟨h.of_still rfl, Or.inl trivial⟩
    | startSpan ctx step => exact ⟨h.of_still (m.still_mark _ _ _), Or.inl trivial⟩
    | endSpan ctx step status => exact ⟨h.of_still (m.still_mark _ _ _), Or.inl trivial⟩
    | request run token request =>
        exact (h.pollRequest ha.1 (hrun _ _ _ rfl) hwait).mono fun b hb => Or.inl ⟨ha.1, hb⟩
    | sleep token span => exact (h.pollSleep token span wait).mono fun b hb => Or.inl hb
    | settle run token =>
        exact h.stays_of_still (outsider_still.pollSettle m me run token wait) (fun _ => Or.inl trivial)
          fun _ => trivial
    | closeRun run ending outputs =>
        exact ⟨h.of_still (m.still_closeRun run ending outputs), Or.inl (hclose _ _ _ rfl)⟩
    | _ => exact ha.elim
  · have hjoin := outsider_still.pollJoin .waitAll nofun m me run group bs wait
    exact h.stays_of_still hjoin (fun _ => Or.inr ⟨_, _, _, rfl⟩) fun _ => trivial

/-! ## Slots and runs -/

/-- Whoever opens a run, or waits for a slot or for another run, leaves the machine calm. -/
theorem attends (h : m.Calm reply) {e : Effect} (he : e.Attends) (wait : Wait) :
    (m.poll me wait e).Stays reply (fun _ => True) (e.Awaits reply) := by
  cases e with
  | acquireSlot =>
      refine h.stays_of_still ?_ (fun _ => trivial) fun _ => trivial
      change (m.pollSlot me wait).machine.still = m.still
      unfold Machine.pollSlot
      split <;> split <;> rfl
  | releaseSlot =>
      exact ⟨h.of_still (still_wakeIfSome { m with slots := m.slots.release.1 } m.slots.release.2), trivial⟩
  | openRun flow parent => exact ⟨h.of_still rfl, trivial⟩
  | awaitRun submission =>
      refine h.stays_of_still ?_ (fun _ => trivial) fun _ => trivial
      change (m.pollRun me submission).machine.still = m.still
      unfold Machine.pollRun
      split <;> rfl
  | _ => exact he.elim

/-! ## Transactions -/

theorem setStore (h : m.Calm reply) {store : ScriptedStore}
    (hscript : store.script = m.world.store.script)
    (hcollections : store.store.collections = m.world.store.store.collections) :
    (m.setStore store).Calm reply :=
  ⟨h.uncancelled, h.alarms, h.replies.setStore hscript hcollections⟩

/-- A transaction whose run has no open snapshot gets what the store says. -/
theorem beginTransaction (h : m.Calm reply) (hslot : m.runs[run]?.elim .empty ActiveRun.slot = .empty)
    (waits : Wait → Prop) :
    (m.beginTransaction run).Stays reply m.world.store.script.Opens waits := by
  unfold Machine.beginTransaction
  dsimp only
  rw [hslot]
  cases htext : m.world.store.script.snapshotError with
  | some text =>
      have hbegin : TransactionSlot.empty.begin m.world.store = .error (.store text) := by
        simp only [TransactionSlot.begin, TransactionSlot.empty, ScriptedStore.snapshot, htext]
        rfl
      rw [hbegin]
      exact ⟨h, text, htext, rfl⟩
  | none =>
      have hbegin : TransactionSlot.empty.begin m.world.store = .ok (m.world.store.store.snapshot.1,
          ⟨some m.world.store.store.snapshot.1⟩,
          { m.world.store with store := m.world.store.store.snapshot.2 }) := by
        simp only [TransactionSlot.begin, TransactionSlot.empty, ScriptedStore.snapshot, htext]
        rfl
      rw [hbegin]
      have hheld : (m.setSlot run ⟨some m.world.store.store.snapshot.1⟩).Calm reply := h.of_still rfl
      exact ⟨hheld.setStore rfl rfl, htext⟩

theorem releaseTransaction (h : m.Calm reply) {handle : String}
    (hslot : (m.runs[run]?.elim .empty ActiveRun.slot).held = some handle) (waits : Wait → Prop) :
    (m.releaseTransaction run handle).Stays reply (· = .ok ()) waits := by
  unfold Machine.releaseTransaction
  dsimp only
  rw [TransactionSlot.release_of_held hslot]
  exact ⟨h.of_still rfl, rfl⟩

theorem discardSnapshot (h : m.Calm reply) {handle : String}
    (hsaved : (m.world.store.store.saved? handle).isSome) (waits : Wait → Prop) :
    (m.storeAnswer (m.world.store.discard handle)).Stays reply
      (· = StoreScript.obliges m.world.store.script.discardError) waits := by
  cases htext : m.world.store.script.discardError with
  | none =>
      rw [ScriptedStore.discard_of_saved htext hsaved]
      exact ⟨h.setStore rfl rfl, rfl⟩
  | some text =>
      unfold ScriptedStore.discard
      rw [htext]
      exact ⟨h, rfl⟩

theorem restoreSnapshot (h : m.Calm reply) {handle : String}
    (hsaved : m.world.store.store.saved? handle = some m.world.store.store.collections)
    (waits : Wait → Prop) : (m.storeAnswer (m.world.store.restore handle)).Stays reply
      (· = StoreScript.obliges m.world.store.script.restoreError) waits := by
  cases htext : m.world.store.script.restoreError with
  | none =>
      rw [ScriptedStore.restore_of_saved htext hsaved]
      exact ⟨h.setStore rfl rfl, rfl⟩
  | some text =>
      unfold ScriptedStore.restore
      rw [htext]
      exact ⟨h, rfl⟩

theorem rings (h : m.Calm reply) {fired : List Timer} (hfired : ∀ x ∈ fired, ∃ t, x.alarm = .wake t) :
    (fired.foldl (fun m x => m.ring x.alarm) m).Calm reply := by
  induction fired generalizing m with
  | nil => exact h
  | cons x rest ih =>
      obtain ⟨t, ht⟩ := hfired x List.mem_cons_self
      have hring : m.ring x.alarm = m.wake t := by rw [ht]; rfl
      refine ih (m := m.ring x.alarm) ?_ fun y hy => hfired y (List.mem_cons_of_mem x hy)
      exact hring ▸ h.of_still (still_wake m t)

theorem advanceClock? (h : m.Calm reply) (hm : m.advanceClock? = some m') : m'.Calm reply := by
  obtain ⟨due, rfl⟩ := m.advanceClock?_eq hm
  refine rings ?_ fun x hx => h.alarms (List.mem_filter.mp hx).1
  exact ⟨h.uncancelled, fun hx => h.alarms (List.mem_filter.mp hx).1, h.replies⟩

end Calm

end Machine
end FlowEngine
