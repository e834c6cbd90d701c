import FlowEngine.Proofs.Store.Snapshots
import FlowEngine.Transaction
import Mathlib.Data.List.Induction

/-!
# Several branches at one slot

The calls of a slot, cut at the points where a branch can be interrupted. A call that
opens keeps the slot locked from its look at the slot until its snapshot is in it. A call
that closes empties the slot under the lock and reaches the store in a step of its own,
so another branch may take a snapshot in between: `restored_row_returns` is such a run.
Where no snapshot is taken in between, what a rollback puts back is what the store held
at some moment after the rollback before it (`restored_of_orderly`).
-/
namespace FlowEngine
namespace SharedSlot

inductive Closure where
  | discard
  | restore
deriving DecidableEq

def Closure.perform : Closure → ScriptedStore → String → Except EngineError ScriptedStore
  | discard => ScriptedStore.discard
  | restore => ScriptedStore.restore

inductive Stage where
  | idle
  | opening
  | opened (answer : Except EngineError String)
  | closing (closure : Closure) (handle : String)
  | closed (answer : Except EngineError Unit)

namespace Stage

def isFree : Stage → Bool
  | idle | opened _ | closed _ => true
  | opening | closing _ _ => false

def locks : Stage → Bool
  | opening => true
  | _ => false

def released? : Stage → Option String
  | closing _ handle => some handle
  | _ => none

end Stage

end SharedSlot

open SharedSlot in
/-- A slot and its store in use by some branches. -/
structure SharedSlot (branches : Nat) where
  slot : TransactionSlot
  store : ScriptedStore
  stage : Fin branches → Stage

namespace SharedSlot

variable {n : Nat}

def unused (n : Nat) (store : ScriptedStore) : SharedSlot n := ⟨.empty, store, fun _ => .idle⟩

/-- What happens between two points at which a branch can be interrupted. -/
inductive Event (n : Nat) where
  | opens (branch : Fin n)
  | saves (branch : Fin n)
  | releases (branch : Fin n) (closure : Closure) (handle : String)
  | closes (branch : Fin n)
  | asks (request : RecordRequest)

def Event.isSave : Event n → Bool
  | .saves _ => true
  | _ => false

def goto (s : SharedSlot n) (branch : Fin n) (stage : Stage) : SharedSlot n :=
  { s with stage := fun b => if b = branch then stage else s.stage b }

def Admits (s : SharedSlot n) (branch : Fin n) : Prop :=
  (s.stage branch).isFree ∧ ∀ b, (s.stage b).locks = false

instance (s : SharedSlot n) (branch : Fin n) : Decidable (s.Admits branch) :=
  inferInstanceAs (Decidable (_ ∧ _))

def step (s : SharedSlot n) : Event n → Option (SharedSlot n)
  | .opens branch =>
    if s.Admits branch then
      match s.slot.held with
      | some handle =>
        some (s.goto branch (.opened (.error (TransactionSlot.Fault.taken handle).toError)))
      | none => some (s.goto branch .opening)
    else none
  | .saves branch =>
    match s.stage branch with
    | .opening =>
      match s.store.snapshot with
      | .ok (handle, store) =>
        some { s.goto branch (.opened (.ok handle)) with slot := ⟨some handle⟩, store }
      | .error e => some (s.goto branch (.opened (.error e)))
    | _ => none
  | .releases branch closure handle =>
    if s.Admits branch then
      match s.slot.release handle with
      | .ok slot => some { s.goto branch (.closing closure handle) with slot }
      | .error e => some (s.goto branch (.closed (.error e)))
    else none
  | .closes branch =>
    match s.stage branch with
    | .closing closure handle =>
      match closure.perform s.store handle with
      | .ok store => some { s.goto branch (.closed (.ok ())) with store }
      | .error e => some (s.goto branch (.closed (.error e)))
    | _ => none
  | .asks request => some { s with store := (s.store.perform request).2 }

def run (s : SharedSlot n) (events : List (Event n)) : Option (SharedSlot n) := events.foldlM step s

variable {s s' u : SharedSlot n} {branch other : Fin n} {handle : String} {closure : Closure}

@[simp] theorem goto_slot (stage : Stage) : (s.goto branch stage).slot = s.slot := rfl

@[simp] theorem goto_store (stage : Stage) : (s.goto branch stage).store = s.store := rfl

@[simp] theorem goto_stage_self (stage : Stage) : (s.goto branch stage).stage branch = stage :=
  if_pos rfl

theorem goto_stage_of_ne (stage : Stage) (h : other ≠ branch) :
    (s.goto branch stage).stage other = s.stage other :=
  if_neg h

@[simp] theorem goto_goto (first second : Stage) :
    (s.goto branch first).goto branch second = s.goto branch second := by
  unfold goto
  congr 1
  funext b
  dsimp only
  split
  · rfl
  · rfl

@[simp] theorem run_nil : s.run [] = some s := rfl

theorem run_append (first second : List (Event n)) :
    s.run (first ++ second) = (s.run first).bind fun u => u.run second :=
  List.foldlM_append

theorem run_concat {events : List (Event n)} {event : Event n} (h : s.run (events ++ [event]) = some s') :
    ∃ u, s.run events = some u ∧ u.step event = some s' := by
  rw [run_append] at h
  obtain ⟨u, hu, hstep⟩ := Option.bind_eq_some_iff.mp h
  refine ⟨u, hu, ?_⟩
  simpa [run] using hstep

/-! ### Calls that nobody interrupts -/

theorem exists_run_begin (h : s.Admits branch) : ∃ rest,
    s.run (.opens branch :: rest) = some (match s.slot.begin s.store with
      | .ok (handle, slot, store) => { s.goto branch (.opened (.ok handle)) with slot, store }
      | .error e => s.goto branch (.opened (.error e))) := by
  cases hheld : s.slot.held with
  | some held =>
      refine ⟨[], ?_⟩
      simp [run, step, h, hheld, TransactionSlot.begin]
  | none =>
      refine ⟨[.saves branch], ?_⟩
      cases hs : s.store.snapshot with
      | error e => simp [run, step, h, hheld, hs, TransactionSlot.begin, Bind.bind, Except.bind]
      | ok taken =>
          simp [run, step, h, hheld, hs, TransactionSlot.begin, Bind.bind, Except.bind, Pure.pure, Except.pure]

def Closure.close (slot : TransactionSlot) (store : ScriptedStore) (handle : String) :
    Closure → Except EngineError ScriptedStore × TransactionSlot
  | discard => slot.commit store handle
  | restore => slot.rollback store handle

theorem Closure.close_of_refused {slot : TransactionSlot} {e : EngineError} (store : ScriptedStore)
    (closure : Closure) (h : slot.release handle = .error e) :
    closure.close slot store handle = (.error e, slot) := by
  cases closure with
  | discard => simp [close, TransactionSlot.commit, h]
  | restore => simp [close, TransactionSlot.rollback, h]

theorem Closure.close_of_released {slot emptied : TransactionSlot} (store : ScriptedStore)
    (closure : Closure) (h : slot.release handle = .ok emptied) :
    closure.close slot store handle = (closure.perform store handle, emptied) := by
  cases closure with
  | discard => simp [close, TransactionSlot.commit, perform, h]
  | restore => simp [close, TransactionSlot.rollback, perform, h]

theorem step_closes (h : s.stage branch = .closing closure handle) :
    s.step (.closes branch) = some (match closure.perform s.store handle with
      | .ok store => { s.goto branch (.closed (.ok ())) with store }
      | .error e => s.goto branch (.closed (.error e))) := by
  simp only [step, h]
  cases closure.perform s.store handle with
  | error e => rfl
  | ok store => rfl

theorem exists_run_close (h : s.Admits branch) (closure : Closure) (handle : String) : ∃ rest,
    s.run (.releases branch closure handle :: rest) =
      some (match closure.close s.slot s.store handle with
        | (.ok store, slot) => { s.goto branch (.closed (.ok ())) with slot, store }
        | (.error e, slot) => { s.goto branch (.closed (.error e)) with slot }) := by
  cases hslot : s.slot.release handle with
  | error e =>
      refine ⟨[], ?_⟩
      rw [Closure.close_of_refused _ _ hslot]
      simp [run, step, h, hslot]
      rfl
  | ok emptied =>
      refine ⟨[.closes branch], ?_⟩
      rw [Closure.close_of_released _ _ hslot]
      obtain ⟨u, hu⟩ : ∃ u, u = { s.goto branch (.closing closure handle) with slot := emptied } :=
        ⟨_, rfl⟩
      have hreleases : s.step (.releases branch closure handle) = some u := by
        simp [step, h, hslot, hu]
      have hstage : u.stage branch = .closing closure handle := by
        rw [hu]
        exact goto_stage_self _
      have hagain (stage : Stage) (store : ScriptedStore) :
          { u.goto branch stage with store } = { s.goto branch stage with slot := emptied, store } := by
        rw [hu]
        exact congrArg (fun v : SharedSlot n => { v with slot := emptied, store }) (goto_goto _ stage)
      have hrun : s.run [.releases branch closure handle, .closes branch] =
          u.step (.closes branch) := by
        rw [run, List.foldlM_cons, hreleases]
        simp [List.foldlM]
      have hstore : u.store = s.store := by rw [hu]; rfl
      rw [hrun, step_closes hstage, hstore]
      cases closure.perform s.store handle with
      | ok store => exact congrArg some (hagain _ store)
      | error e =>
          subst hu
          exact congrArg some (hagain _ s.store)

/-! ### What one event does -/

/-- What an event does: a branch goes on without a word to the store, a snapshot is saved into
the slot, the slot is emptied, a transaction is closed in the store, or rows are operated on. -/
theorem step_cases {event : Event n} (h : s.step event = some s') :
    (∃ b stage, stage.released? = none ∧ s' = s.goto b stage) ∨
    (∃ b handle store, event = .saves b ∧ s.store.snapshot = .ok (handle, store) ∧
      s' = { s.goto b (.opened (.ok handle)) with slot := ⟨some handle⟩, store }) ∨
    (∃ b closure handle, s.slot.held = some handle ∧ (s.stage b).isFree ∧
      s' = { s.goto b (.closing closure handle) with slot := .empty }) ∨
    (∃ b closure handle store, event = .closes b ∧ s.stage b = .closing closure handle ∧
      closure.perform s.store handle = .ok store ∧
      s' = { s.goto b (.closed (.ok ())) with store }) ∨
    ∃ request, s' = { s with store := (s.store.perform request).2 } := by
  cases event with
  | opens b =>
      simp only [step] at h
      split at h
      · split at h
        · cases h
          exact Or.inl ⟨b, _, rfl, rfl⟩
        · cases h
          exact Or.inl ⟨b, _, rfl, rfl⟩
      · cases h
  | saves b =>
      simp only [step] at h
      split at h
      · split at h
        · rename_i handle store hs
          cases h
          exact Or.inr (Or.inl ⟨b, handle, store, rfl, hs, rfl⟩)
        · cases h
          exact Or.inl ⟨b, _, rfl, rfl⟩
      · cases h
  | releases b closure handle =>
      simp only [step] at h
      split at h
      · rename_i hadmits
        by_cases hheld : s.slot.held = some handle
        · rw [TransactionSlot.release, if_pos hheld] at h
          cases h
          exact Or.inr (Or.inr (Or.inl ⟨b, closure, handle, hheld, hadmits.1, rfl⟩))
        · rw [TransactionSlot.release, if_neg hheld] at h
          cases h
          exact Or.inl ⟨b, _, rfl, rfl⟩
      · cases h
  | closes b =>
      simp only [step] at h
      split at h
      · rename_i closure handle hstage
        split at h
        · rename_i store hp
          cases h
          exact Or.inr (Or.inr (Or.inr (Or.inl ⟨b, closure, handle, store, rfl, hstage, hp, rfl⟩)))
        · cases h
          exact Or.inl ⟨b, _, rfl, rfl⟩
      · cases h
  | asks request =>
      cases h
      exact Or.inr (Or.inr (Or.inr (Or.inr ⟨request, rfl⟩)))

theorem Closure.perform_eq_ok {store store' : ScriptedStore} (h : closure.perform store handle = .ok store') :
    store'.store.taken = store.store.taken ∧
      store'.store.snapshots = Fields.erase handle store.store.snapshots := by
  cases closure with
  | discard =>
      obtain ⟨-, rfl⟩ := ScriptedStore.discard_eq_ok h
      exact ⟨rfl, rfl⟩
  | restore =>
      obtain ⟨saved, -, rfl⟩ := ScriptedStore.restore_eq_ok h
      exact ⟨rfl, rfl⟩

/-! ### What a snapshot holds -/

def Live (s : SharedSlot n) (handle : String) : Prop :=
  s.slot.held = some handle ∨ ∃ b, (s.stage b).released? = some handle

/-- A snapshot of the run: at some moment of it, the snapshot was taken, and it still is what
the store held then unless the store has lost it. -/
def SavedIn (s : SharedSlot n) (events : List (Event n)) (u : SharedSlot n) (handle : String) : Prop :=
  ∃ before b after m, events = before ++ .saves b :: after ∧ s.run before = some m ∧
    handle = snapshotName (m.store.store.taken + 1) ∧ m.store.store.taken < u.store.store.taken ∧
    ∀ saved, u.store.store.saved? handle = some saved → saved = m.store.store.collections

variable {events : List (Event n)}

/-- A snapshot stays what it was: the store counts on, and keeps it or loses it. -/
theorem SavedIn.concat (h : s.SavedIn events u handle) (event : Event n)
    (htaken : u.store.store.taken ≤ s'.store.store.taken)
    (hsaved : ∀ number, handle = snapshotName number → number ≤ u.store.store.taken → ∀ saved,
      s'.store.store.saved? handle = some saved → u.store.store.saved? handle = some saved) :
    s.SavedIn (events ++ [event]) s' handle := by
  obtain ⟨before, b, after, m, hevents, hrun, hname, hlt, hsame⟩ := h
  refine ⟨before, b, after ++ [event], m, ?_, hrun, hname, by omega, ?_⟩
  · rw [hevents, List.append_assoc, List.cons_append]
  · intro saved hs
    exact hsame saved (hsaved _ hname hlt saved hs)

theorem released_of_goto {stage : Stage} (h : ((s.goto branch stage).stage other).released? = some handle) :
    stage.released? = some handle ∨ (s.stage other).released? = some handle := by
  by_cases hne : other = branch
  · rw [hne, goto_stage_self] at h
    exact Or.inl h
  · rw [goto_stage_of_ne _ hne] at h
    exact Or.inr h

theorem live_of_step {event : Event n} (hstep : s.step event = some s') (h : s'.Live handle) :
    s.Live handle ∨ ∃ b store, event = .saves b ∧ s.store.snapshot = .ok (handle, store) ∧
      s'.store = store := by
  rcases step_cases hstep with ⟨b, stage, hstage, rfl⟩ | ⟨b, taken, store, rfl, hs, rfl⟩ |
    ⟨b, closure, held, hheld, -, rfl⟩ | ⟨b, closure, closed, store, -, -, -, rfl⟩ | ⟨request, rfl⟩
  · rcases h with h | ⟨c, hc⟩
    · exact Or.inl (Or.inl h)
    · rcases released_of_goto hc with h | h
      · rw [hstage] at h
        cases h
      · exact Or.inl (Or.inr ⟨c, h⟩)
  · rcases h with h | ⟨c, hc⟩
    · cases h
      exact Or.inr ⟨b, store, rfl, hs, rfl⟩
    · rcases released_of_goto hc with h | h
      · cases h
      · exact Or.inl (Or.inr ⟨c, h⟩)
  · rcases h with h | ⟨c, hc⟩
    · cases h
    · rcases released_of_goto hc with h | h
      · cases h
        exact Or.inl (Or.inl hheld)
      · exact Or.inl (Or.inr ⟨c, h⟩)
  · rcases h with h | ⟨c, hc⟩
    · exact Or.inl (Or.inl h)
    · rcases released_of_goto hc with h | h
      · cases h
      · exact Or.inl (Or.inr ⟨c, h⟩)
  · exact Or.inl h

/-- The store counts its snapshots, and what it keeps under an old name it kept before. -/
theorem saved_of_step {event : Event n} (hstep : s.step event = some s') :
    s.store.store.taken ≤ s'.store.store.taken ∧ ∀ number ≤ s.store.store.taken, ∀ saved,
      s'.store.store.saved? (snapshotName number) = some saved →
        s.store.store.saved? (snapshotName number) = some saved := by
  rcases step_cases hstep with ⟨b, stage, -, rfl⟩ | ⟨b, taken, store, rfl, hs, rfl⟩ |
    ⟨b, closure, held, -, -, rfl⟩ | ⟨b, closure, closed, store, -, -, hp, rfl⟩ | ⟨request, rfl⟩
  · exact ⟨Nat.le_refl _, fun _ _ _ h => h⟩
  · obtain ⟨-, rfl⟩ := ScriptedStore.snapshot_eq_ok hs
    refine ⟨Nat.le_succ _, fun number hle saved h => ?_⟩
    have hne : snapshotName number ≠ snapshotName (s.store.store.taken + 1) := fun h => by
      have := snapshotName_injective h
      omega
    rwa [Store.saved?_snapshot_of_ne _ hne] at h
  · exact ⟨Nat.le_refl _, fun _ _ _ h => h⟩
  · obtain ⟨htaken, herase⟩ := Closure.perform_eq_ok hp
    refine ⟨Nat.le_of_eq htaken.symm, fun number _ saved h => ?_⟩
    by_cases hname : snapshotName number = closed
    · rw [hname, Store.saved?_erase_self herase] at h
      cases h
    · rwa [Store.saved?_erase_of_ne herase hname] at h
  · obtain ⟨calls, collections, hperform⟩ := s.store.perform_eq request
    rw [hperform]
    exact ⟨Nat.le_refl _, fun _ _ _ h => h⟩

/-- What a branch may still restore was saved in the run, or could be restored at its start. -/
theorem live_of_run (hrun : s.run events = some u) (h : u.Live handle) :
    s.Live handle ∨ s.SavedIn events u handle := by
  induction events using List.reverseRecOn generalizing u handle with
  | nil =>
      cases hrun
      exact Or.inl h
  | append_singleton events event ih =>
      obtain ⟨m, hm, hstep⟩ := run_concat hrun
      obtain ⟨htaken, hsaved⟩ := saved_of_step hstep
      rcases live_of_step hstep h with hlive | ⟨b, store, rfl, hs, hstore⟩
      · refine (ih hm hlive).imp_right fun hin => hin.concat event htaken ?_
        rintro number rfl hle saved hkept
        exact hsaved number hle saved hkept
      · obtain ⟨rfl, rfl⟩ := ScriptedStore.snapshot_eq_ok hs
        refine Or.inr ⟨events, b, [], m, rfl, hm, rfl, ?_, fun saved hsome => ?_⟩
        · rw [hstore]
          exact Nat.lt_succ_self _
        · rw [hstore] at hsome
          exact Option.some_inj.mp (hsome.symm.trans (Store.saved?_snapshot_self _))

/-! ### Snapshots that wait for the closing call of another -/

/-- A call that has emptied the slot and has yet to reach the store is the only one, and
nothing was saved into the slot since. -/
def Clear (s : SharedSlot n) : Prop :=
  ∀ b handle, (s.stage b).released? = some handle →
    s.slot.held = none ∧ ∀ c, c ≠ b → (s.stage c).released? = none

def settled (s : SharedSlot n) : Bool := decide (∀ c, (s.stage c).released? = none)

def orderly (s : SharedSlot n) : List (Event n) → Bool
  | [] => true
  | event :: rest =>
    (!event.isSave || s.settled) && match s.step event with
      | some u => u.orderly rest
      | none => true

theorem clear_of_settled (h : s.settled) : s.Clear := by
  intro b handle hb
  rw [of_decide_eq_true h b] at hb
  cases hb

theorem settled_unused (n : Nat) (store : ScriptedStore) : (unused n store).settled :=
  decide_eq_true fun _ => rfl

theorem Clear.goto {stage : Stage} (h : s.Clear) (hstage : stage.released? = none) :
    (s.goto branch stage).Clear := by
  have hold {c : Fin n} (hne : (s.stage c).released? = none) :
      ((s.goto branch stage).stage c).released? = none := by
    by_contra hc
    obtain ⟨handle, hc⟩ := Option.ne_none_iff_exists'.mp hc
    rcases released_of_goto hc with hc | hc
    · rw [hstage] at hc
      cases hc
    · rw [hne] at hc
      cases hc
  intro b handle hb
  rcases released_of_goto hb with hb | hb
  · rw [hstage] at hb
    cases hb
  · exact ⟨(h b handle hb).1, fun c hc => hold ((h b handle hb).2 c hc)⟩

theorem Clear.step {event : Event n} (h : s.Clear) (hstep : s.step event = some s')
    (hsaves : ∀ b, event = .saves b → s.settled) : s'.Clear := by
  rcases step_cases hstep with ⟨b, stage, hstage, rfl⟩ | ⟨b, taken, store, rfl, -, rfl⟩ |
    ⟨b, closure, held, hheld, -, rfl⟩ | ⟨b, closure, closed, store, -, -, -, rfl⟩ | ⟨request, rfl⟩
  · exact h.goto hstage
  · intro c handle hc
    rcases released_of_goto hc with hc | hc
    · cases hc
    · rw [of_decide_eq_true (hsaves b rfl) c] at hc
      cases hc
  · have hnone (c : Fin n) : (s.stage c).released? = none := by
      by_contra hc
      obtain ⟨handle, hc⟩ := Option.ne_none_iff_exists'.mp hc
      rw [(h c handle hc).1] at hheld
      cases hheld
    intro c handle hc
    by_cases hcb : c = b
    · subst hcb
      refine ⟨rfl, fun d hd => ?_⟩
      exact (congrArg Stage.released? (goto_stage_of_ne _ hd)).trans (hnone d)
    · have := (congrArg Stage.released? (goto_stage_of_ne _ hcb)).symm.trans hc
      rw [hnone c] at this
      cases this
  · exact fun c handle hc => (h.goto rfl) c handle hc
  · exact h

theorem orderly_cons {event : Event n} (h : s.orderly (event :: events)) (hstep : s.step event = some u) :
    (∀ b, event = .saves b → s.settled) ∧ u.orderly events := by
  rw [orderly, hstep] at h
  obtain ⟨hsaves, hnext⟩ := Bool.and_eq_true_iff.mp h
  refine ⟨?_, hnext⟩
  rintro b rfl
  simpa [Event.isSave] using hsaves

theorem Clear.run (h : s.Clear) (horderly : s.orderly events) (hrun : s.run events = some u) :
    u.Clear := by
  induction events generalizing s with
  | nil =>
      cases hrun
      exact h
  | cons event events ih =>
      obtain ⟨m, hstep, hrest⟩ := Option.bind_eq_some_iff.mp hrun
      obtain ⟨hsaves, hnext⟩ := orderly_cons horderly hstep
      exact ih (h.step hstep hsaves) hnext hrest

theorem Clear.not_live_of_closes (h : s.Clear) (hstage : s.stage branch = .closing closure handle)
    (hstep : s.step (.closes branch) = some s') (other : String) : ¬ s'.Live other := by
  have hb : (s.stage branch).released? = some handle := by rw [hstage]; rfl
  obtain ⟨hheld, hothers⟩ := h branch handle hb
  have hgone (answer : Except EngineError Unit) (store : ScriptedStore) :
      ¬ ({ s.goto branch (.closed answer) with store }).Live other := by
    rintro (hslot | ⟨c, hc⟩)
    · exact Option.some_ne_none _ (hslot.symm.trans hheld)
    · by_cases hcb : c = branch
      · subst hcb
        cases (congrArg Stage.released? (goto_stage_self _)).symm.trans hc
      · have := (congrArg Stage.released? (goto_stage_of_ne _ hcb)).symm.trans hc
        rw [hothers c hcb] at this
        cases this
  rw [step_closes hstage] at hstep
  cases hp : closure.perform s.store handle with
  | error e =>
      rw [hp] at hstep
      cases hstep
      exact hgone (.error e) s.store
  | ok store =>
      rw [hp] at hstep
      cases hstep
      exact hgone (.ok ()) store

def blank : ScriptedStore := .new (.empty []) .none

def addNote : RecordRequest := .create "notes" (.obj [])

def notes (s : SharedSlot n) : List Row := s.store.store.rows "notes"

/-- If no snapshot is taken between a call's release of the slot and its word to the store,
then what a rollback puts back is what the store held at a moment after the transaction
before it was closed: rows that an earlier rollback removed stay away. -/
theorem restored_of_orderly {s₁ s₂ s₃ s₄ : SharedSlot n} {first second : Fin n} {before after : List (Event n)}
    {earlier later : String} (hsettled : s.settled) (horderly : s.orderly before)
    (hrun : s.run before = some s₁)
    (hfirst : s₁.stage first = .closing closure earlier) (hcloses : s₁.step (.closes first) = some s₂)
    (hafter : s₂.run after = some s₃) (hsecond : s₃.stage second = .closing .restore later)
    (hrestores : s₃.step (.closes second) = some s₄) (hok : s₄.stage second = .closed (.ok ())) :
    ∃ prior b rest m, after = prior ++ .saves b :: rest ∧ s₂.run prior = some m ∧
      s₄.store.store.collections = m.store.store.collections := by
  have hclear : s₁.Clear := (clear_of_settled hsettled).run horderly hrun
  have hlive : s₃.Live later := Or.inr ⟨second, by rw [hsecond]; rfl⟩
  rcases live_of_run hafter hlive with hold | ⟨prior, b, rest, m, hevents, hm, -, -, hsame⟩
  · exact absurd hold (hclear.not_live_of_closes hfirst hcloses later)
  · refine ⟨prior, b, rest, m, hevents, hm, ?_⟩
    rw [step_closes hsecond] at hrestores
    cases hr : Closure.restore.perform s₃.store later with
    | error e =>
        rw [hr] at hrestores
        cases hrestores
        rw [goto_stage_self] at hok
        cases hok
    | ok restored =>
        rw [hr] at hrestores
        cases hrestores
        obtain ⟨saved, hsaved, rfl⟩ := ScriptedStore.restore_eq_ok hr
        exact hsame saved hsaved

theorem restored_of_orderly_turns : ∃ s₁ s₂ s₃ s₄ : SharedSlot 2,
    (unused 2 blank).run [.opens 0, .saves 0, .asks addNote, .releases 0 .restore "snap-1"] = some s₁ ∧
    s₁.step (.closes 0) = some s₂ ∧
    s₂.run [.opens 1, .saves 1, .asks addNote, .releases 1 .restore "snap-2"] = some s₃ ∧
    s₃.step (.closes 1) = some s₄ ∧ s₄.stage 1 = .closed (.ok ()) ∧
    ∃ prior b rest m, [.opens 1, .saves 1, .asks addNote, .releases 1 .restore "snap-2"] =
        prior ++ .saves b :: rest ∧ s₂.run prior = some m ∧
      s₄.store.store.collections = m.store.store.collections := by
  have hturns : ∃ s₁ s₂ s₃ s₄ : SharedSlot 2,
      (unused 2 blank).run [.opens 0, .saves 0, .asks addNote, .releases 0 .restore "snap-1"] =
        some s₁ ∧ s₁.stage 0 = .closing .restore "snap-1" ∧ s₁.step (.closes 0) = some s₂ ∧
      s₂.run [.opens 1, .saves 1, .asks addNote, .releases 1 .restore "snap-2"] = some s₃ ∧
      s₃.stage 1 = .closing .restore "snap-2" ∧ s₃.step (.closes 1) = some s₄ ∧
      s₄.stage 1 = .closed (.ok ()) :=
    ⟨_, _, _, _, rfl, rfl, rfl, rfl, rfl, rfl, rfl⟩
  obtain ⟨s₁, s₂, s₃, s₄, hrun, hfirst, hcloses, hafter, hsecond, hrestores, hok⟩ := hturns
  refine ⟨s₁, s₂, s₃, s₄, hrun, hcloses, hafter, hrestores, hok, ?_⟩
  exact restored_of_orderly (settled_unused 2 blank) rfl hrun hfirst hcloses hafter hsecond
    hrestores hok

/-- Two branches take turns at one slot. The second takes its snapshot after the first has
released the slot and before the first has restored its own; the row that the first
rollback removes comes back by the second. -/
theorem restored_row_returns : ∃ s₁ s₂ s₃ s₄ : SharedSlot 2,
    (unused 2 blank).run
      [.opens 0, .saves 0, .asks addNote, .releases 0 .restore "snap-1", .opens 1] = some s₁ ∧
    s₁.stage 0 = .closing .restore "snap-1" ∧
    s₁.step (.saves 1) = some s₂ ∧ s₂.slot.held = some "snap-2" ∧
    s₂.step (.closes 0) = some s₃ ∧ s₃.stage 0 = .closed (.ok ()) ∧ s₃.notes = [] ∧
    s₃.run [.releases 1 .restore "snap-2", .closes 1] = some s₄ ∧
    s₄.stage 1 = .closed (.ok ()) ∧ s₄.notes = [[("id", .ofNat 1)]] := by
  refine ⟨_, _, _, _, rfl, rfl, rfl, rfl, rfl, rfl, rfl, rfl, rfl, rfl⟩

end SharedSlot
end FlowEngine
