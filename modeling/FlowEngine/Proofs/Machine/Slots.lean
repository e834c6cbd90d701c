import FlowEngine.Proofs.Machine.Permits
import FlowEngine.Proofs.Machine.Reports
import FlowEngine.Proofs.Session.Polled

/-!
# The slots of submitted runs

Like the gate of a run, the gate of slots has books that say who waits in its line and who holds a
slot. Only those who take slots and give them back change the gate. Every poll keeps the books, and
whoever is handed a slot goes on.
-/
namespace FlowEngine

/-- A permit that was given back is free, or it was handed to a waiter. -/
theorem Gate.release_pos {ι : Type} (g : Gate ι) :
    0 < g.release.1.free + g.release.1.granted.length := by
  unfold release
  split
  · exact Nat.add_pos_left (Nat.succ_pos _) _
  · exact Nat.add_pos_right _ (List.length_pos_of_mem (List.mem_append_right _ List.mem_cons_self))

namespace Machine

variable (m : Machine)

theorem slots_of_shared {m m' : Machine} (h : m'.shared = m.shared) : m'.slots = m.slots := by
  change m'.shared.slots = m.shared.slots
  rw [h]

/-- Without a poll the gate of slots stays as it is. -/
theorem Passes.slots {m m' : Machine} (h : m.Passes m') : m'.slots = m.slots := by
  cases h with
  | same hs => exact slots_of_shared hs
  | counted hs => exact slots_of_shared (m := { m with next := m.next + 1 }) hs
  | cancelled token => exact slots_of_desk (m.desk_cancel token)
  | scheduled span token => rfl
  | clock h => exact slots_of_desk (desk_advanceClock? h)

theorem outsider_slots : Outsider Machine.slots where
  observers _ _ := rfl
  branches _ _ := rfl
  stragglers _ _ _ := rfl
  wake m t := slots_of_desk (m.desk_wake t)

theorem slots_releaseSlot : m.releaseSlot.slots = m.slots.release.1 :=
  congrArg Prod.fst (desk_wakeIfSome { m with slots := m.slots.release.1 } m.slots.release.2)

/-- Only those who take slots and give them back change the gate of slots. -/
theorem slots_poll (me : TaskId) (wait : Wait) {e : Effect} (hacquire : e ≠ .acquireSlot)
    (hrelease : e ≠ .releaseSlot) : (m.poll me wait e).machine.slots = m.slots := by
  cases e with
  | join run policy group bs =>
      have hcancel (m : Machine) (token : Token) := slots_of_desk (m.desk_cancel token)
      exact outsider_slots.pollJoin policy (fun _ => hcancel) m me run group bs wait
  | settle run token => exact outsider_slots.pollSettle m me run token wait
  | awaitRun number =>
      simp only [poll, pollRun]
      split <;> rfl
  | acquireSlot => exact absurd rfl hacquire
  | releaseSlot => exact absurd rfl hrelease
  | _ => exact slots_of_desk (m.desk_poll me wait (by simp) (by simp) (by simp) (by simp) (by simp))

/-- A poll neither adds slots nor takes any away. -/
theorem slots_size_poll (me : TaskId) (wait : Wait) (e : Effect) :
    (m.poll me wait e).machine.slots.size = m.slots.size := by
  by_cases hacquire : e = .acquireSlot
  · subst hacquire
    change (m.pollSlot me wait).machine.slots.size = m.slots.size
    unfold pollSlot
    split
    · split
      · rename_i slots hclaim
        exact Gate.size_claim? hclaim
      · rfl
    · split
      · rename_i slots htry
        exact Gate.size_tryAcquire? htry
      · rfl
  · by_cases hrelease : e = .releaseSlot
    · subst hrelease
      change m.releaseSlot.slots.size = m.slots.size
      rw [slots_releaseSlot, Gate.size_release]
    · rw [m.slots_poll me wait hacquire hrelease]

variable {m} {m' : Machine} {stands : TaskId → Option Standing} {me : TaskId} {wait : Wait}

structure Rations (m : Machine) (stands : TaskId → Option Standing) : Prop where
  books : m.slots.Books stands
  granted {t : TaskId} : t ∈ m.slots.granted → m.Awake t

theorem Rations.of_slots (h : m.Rations stands) (hslots : m'.slots = m.slots)
    (hawake : ∀ t, stands t = some .queued → m.Awake t → m'.Awake t) : m'.Rations stands where
  books := hslots ▸ h.books
  granted ht := by
    rw [hslots] at ht
    exact hawake _ (h.books.queued.mp (List.mem_append_right _ ht)) (h.granted ht)

def slotStanding (before : Option Standing) : (e : Effect) → Turn e.Answer → Option Standing
  | .acquireSlot, .answered _ => some .calling
  | .acquireSlot, .waiting _ => some .queued
  | .releaseSlot, _ => none
  | _, _ => before

theorem pollSlot_of_ne (hwait : wait ≠ .slot) : m.pollSlot me wait =
    match m.slots.tryAcquire? with
    | some slots => .answered () { m with slots }
    | none => .waiting .slot { m with slots := m.slots.enqueue me } := by
  cases wait with
  | slot => exact absurd rfl hwait
  | _ => rfl

theorem Rations.pollSlot (h : m.Rations stands) (hline : wait = .slot → stands me = some .queued)
    (hfirst : wait ≠ .slot → stands me = none) : (m.pollSlot me wait).machine.Rations
      (Function.update stands me (slotStanding (stands me) .acquireSlot (m.pollSlot me wait).turn)) := by
  by_cases hwait : wait = .slot
  · subst hwait
    unfold Machine.pollSlot
    dsimp only
    cases hclaim : m.slots.claim? me with
    | some slots =>
        exact ⟨h.books.claim hclaim, fun ht => h.granted (Gate.mem_granted_claim? hclaim ht)⟩
    | none =>
        change m.Rations (Function.update stands me (some .queued))
        rwa [← hline rfl, Function.update_eq_self]
  · rw [pollSlot_of_ne hwait]
    cases htry : m.slots.tryAcquire? with
    | some slots =>
        refine ⟨h.books.acquire (hfirst hwait) htry, fun {t} ht => h.granted ?_⟩
        obtain ⟨-, rfl⟩ := Gate.tryAcquire?_eq_some.mp htry
        exact ht
    | none => exact ⟨h.books.enqueue (hfirst hwait) htry, h.granted⟩

theorem Rations.releaseSlot (h : m.Rations stands) (hme : stands me = some .calling) :
    m.releaseSlot.Rations (Function.update stands me none) := by
  constructor
  · rw [slots_releaseSlot]
    exact h.books.release hme
  · intro t ht
    rw [slots_releaseSlot] at ht
    rcases Gate.mem_granted_release ht with hbefore | hnext
    · exact (rouses_wakeIfSome (m := { m with slots := m.slots.release.1 }) [] _).awake
        (h.granted hbefore)
    · exact awake_wakeIfSome hnext

theorem Rations.poll (h : m.Rations stands) {e : Effect}
    (hline : e = .acquireSlot → wait = .slot → stands me = some .queued)
    (hfirst : e = .acquireSlot → wait ≠ .slot → stands me = none)
    (hheld : e = .releaseSlot → stands me = some .calling) : (m.poll me wait e).machine.Rations
      (Function.update stands me (slotStanding (stands me) e (m.poll me wait e).turn)) := by
  by_cases hacquire : e = .acquireSlot
  · subst hacquire
    exact h.pollSlot (hline rfl) (hfirst rfl)
  · by_cases hrelease : e = .releaseSlot
    · subst hrelease
      exact h.releaseSlot (hheld rfl)
    · have hsame : slotStanding (stands me) e (m.poll me wait e).turn = stands me := by
        cases e with
        | acquireSlot => exact absurd rfl hacquire
        | releaseSlot => exact absurd rfl hrelease
        | _ => rfl
      rw [hsame, Function.update_eq_self]
      exact h.of_slots (m.slots_poll me wait hacquire hrelease) fun t _ =>
        (m.rouses_poll me wait e).awake

/-- Whoever still waits for a slot after a poll was not handed one. -/
theorem Rations.not_granted (h : m.Rations stands) (hfirst : wait ≠ .slot → stands me = none)
    {w : Wait} (hturn : (m.pollSlot me wait).turn = .waiting w) :
    me ∉ (m.pollSlot me wait).machine.slots.granted := by
  by_cases hwait : wait = .slot
  · subst hwait
    unfold Machine.pollSlot at hturn ⊢
    dsimp only at hturn ⊢
    cases hclaim : m.slots.claim? me with
    | some slots =>
        rw [hclaim] at hturn
        cases hturn
    | none => exact Gate.claim?_eq_none.mp hclaim
  · rw [pollSlot_of_ne hwait] at hturn ⊢
    cases htry : m.slots.tryAcquire? with
    | some slots =>
        rw [htry] at hturn
        cases hturn
    | none =>
        intro hm
        have hqueued := h.books.queued.mp (List.mem_append_right _ hm)
        rw [hfirst hwait] at hqueued
        cases hqueued

end Machine

end FlowEngine
