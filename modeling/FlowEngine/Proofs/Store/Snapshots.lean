import FlowEngine.Proofs.Json.Tables
import FlowEngine.Store.Scripted

/-!
# Snapshots of the record store

A snapshot is kept under a name of its own until it is restored or discarded, and
until then what was saved in it does not change.
-/
namespace FlowEngine

def snapshotName (number : Nat) : String := s!"snap-{number}"

theorem snapshotName_injective {m n : Nat} (h : snapshotName m = snapshotName n) : m = n := by
  have hrepr : m.repr.toList = n.repr.toList := by
    have := congrArg String.toList h
    simpa [snapshotName, toString, String.toList_append] using this
  have hdigits := congrArg (fun l => Nat.ofDigitChars 10 l 0) hrepr
  simpa [Nat.toList_repr, Nat.ofDigitChars_toDigits] using hdigits

theorem exists_of_bind_eq_ok {ε α β : Type} {x : Except ε α} {f : α → Except ε β} {b : β}
    (h : (x >>= f) = .ok b) : ∃ a, x = .ok a ∧ f a = .ok b := by
  cases x with
  | error e => cases h
  | ok a => exact ⟨a, rfl, h⟩

namespace Store

def saved? (s : Store) (handle : String) : Option Collections := Fields.get? handle s.snapshots

def Numbered (s : Store) : Prop :=
  ∀ handle, (s.saved? handle).isSome → ∃ number, number ≤ s.taken ∧ handle = snapshotName number

variable {s s' : Store}

theorem Numbered.of_no_snapshots (h : s.snapshots = []) : s.Numbered := by
  intro handle hsome
  rw [saved?, h] at hsome
  cases hsome

@[simp] theorem snapshot_handle (s : Store) : s.snapshot.1 = snapshotName (s.taken + 1) := rfl

@[simp] theorem snapshot_taken (s : Store) : s.snapshot.2.taken = s.taken + 1 := rfl

@[simp] theorem snapshot_collections (s : Store) : s.snapshot.2.collections = s.collections := rfl

@[simp] theorem saved?_snapshot_self (s : Store) :
    s.snapshot.2.saved? (snapshotName (s.taken + 1)) = some s.collections :=
  Fields.get?_insert_self _ _ _

theorem saved?_snapshot_of_ne (s : Store) {handle : String}
    (h : handle ≠ snapshotName (s.taken + 1)) : s.snapshot.2.saved? handle = s.saved? handle :=
  Fields.get?_insert_of_ne _ _ h

/-- A new snapshot does not take the name of an open one. -/
theorem Numbered.fresh (h : s.Numbered) : s.saved? (snapshotName (s.taken + 1)) = none := by
  cases hs : s.saved? (snapshotName (s.taken + 1)) with
  | none => rfl
  | some saved =>
      obtain ⟨number, hle, hname⟩ := h _ (by rw [hs]; rfl)
      have := snapshotName_injective hname
      omega

theorem Numbered.snapshot (h : s.Numbered) : s.snapshot.2.Numbered := by
  intro handle hh
  by_cases hn : handle = snapshotName (s.taken + 1)
  · exact ⟨s.taken + 1, Nat.le_refl _, hn⟩
  · rw [saved?_snapshot_of_ne s hn] at hh
    obtain ⟨number, hle, hname⟩ := h handle hh
    exact ⟨number, Nat.le_succ_of_le hle, hname⟩

theorem Numbered.congr (h : s.Numbered) (hs : s'.snapshots = s.snapshots)
    (ht : s'.taken = s.taken) : s'.Numbered := by
  unfold Numbered saved? at h ⊢
  rwa [hs, ht]

theorem saved?_congr (hs : s'.snapshots = s.snapshots) (handle : String) :
    s'.saved? handle = s.saved? handle := by
  unfold saved?
  rw [hs]

theorem Numbered.erase (h : s.Numbered) {handle : String}
    (he : s'.snapshots = Fields.erase handle s.snapshots) (ht : s'.taken = s.taken) :
    s'.Numbered := by
  intro other ho
  unfold saved? at ho
  rw [he] at ho
  by_cases hne : other = handle
  · rw [hne, Fields.get?_erase_self] at ho
    cases ho
  · rw [Fields.get?_erase_of_ne _ hne] at ho
    rw [ht]
    exact h other ho

theorem saved?_erase_of_ne {handle other : String}
    (he : s'.snapshots = Fields.erase handle s.snapshots) (hne : other ≠ handle) :
    s'.saved? other = s.saved? other := by
  unfold saved?
  rw [he, Fields.get?_erase_of_ne _ hne]

theorem saved?_erase_self {handle : String}
    (he : s'.snapshots = Fields.erase handle s.snapshots) : s'.saved? handle = none := by
  unfold saved?
  rw [he, Fields.get?_erase_self]

theorem restore_eq_ok_iff {handle : String} : s.restore handle = .ok s' ↔
    ∃ saved, s.saved? handle = some saved ∧
      s' = { s with collections := saved, snapshots := Fields.erase handle s.snapshots } := by
  unfold restore saved?
  cases Fields.get? handle s.snapshots with
  | none => simp
  | some saved => simp [eq_comm]

theorem discard_eq_ok_iff {handle : String} : s.discard handle = .ok s' ↔
    (s.saved? handle).isSome ∧ s' = { s with snapshots := Fields.erase handle s.snapshots } := by
  unfold discard saved? Fields.has
  cases Fields.get? handle s.snapshots with
  | none => simp
  | some saved => simp [eq_comm]

def Unwritten (s : Store) : Prop :=
  ∀ handle saved, s.saved? handle = some saved → saved = s.collections

theorem Unwritten.of_no_snapshots (h : s.snapshots = []) : s.Unwritten := by
  intro handle saved hsaved
  rw [saved?, h] at hsaved
  cases hsaved

theorem Unwritten.congr (h : s.Unwritten) (hs : s'.snapshots = s.snapshots)
    (hc : s'.collections = s.collections) : s'.Unwritten := by
  intro handle saved hsaved
  rw [saved?_congr hs] at hsaved
  rw [hc]
  exact h handle saved hsaved

theorem Unwritten.snapshot (h : s.Unwritten) : s.snapshot.2.Unwritten := by
  intro handle saved hsaved
  by_cases hh : handle = snapshotName (s.taken + 1)
  · rw [hh, saved?_snapshot_self] at hsaved
    exact (Option.some.inj hsaved).symm
  · rw [saved?_snapshot_of_ne s hh] at hsaved
    exact h handle saved hsaved

theorem Unwritten.erase (h : s.Unwritten) {handle : String}
    (he : s'.snapshots = Fields.erase handle s.snapshots) (hc : s'.collections = s.collections) :
    s'.Unwritten := by
  intro other saved hsaved
  by_cases ho : other = handle
  · rw [ho, saved?_erase_self he] at hsaved
    cases hsaved
  · rw [saved?_erase_of_ne he ho] at hsaved
    rw [hc]
    exact h other saved hsaved

theorem rows_putCollection (s : Store) (name : String) (c : Collection) (record : String) :
    (s.putCollection name c).rows record = if name = record then c.rows else s.rows record := by
  simp only [rows, collection, putCollection]
  by_cases h : name = record
  · rw [if_pos h, h, Fields.get?_insert_self]
    rfl
  · rw [if_neg h, Fields.get?_insert_of_ne _ _ (Ne.symm h)]

theorem create_eq_ok {record : String} {payload v : Json}
    (h : s.create record payload = .ok (v, s')) : ∃ stored lastId, v = .obj stored ∧
      s' = s.putCollection record ⟨s.rows record ++ [stored], lastId⟩ := by
  unfold create at h
  cases payload with
  | obj row =>
      obtain ⟨row, -, h⟩ := exists_of_bind_eq_ok h
      obtain ⟨-, -, h⟩ := exists_of_bind_eq_ok h
      cases h
      exact ⟨_, _, rfl, rfl⟩
  | _ => cases h

theorem filterFields_eq_ok {filter : Json} {fields : Row} (h : filterFields filter = .ok fields) :
    filter = .obj fields := by
  cases filter with
  | obj filter =>
      cases h
      rfl
  | _ => cases h

theorem update_eq_ok {record : String} {filter changes v : Json}
    (h : s.update record filter changes = .ok (v, s')) :
    s' = s ∨ ∃ fields overlay, filter = .obj fields ∧
      s' = s.putCollection record { s.collection record with
        rows := (s.rows record).map fun row =>
          if Row.agrees fields row then Fields.insertAll row overlay else row } := by
  unfold update at h
  obtain ⟨fields, hfields, h⟩ := exists_of_bind_eq_ok h
  cases changes with
  | obj overlay =>
      obtain ⟨overlay, -, h⟩ := exists_of_bind_eq_ok h
      obtain ⟨-, -, h⟩ := exists_of_bind_eq_ok h
      dsimp only at h
      split at h
      · cases h
        exact Or.inl rfl
      · cases h
        exact Or.inr ⟨_, _, filterFields_eq_ok hfields, rfl⟩
  | _ => cases h

theorem delete_eq_ok {record : String} {filter v : Json}
    (h : s.delete record filter = .ok (v, s')) :
    s' = s ∨ ∃ fields, filter = .obj fields ∧
      s' = s.putCollection record { s.collection record with
        rows := (s.rows record).filter fun row => !Row.agrees fields row } := by
  unfold delete at h
  obtain ⟨fields, hfields, h⟩ := exists_of_bind_eq_ok h
  dsimp only at h
  split at h
  · cases h
    exact Or.inl rfl
  · cases h
    exact Or.inr ⟨_, filterFields_eq_ok hfields, rfl⟩

/-- The operations on rows change nothing but the collections. -/
theorem perform_eq (s : Store) (request : RecordRequest) :
    ∃ collections, (s.perform request).2 = { s with collections } := by
  have put {s' : Store} {record : String} (h : s' = s ∨ ∃ c, s' = s.putCollection record c) :
      ∃ collections, s' = { s with collections } := by
    rcases h with rfl | ⟨c, rfl⟩
    · exact ⟨_, rfl⟩
    · exact ⟨_, rfl⟩
  cases request with
  | create record payload =>
      cases h : s.create record payload with
      | error fault => exact ⟨s.collections, by simp [perform, h]⟩
      | ok answer =>
          obtain ⟨stored, lastId, -, hs⟩ := create_eq_ok h
          simpa [perform, h] using put (Or.inr ⟨_, hs⟩)
  | update record filter changes =>
      cases h : s.update record filter changes with
      | error fault => exact ⟨s.collections, by simp [perform, h]⟩
      | ok answer =>
          simpa [perform, h] using put ((update_eq_ok h).imp_right fun ⟨_, _, _, hs⟩ => ⟨_, hs⟩)
  | delete record filter =>
      cases h : s.delete record filter with
      | error fault => exact ⟨s.collections, by simp [perform, h]⟩
      | ok answer =>
          simpa [perform, h] using put ((delete_eq_ok h).imp_right fun ⟨_, _, hs⟩ => ⟨_, hs⟩)
  | query record filter =>
      cases h : s.query record filter with
      | error fault => exact ⟨s.collections, by simp [perform, h, Except.map]⟩
      | ok answer => exact ⟨s.collections, by simp [perform, h, Except.map]⟩

end Store

namespace ScriptedStore

variable {s s' : ScriptedStore} {handle : String}

theorem perform_eq (s : ScriptedStore) (request : RecordRequest) : ∃ calls collections,
    (s.perform request).2 = { s with calls, store := { s.store with collections } } := by
  unfold perform
  dsimp only
  split
  · exact ⟨_, s.store.collections, rfl⟩
  · obtain ⟨collections, h⟩ := s.store.perform_eq request
    exact ⟨_, collections, by rw [h]⟩

theorem snapshot_eq_ok (h : s.snapshot = .ok (handle, s')) :
    handle = snapshotName (s.store.taken + 1) ∧ s' = { s with store := s.store.snapshot.2 } := by
  unfold snapshot at h
  split at h
  · cases h
  · cases h
    exact ⟨rfl, rfl⟩

theorem restore_eq_ok (h : s.restore handle = .ok s') : ∃ saved, s.store.saved? handle = some saved ∧
    s' = { s with store := { s.store with
      collections := saved, snapshots := Fields.erase handle s.store.snapshots } } := by
  unfold restore at h
  split at h
  · cases h
  · split at h
    · rename_i store hr
      cases h
      obtain ⟨saved, hs, rfl⟩ := Store.restore_eq_ok_iff.mp hr
      exact ⟨saved, hs, rfl⟩
    · cases h

theorem restore_of_saved {saved : Collections} (hscript : s.script.restoreError = none)
    (h : s.store.saved? handle = some saved) :
    s.restore handle = .ok { s with store := { s.store with
      collections := saved, snapshots := Fields.erase handle s.store.snapshots } } := by
  unfold restore
  rw [hscript, Store.restore_eq_ok_iff.mpr ⟨saved, h, rfl⟩]

theorem discard_eq_ok (h : s.discard handle = .ok s') : (s.store.saved? handle).isSome ∧
    s' = { s with store := { s.store with
      snapshots := Fields.erase handle s.store.snapshots } } := by
  unfold discard at h
  split at h
  · cases h
  · split at h
    · rename_i store hd
      cases h
      obtain ⟨hs, rfl⟩ := Store.discard_eq_ok_iff.mp hd
      exact ⟨hs, rfl⟩
    · cases h

theorem discard_of_saved (hscript : s.script.discardError = none)
    (h : (s.store.saved? handle).isSome) :
    s.discard handle = .ok { s with store := { s.store with
      snapshots := Fields.erase handle s.store.snapshots } } := by
  unfold discard
  rw [hscript, Store.discard_eq_ok_iff.mpr ⟨h, rfl⟩]

end ScriptedStore
end FlowEngine
