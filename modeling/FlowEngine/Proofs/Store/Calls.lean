import Mathlib.Data.List.Induction
import FlowEngine.Proofs.Store.Snapshots

/-!
# Sequences of calls to a record store

What a call writes is told once, with the checks that it made on the way. A property of the
collections that every write keeps holds after any sequence of calls: a restore brings nothing back
that did not hold when it was saved.
-/
namespace FlowEngine

/-- A call to a record store. -/
inductive StoreCall where
  | request (request : RecordRequest)
  | snapshot
  | restore (handle : String)
  | discard (handle : String)

theorem forM_eq_ok {ε α : Type} {f : α → Except ε Unit} {l : List α} :
    l.forM f = .ok () ↔ ∀ a ∈ l, f a = .ok () := by
  induction l with
  | nil => exact ⟨fun _ => nofun, fun _ => rfl⟩
  | cons a rest ih =>
      rw [List.forall_mem_cons, ← ih, show (a :: rest).forM f = f a >>= fun _ => rest.forM f from rfl]
      cases f a with
      | error e => exact ⟨nofun, fun h => nomatch h.1⟩
      | ok u => exact ⟨fun h => ⟨rfl, h⟩, And.right⟩

namespace Store

variable {s s' : Store}

def call (s : Store) : StoreCall → Store
  | .request request => (s.perform request).2
  | .snapshot => s.snapshot.2
  | .restore handle =>
    match s.restore handle with
    | .ok s' => s'
    | .error _ => s
  | .discard handle =>
    match s.discard handle with
    | .ok s' => s'
    | .error _ => s

def calls (s : Store) (l : List StoreCall) : Store := l.foldl call s

@[simp] theorem calls_nil (s : Store) : s.calls [] = s := rfl

@[simp] theorem calls_concat (s : Store) (l : List StoreCall) (c : StoreCall) :
    s.calls (l ++ [c]) = (s.calls l).call c :=
  List.foldl_append

/-! ## Writes -/

inductive Writes (s : Store) : RecordRequest → Store → Prop where
  | nothing (request : RecordRequest) : Writes s request s
  | created {record : String} {row : Row} (checked : s.checkReferences record row = .ok ()) :
      Writes s (.create record (.obj row))
        (s.putCollection record ((s.collection record).append row).2)
  | updated {record : String} {filter changes : Row} (checked : ∀ row ∈ s.rows record,
        Row.agrees filter row = true → s.checkReferences record (Fields.insertAll row changes) = .ok ()) :
      Writes s (.update record (.obj filter) (.obj changes))
        (s.putCollection record { s.collection record with
          rows := (s.rows record).map fun row =>
            if Row.agrees filter row then Fields.insertAll row changes else row })
  | deleted {record : String} {filter : Row} : Writes s (.delete record (.obj filter))
      (s.putCollection record { s.collection record with
        rows := (s.rows record).filter fun row => !Row.agrees filter row })

theorem writes_of_create {record : String} {payload v : Json}
    (h : s.create record payload = .ok (v, s')) : ∃ row, payload = .obj row ∧
      s.checkReferences record row = .ok () ∧ v = .obj ((s.collection record).append row).1 ∧
      s' = s.putCollection record ((s.collection record).append row).2 := by
  unfold create at h
  cases payload with
  | obj row =>
      obtain ⟨row', hrow, h⟩ := exists_of_bind_eq_ok h
      cases hrow
      obtain ⟨⟨⟩, hchecked, h⟩ := exists_of_bind_eq_ok h
      cases h
      exact ⟨row, rfl, hchecked, rfl, rfl⟩
  | _ => cases h

theorem writes_of_update {record : String} {filter changes v : Json}
    (h : s.update record filter changes = .ok (v, s')) :
    s.Writes (.update record filter changes) s' := by
  unfold update at h
  obtain ⟨fields, hfields, h⟩ := exists_of_bind_eq_ok h
  cases changes with
  | obj overlay =>
      obtain ⟨overlay', hoverlay, h⟩ := exists_of_bind_eq_ok h
      cases hoverlay
      obtain ⟨checked, hchecked, h⟩ := exists_of_bind_eq_ok h
      dsimp only at h
      split at h
      · cases h
        exact .nothing _
      · cases h
        rw [filterFields_eq_ok hfields]
        refine .updated fun row hrow hagrees => ?_
        exact forM_eq_ok.mp hchecked row (List.mem_filter.mpr ⟨hrow, hagrees⟩)
  | _ => cases h

theorem writes_of_delete {record : String} {filter v : Json}
    (h : s.delete record filter = .ok (v, s')) : s.Writes (.delete record filter) s' := by
  rcases delete_eq_ok h with rfl | ⟨fields, rfl, rfl⟩
  · exact .nothing _
  · exact .deleted

theorem perform_writes (s : Store) (request : RecordRequest) :
    s.Writes request (s.perform request).2 := by
  cases request with
  | create record payload =>
      cases h : s.create record payload with
      | error fault => simpa only [perform, h] using Writes.nothing _
      | ok answer =>
          obtain ⟨row, rfl, hchecked, -, hs⟩ := writes_of_create h
          simpa only [perform, h, hs] using Writes.created hchecked
  | update record filter changes =>
      cases h : s.update record filter changes with
      | error fault => simpa only [perform, h] using Writes.nothing _
      | ok answer => simpa only [perform, h] using writes_of_update h
  | delete record filter =>
      cases h : s.delete record filter with
      | error fault => simpa only [perform, h] using Writes.nothing _
      | ok answer => simpa only [perform, h] using writes_of_delete h
  | query record filter =>
      cases h : s.query record filter with
      | error fault => simpa only [perform, h, Except.map] using Writes.nothing _
      | ok answer => simpa only [perform, h, Except.map] using Writes.nothing _

theorem Writes.keys {request : RecordRequest} (h : s.Writes request s') : s'.keys = s.keys := by
  cases h <;> rfl

theorem Writes.snapshots {request : RecordRequest} (h : s.Writes request s') :
    s'.snapshots = s.snapshots := by
  cases h <;> rfl

/-! ## Calls -/

inductive Called (s : Store) : StoreCall → Store → Prop where
  | refused (c : StoreCall) : Called s c s
  | written {request : RecordRequest} {s' : Store} (h : s.Writes request s') :
      Called s (.request request) s'
  | taken : Called s .snapshot s.snapshot.2
  | restored {handle : String} {saved : Collections} (h : s.saved? handle = some saved) :
      Called s (.restore handle)
        { s with collections := saved, snapshots := Fields.erase handle s.snapshots }
  | discarded {handle : String} : Called s (.discard handle)
      { s with snapshots := Fields.erase handle s.snapshots }

theorem called (s : Store) (c : StoreCall) : s.Called c (s.call c) := by
  cases c with
  | request request => exact .written (s.perform_writes request)
  | snapshot => exact .taken
  | restore handle =>
      cases h : s.restore handle with
      | error fault => simpa only [call, h] using Called.refused _
      | ok s' =>
          obtain ⟨saved, hsaved, rfl⟩ := restore_eq_ok_iff.mp h
          simpa only [call, h] using Called.restored hsaved
  | discard handle =>
      cases h : s.discard handle with
      | error fault => simpa only [call, h] using Called.refused _
      | ok s' =>
          obtain ⟨-, rfl⟩ := discard_eq_ok_iff.mp h
          simpa only [call, h] using Called.discarded

@[simp] theorem call_keys (s : Store) (c : StoreCall) : (s.call c).keys = s.keys := by
  have h := s.called c
  generalize s.call c = s' at h
  cases h with
  | written h => exact h.keys
  | _ => rfl

@[simp] theorem calls_keys (s : Store) (l : List StoreCall) : (s.calls l).keys = s.keys := by
  induction l using List.reverseRecOn with
  | nil => rfl
  | append_singleton l c ih => rw [calls_concat, call_keys, ih]

structure Keeping (P : Collections → Prop) (s : Store) : Prop where
  now : P s.collections
  saved {handle : String} {saved : Collections} : s.saved? handle = some saved → P saved

theorem Keeping.empty {P : Collections → Prop} (h : P []) (keys : List ForeignKey) :
    (empty keys).Keeping P := ⟨h, nofun⟩

theorem Keeping.erase {P : Collections → Prop} (h : s.Keeping P) {collections : Collections}
    (now : P collections) (handle : String) :
    Keeping P { s with collections, snapshots := Fields.erase handle s.snapshots } := by
  refine ⟨now, fun {other _} hsaved => ?_⟩
  by_cases hother : other = handle
  · rw [saved?, hother, Fields.get?_erase_self] at hsaved
    cases hsaved
  · rw [saved?, Fields.get?_erase_of_ne _ hother] at hsaved
    exact h.saved hsaved

theorem Called.keeping {P : Collections → Prop} {c : StoreCall} (h : s.Called c s')
    (writes : ∀ {request}, c = .request request → s.Writes request s' → P s'.collections)
    (hs : s.Keeping P) : s'.Keeping P := by
  cases h with
  | refused => exact hs
  | written h => exact ⟨writes rfl h, fun hsaved => hs.saved ((saved?_congr h.snapshots _).symm.trans hsaved)⟩
  | taken =>
      refine ⟨hs.now, fun {handle _} hsaved => ?_⟩
      by_cases hhandle : handle = snapshotName (s.taken + 1)
      · rw [hhandle, saved?_snapshot_self] at hsaved
        cases hsaved
        exact hs.now
      · rw [saved?_snapshot_of_ne _ hhandle] at hsaved
        exact hs.saved hsaved
  | restored hsaved => exact hs.erase (hs.saved hsaved) _
  | discarded => exact hs.erase hs.now _

/-- What holds of empty collections, what more calls leave as it is and what every write keeps
holds after all sequences of calls to an empty store. -/
theorem holds_of_calls {keys : List ForeignKey} {P : List StoreCall → Collections → Prop}
    (first : P [] [])
    (later : ∀ {l collections} (c : StoreCall), P l collections → P (l ++ [c]) collections)
    (writes : ∀ {l request}, P l ((empty keys).calls l).collections →
      ((empty keys).calls l).Writes request ((empty keys).calls (l ++ [.request request])) →
        P (l ++ [.request request]) ((empty keys).calls (l ++ [.request request])).collections)
    (l : List StoreCall) : P l ((empty keys).calls l).collections := by
  suffices hkeeping : ((empty keys).calls l).Keeping (P l) from hkeeping.now
  induction l using List.reverseRecOn with
  | nil => exact .empty first keys
  | append_singleton l c ih =>
      have hlater : ((empty keys).calls l).Keeping (P (l ++ [c])) :=
        ⟨later c ih.now, fun hsaved => later c (ih.saved hsaved)⟩
      have hcalled := called ((empty keys).calls l) c
      rw [← calls_concat] at hcalled
      refine hcalled.keeping (fun hc h => ?_) hlater
      subst hc
      exact writes ih.now h

end Store
end FlowEngine
