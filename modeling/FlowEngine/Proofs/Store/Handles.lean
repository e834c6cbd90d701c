import Mathlib.Data.List.Nodup
import FlowEngine.Proofs.Store.Calls

/-!
# Handles of snapshots

Each snapshot hands out a handle of its own, and a restore or a discard that succeeds uses one up. In
any sequence of operations a handle that was handed out and is not used up brings back the collections
of the moment when it was handed out. Restoring it takes nothing away from the other ones.
-/
namespace FlowEngine

/-- A call to a record store, or rows that are put into it unchecked. -/
inductive StoreMove where
  | call (c : StoreCall)
  | seed (record : String) (rows : List Json)

namespace Store

variable {α : Type} {s s' : Store}

def move (s : Store) : StoreMove → Store
  | .call c => s.call c
  | .seed record rows => (s.seed record rows).1

def moves (s : Store) (l : List StoreMove) : Store := l.foldl move s

def handsOut (s : Store) : StoreMove → Option (String × Collections)
  | .call .snapshot => some (s.snapshot.1, s.collections)
  | _ => none

def usesUp (s : Store) : StoreMove → Option String
  | .call (.restore handle) => if (s.restore handle).isOk then some handle else none
  | .call (.discard handle) => if (s.discard handle).isOk then some handle else none
  | _ => none

def log (f : Store → StoreMove → Option α) (s : Store) : List StoreMove → List α
  | [] => []
  | m :: rest => (f s m).toList ++ log f (s.move m) rest

def handedOut (s : Store) (l : List StoreMove) : List (String × Collections) := s.log handsOut l

def usedUp (s : Store) (l : List StoreMove) : List String := s.log usesUp l

@[simp] theorem moves_concat (s : Store) (l : List StoreMove) (m : StoreMove) :
    s.moves (l ++ [m]) = (s.moves l).move m :=
  List.foldl_append

theorem log_concat (f : Store → StoreMove → Option α) (s : Store) (l : List StoreMove) (m : StoreMove) :
    s.log f (l ++ [m]) = s.log f l ++ (f (s.moves l) m).toList := by
  induction l generalizing s with
  | nil => exact List.append_nil _
  | cons m' rest ih =>
      rw [List.cons_append, log, ih (s.move m'), log, List.append_assoc]
      rfl

/-! ## One move -/

inductive Moved (s : Store) : Store → Option (String × Collections) → Option String → Prop where
  | kept {s' : Store} (snapshots : s'.snapshots = s.snapshots) (taken : s'.taken = s.taken) :
      Moved s s' none none
  | taken : Moved s s.snapshot.2 (some (s.snapshot.1, s.collections)) none
  | used {s' : Store} {handle : String} (saved : (s.saved? handle).isSome = true)
      (snapshots : s'.snapshots = Fields.erase handle s.snapshots) (taken : s'.taken = s.taken) :
      Moved s s' none (some handle)

theorem moved (s : Store) (m : StoreMove) : s.Moved (s.move m) (s.handsOut m) (s.usesUp m) := by
  cases m with
  | seed record rows => exact .kept rfl rfl
  | call c =>
      cases c with
      | request request =>
          obtain ⟨collections, h⟩ := s.perform_eq request
          have hsnapshots : (s.perform request).2.snapshots = s.snapshots := by rw [h]
          have htaken : (s.perform request).2.taken = s.taken := by rw [h]
          exact .kept hsnapshots htaken
      | snapshot => exact .taken
      | restore handle =>
          cases h : s.restore handle with
          | error fault =>
              simp only [move, call, handsOut, usesUp, h]
              exact .kept rfl rfl
          | ok s' =>
              obtain ⟨saved, hsaved, rfl⟩ := restore_eq_ok_iff.mp h
              simp only [move, call, handsOut, usesUp, h]
              exact .used (by rw [hsaved]; rfl) rfl rfl
      | discard handle =>
          cases h : s.discard handle with
          | error fault =>
              simp only [move, call, handsOut, usesUp, h]
              exact .kept rfl rfl
          | ok s' =>
              obtain ⟨hsaved, rfl⟩ := discard_eq_ok_iff.mp h
              simp only [move, call, handsOut, usesUp, h]
              exact .used hsaved rfl rfl

/-! ## Sequences -/

/-- The open snapshots of a store are those that were handed out and not used up. Handles are handed
out by number and used up once. -/
structure Tracks (s : Store) (handed : List (String × Collections)) (used : List String) : Prop where
  ascending : (s.snapshots.map Prod.fst).Pairwise (· < ·)
  named : handed.map Prod.fst = (List.range s.taken).map fun n => snapshotName (n + 1)
  saved {handle : String} {saved : Collections} :
    s.saved? handle = some saved ↔ (handle, saved) ∈ handed ∧ handle ∉ used
  known {handle : String} : handle ∈ used → handle ∈ handed.map Prod.fst
  once : used.Nodup
  balance : s.snapshots.length + used.length = handed.length

variable {handed : List (String × Collections)} {used : List String}

theorem Tracks.empty (keys : List ForeignKey) : Tracks (empty keys) [] [] where
  ascending := .nil
  named := rfl
  saved := ⟨nofun, fun h => nomatch h.1⟩
  known := nofun
  once := .nil
  balance := rfl

theorem Tracks.fresh (h : s.Tracks handed used) :
    snapshotName (s.taken + 1) ∉ handed.map Prod.fst := by
  rw [h.named]
  intro hmem
  obtain ⟨n, hn, heq⟩ := List.mem_map.mp hmem
  have := snapshotName_injective heq
  have := List.mem_range.mp hn
  omega

theorem Moved.tracks {o : Option (String × Collections)} {u : Option String} (hm : s.Moved s' o u)
    (h : s.Tracks handed used) : s'.Tracks (handed ++ o.toList) (used ++ u.toList) := by
  cases hm with
  | kept snapshots taken =>
      rw [Option.toList_none, Option.toList_none, List.append_nil, List.append_nil]
      refine ⟨snapshots ▸ h.ascending, taken ▸ h.named, fun {handle saved} => ?_, h.known, h.once,
        snapshots ▸ h.balance⟩
      rw [saved?_congr snapshots]
      exact h.saved
  | taken =>
      have hfresh := h.fresh
      have hunsaved : s.saved? (snapshotName (s.taken + 1)) = none := by
        refine Option.eq_none_iff_forall_ne_some.mpr fun saved hsaved => hfresh ?_
        exact List.mem_map_of_mem (h.saved.mp hsaved).1
      rw [Option.toList_some, Option.toList_none, List.append_nil]
      refine ⟨Fields.ascending_insert h.ascending _ _, ?_, fun {handle saved} => ?_, fun hused => ?_,
        h.once, ?_⟩
      · rw [List.map_append, h.named, snapshot_taken, List.range_succ, List.map_append]
        rfl
      · rw [List.mem_append, List.mem_singleton, Prod.mk.injEq, snapshot_handle]
        by_cases hname : handle = snapshotName (s.taken + 1)
        · subst hname
          have hunused : snapshotName (s.taken + 1) ∉ used := fun hmem => hfresh (h.known hmem)
          have hunhanded : (snapshotName (s.taken + 1), saved) ∉ handed := fun hmem =>
            hfresh (List.mem_map_of_mem hmem)
          simp [hunused, hunhanded, eq_comm]
        · rw [saved?_snapshot_of_ne s hname, h.saved]
          simp [hname]
      · exact List.mem_map.mpr ((List.mem_map.mp (h.known hused)).imp fun _ hf =>
          ⟨List.mem_append_left _ hf.1, hf.2⟩)
      · have hlength := Fields.length_insert_of_fresh hunsaved s.collections
        have hbalance := h.balance
        have hsnapshots : s.snapshot.2.snapshots =
            Fields.insert (snapshotName (s.taken + 1)) s.collections s.snapshots := rfl
        rw [hsnapshots, hlength, List.length_append, List.length_singleton]
        omega
  | @used _ handle saved snapshots taken =>
      obtain ⟨collections, hcollections⟩ := Option.isSome_iff_exists.mp saved
      obtain ⟨hhanded, hunused⟩ := h.saved.mp hcollections
      rw [Option.toList_some, Option.toList_none, List.append_nil]
      refine ⟨snapshots ▸ Fields.ascending_erase h.ascending handle, taken ▸ h.named,
        fun {other saved'} => ?_, fun {other} hused => ?_, ?_, ?_⟩
      · rw [List.mem_append, List.mem_singleton, not_or]
        by_cases hname : other = handle
        · subst hname
          rw [saved?_erase_self snapshots]
          simp
        · rw [saved?_erase_of_ne snapshots hname, h.saved]
          simp [hname]
      · rcases List.mem_append.mp hused with hused | hlast
        · exact h.known hused
        · rw [List.mem_singleton.mp hlast]
          exact List.mem_map_of_mem hhanded
      · exact List.nodup_append.mpr ⟨h.once, List.nodup_singleton _, fun a ha b hb hab =>
          hunused (List.mem_singleton.mp hb ▸ hab ▸ ha)⟩
      · have hlength := Fields.length_erase_of_some h.ascending saved
        have hbalance := h.balance
        rw [snapshots, List.length_append, List.length_singleton]
        omega

theorem tracks_of_moves (keys : List ForeignKey) (l : List StoreMove) :
    ((empty keys).moves l).Tracks ((empty keys).handedOut l) ((empty keys).usedUp l) := by
  induction l using List.reverseRecOn with
  | nil => exact .empty keys
  | append_singleton l m ih =>
      rw [moves_concat, handedOut, usedUp, log_concat, log_concat]
      exact (moved _ m).tracks ih

/-! ## Open handles -/

theorem restore_eq_error {handle : String} (h : s.saved? handle = none) :
    s.restore handle = .error (.unknownSnapshot handle) := by
  rw [restore, show Fields.get? handle s.snapshots = none from h]

theorem discard_eq_error {handle : String} (h : s.saved? handle = none) :
    s.discard handle = .error (.unknownSnapshot handle) := by
  rw [discard, Fields.has, show Fields.get? handle s.snapshots = none from h]
  rfl

/-- What the handles are good for that were handed out and used up in a sequence of operations. -/
structure Honours (s : Store) (handed : List (String × Collections)) (used : List String) : Prop where
  /-- An open handle brings its collections back, and leaves the other open ones what they are. -/
  restores {handle : String} {saved : Collections} : (handle, saved) ∈ handed → handle ∉ used →
    ∃ r, s.restore handle = .ok r ∧ r.collections = saved ∧ ∀ {other : String} {saved' : Collections},
      (other, saved') ∈ handed → other ∉ used → other ≠ handle →
      ∃ r', r.restore other = .ok r' ∧ r'.collections = saved'
  /-- An open handle can be given up instead. -/
  discards {handle : String} {saved : Collections} : (handle, saved) ∈ handed → handle ∉ used →
    ∃ d, s.discard handle = .ok d ∧ d.collections = s.collections
  refuses {handle : String} : handle ∈ used ∨ handle ∉ handed.map Prod.fst →
    s.restore handle = .error (.unknownSnapshot handle) ∧
      s.discard handle = .error (.unknownSnapshot handle)
  distinct : (handed.map Prod.fst).Nodup
  once : used.Nodup
  balance : s.openSnapshots + used.length = handed.length

/-- After any sequence of operations on an empty store every open handle restores what it was handed
out for, whatever was written, restored or discarded since then. -/
theorem snapshots_independent (keys : List ForeignKey) (l : List StoreMove) :
    Honours ((empty keys).moves l) ((empty keys).handedOut l) ((empty keys).usedUp l) := by
  have h := tracks_of_moves keys l
  generalize (empty keys).moves l = s at h ⊢
  generalize (empty keys).handedOut l = handed at h ⊢
  generalize (empty keys).usedUp l = used at h ⊢
  refine ⟨fun hhanded hunused => ?_, fun hhanded hunused => ?_, fun {handle} hgone => ?_, ?_, h.once,
    h.balance⟩
  · refine ⟨_, restore_eq_ok_iff.mpr ⟨_, h.saved.mpr ⟨hhanded, hunused⟩, rfl⟩, rfl, ?_⟩
    intro other saved' hother hopen hne
    refine ⟨_, restore_eq_ok_iff.mpr ⟨saved', ?_, rfl⟩, rfl⟩
    rw [saved?_erase_of_ne rfl hne]
    exact h.saved.mpr ⟨hother, hopen⟩
  · have hsaved := h.saved.mpr ⟨hhanded, hunused⟩
    exact ⟨_, discard_eq_ok_iff.mpr ⟨by rw [hsaved]; rfl, rfl⟩, rfl⟩
  · have hnone : s.saved? handle = none := by
      refine Option.eq_none_iff_forall_ne_some.mpr fun saved hsaved => ?_
      obtain ⟨hmem, hunused⟩ := h.saved.mp hsaved
      exact hgone.elim hunused fun hunhanded => hunhanded (List.mem_map_of_mem hmem)
    exact ⟨restore_eq_error hnone, discard_eq_error hnone⟩
  · rw [h.named]
    exact List.nodup_range.map fun m n heq => Nat.succ.inj (snapshotName_injective heq)

end Store
end FlowEngine
