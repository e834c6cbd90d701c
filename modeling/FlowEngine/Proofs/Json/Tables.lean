import Mathlib.Data.List.Perm.Subperm
import FlowEngine.Json.Basic

/-!
# Tables in the order of their keys

A table is a list of fields. It is ascending when its keys come in order, each of them once; storing
and removing a field keep it so. Then a field is found exactly where it stands, and the table has one
field more or less.
-/
namespace FlowEngine.Fields

variable {α : Type} {fields other : List (String × α)}

/-! ## Looking up -/

theorem mem_of_get? {key : String} {fields : List (String × α)} {a : α}
    (h : get? key fields = some a) : (key, a) ∈ fields := by
  induction fields with
  | nil => cases h
  | cons f rest ih =>
      obtain ⟨k, v⟩ := f
      rw [get?] at h
      split at h
      · rename_i hk
        cases h
        exact hk ▸ List.mem_cons_self
      · exact List.mem_cons_of_mem _ (ih h)

theorem not_mem_of_get? {key : String} {fields : List (String × α)} (h : get? key fields = none) :
    key ∉ fields.map Prod.fst := by
  induction fields with
  | nil => exact List.not_mem_nil
  | cons f rest ih =>
      obtain ⟨k, v⟩ := f
      rw [get?] at h
      split at h
      · cases h
      · rename_i hk
        rw [List.map_cons, List.mem_cons, not_or]
        exact ⟨Ne.symm hk, ih h⟩

theorem get?_of_mem (h : (fields.map Prod.fst).Pairwise (· < ·)) {key : String} {a : α}
    (hmem : (key, a) ∈ fields) : get? key fields = some a := by
  induction fields with
  | nil => cases hmem
  | cons f rest ih =>
      obtain ⟨hfirst, hrest⟩ := List.pairwise_cons.mp h
      rcases List.mem_cons.mp hmem with rfl | hmem
      · exact if_pos rfl
      · have hlt : f.1 < key := hfirst key (List.mem_map_of_mem hmem)
        exact (if_neg (String.ne_of_lt hlt)).trans (ih hrest hmem)

theorem get?_eq_some_iff_mem (h : (fields.map Prod.fst).Pairwise (· < ·)) {key : String} {a : α} :
    get? key fields = some a ↔ (key, a) ∈ fields :=
  ⟨mem_of_get?, get?_of_mem h⟩

theorem nodup_of_ascending (h : (fields.map Prod.fst).Pairwise (· < ·)) : fields.Nodup :=
  (List.pairwise_map.mp h).imp fun hlt heq => String.ne_of_lt hlt (congrArg Prod.fst heq)

theorem eq_of_perm (h : (fields.map Prod.fst).Pairwise (· < ·))
    (h' : (other.map Prod.fst).Pairwise (· < ·)) (hperm : fields.Perm other) : fields = other := by
  rw [List.pairwise_map] at h h'
  exact hperm.eq_of_pairwise (fun _ _ _ _ hfg hgf => absurd hgf (String.lt_asymm hfg)) h h'

/-- Of two tables of one size one holds the other only if they are the same. -/
theorem eq_of_subset (h : (fields.map Prod.fst).Pairwise (· < ·))
    (h' : (other.map Prod.fst).Pairwise (· < ·)) (hlength : fields.length = other.length)
    (hsub : fields ⊆ other) : fields = other :=
  eq_of_perm h h' (((nodup_of_ascending h).subperm hsub).perm_of_length_le (Nat.le_of_eq hlength.symm))

/-- Two tables in which every key has the same value are the same. -/
theorem eq_of_get? (h : (fields.map Prod.fst).Pairwise (· < ·))
    (h' : (other.map Prod.fst).Pairwise (· < ·))
    (hget : ∀ key, get? key fields = get? key other) : fields = other := by
  refine eq_of_perm h h' ?_
  refine (List.perm_ext_iff_of_nodup (nodup_of_ascending h) (nodup_of_ascending h')).mpr fun f => ?_
  rw [← get?_eq_some_iff_mem h, ← get?_eq_some_iff_mem h', hget]

/-! ## Storing -/

theorem mem_insert {key : String} {value : α} {f : String × α} (h : f ∈ insert key value fields) :
    f = (key, value) ∨ f ∈ fields := by
  induction fields with
  | nil => exact Or.inl (List.mem_singleton.mp h)
  | cons g rest ih =>
      obtain ⟨k, v⟩ := g
      rw [insert] at h
      split at h
      · exact (List.mem_cons.mp h).imp_right (List.mem_cons_of_mem _)
      · split at h
        · exact List.mem_cons.mp h
        · rcases List.mem_cons.mp h with rfl | h
          · exact Or.inr List.mem_cons_self
          · exact (ih h).imp_right (List.mem_cons_of_mem _)

theorem mem_keys_insert {key other : String} {value : α}
    (h : other ∈ (insert key value fields).map Prod.fst) :
    other = key ∨ other ∈ fields.map Prod.fst := by
  obtain ⟨f, hf, rfl⟩ := List.mem_map.mp h
  exact (mem_insert hf).imp (congrArg Prod.fst) List.mem_map_of_mem

/-- A table stores its fields in the order of their keys. -/
theorem ascending_insert (h : (fields.map Prod.fst).Pairwise (· < ·)) (key : String) (value : α) :
    ((insert key value fields).map Prod.fst).Pairwise (· < ·) := by
  induction fields with
  | nil => simp [insert]
  | cons f rest ih =>
      obtain ⟨k, v⟩ := f
      obtain ⟨hfirst, hrest⟩ := List.pairwise_cons.mp h
      rw [insert]
      split
      · rename_i heq
        subst heq
        exact h
      · rename_i hne
        split
        · rename_i hlt
          refine List.pairwise_cons.mpr ⟨fun other hother => ?_, h⟩
          rcases List.mem_cons.mp hother with rfl | hother
          · exact hlt
          · exact String.lt_trans hlt (hfirst other hother)
        · rename_i hlt
          refine List.pairwise_cons.mpr ⟨fun other hother => ?_, ih hrest⟩
          rcases mem_keys_insert hother with rfl | hother
          · exact Std.lt_of_le_of_ne (String.not_lt.mp hlt) hne
          · exact hfirst other hother

theorem ascending_insertAll (h : (fields.map Prod.fst).Pairwise (· < ·)) (added : List (String × α)) :
    ((insertAll fields added).map Prod.fst).Pairwise (· < ·) := by
  induction added generalizing fields with
  | nil => exact h
  | cons f rest ih => exact ih (ascending_insert h f.1 f.2)

theorem ascending_ofList (entries : List (String × α)) :
    ((ofList entries).map Prod.fst).Pairwise (· < ·) :=
  ascending_insertAll .nil entries

theorem length_insert_of_fresh {key : String} (h : get? key fields = none) (value : α) :
    (insert key value fields).length = fields.length + 1 := by
  induction fields with
  | nil => rfl
  | cons f rest ih =>
      obtain ⟨k, v⟩ := f
      rw [get?] at h
      split at h
      · cases h
      · rename_i hk
        rw [insert, if_neg hk]
        split
        · rfl
        · rw [List.length_cons, ih h, List.length_cons]

/-! ## Removing -/

@[simp] theorem get?_erase_self (key : String) (fields : List (String × α)) :
    get? key (erase key fields) = none := by
  induction fields with
  | nil => rfl
  | cons f rest ih =>
      obtain ⟨k, v⟩ := f
      by_cases h : k = key
      · simpa [erase, h] using ih
      · simpa [erase, get?, h] using ih

theorem get?_erase_of_ne {key other : String} (fields : List (String × α)) (h : other ≠ key) :
    get? other (erase key fields) = get? other fields := by
  induction fields with
  | nil => rfl
  | cons f rest ih =>
      obtain ⟨k, v⟩ := f
      by_cases hk : k = key
      · have hne : k ≠ other := fun ho => h (ho.symm.trans hk)
        simpa [erase, get?, hk, Ne.symm h] using ih
      · by_cases ho : k = other
        · simp [erase, get?, ho, h]
        · simpa [erase, get?, hk, ho] using ih

theorem ascending_erase (h : (fields.map Prod.fst).Pairwise (· < ·)) (key : String) :
    ((erase key fields).map Prod.fst).Pairwise (· < ·) :=
  h.sublist (List.filter_sublist.map Prod.fst)

theorem erase_of_fresh {key : String} (h : key ∉ fields.map Prod.fst) : erase key fields = fields :=
  List.filter_eq_self.mpr fun _ hf => decide_eq_true fun heq => h (heq ▸ List.mem_map_of_mem hf)

theorem length_erase_of_some (h : (fields.map Prod.fst).Pairwise (· < ·)) {key : String}
    (hget : (get? key fields).isSome = true) : (erase key fields).length + 1 = fields.length := by
  induction fields with
  | nil => cases hget
  | cons f rest ih =>
      obtain ⟨k, v⟩ := f
      obtain ⟨hfirst, hrest⟩ := List.pairwise_cons.mp h
      by_cases hk : k = key
      · subst hk
        have hfresh : k ∉ rest.map Prod.fst := fun hmem => String.lt_irrefl k (hfirst k hmem)
        have herase : erase k ((k, v) :: rest) = rest := by
          simpa [erase] using erase_of_fresh hfresh
        rw [herase, List.length_cons]
      · rw [get?, if_neg hk] at hget
        have herase : erase key ((k, v) :: rest) = (k, v) :: erase key rest := by simp [erase, hk]
        rw [herase, List.length_cons, List.length_cons, ih hrest hget]

end FlowEngine.Fields
