import FlowEngine.Json.Decode
import Mathlib.Algebra.Ring.Nat
import Mathlib.Data.List.Nodup

/-!
# Reading written fields

An encoder writes an object as a list of entries, a decoder reads it field by field. When no key
stands twice in the list, a field of the object is its entry, and a key without an entry is no
field. `Inverts` says of one value that its encoding is read back and is not null, so that it can
stand in an option; the readers of required, optional and defaulted fields then give the value back.
-/
namespace FlowEngine

namespace Fields
variable {α : Type}

theorem get?_insertAll_of_fresh {key : String} {added : List (String × α)}
    (h : key ∉ added.map Prod.fst) (fields : List (String × α)) :
    get? key (insertAll fields added) = get? key fields := by
  induction added generalizing fields with
  | nil => rfl
  | cons f rest ih =>
    obtain ⟨k, v⟩ := f
    simp only [List.map_cons, List.mem_cons, not_or] at h
    exact (ih h.2 _).trans (get?_insert_of_ne v fields h.1)

theorem get?_insertAll_of_mem {key : String} {value : α} {added : List (String × α)}
    (hn : (added.map Prod.fst).Nodup) (h : (key, value) ∈ added) (fields : List (String × α)) :
    get? key (insertAll fields added) = some value := by
  induction added generalizing fields with
  | nil => cases h
  | cons f rest ih =>
    obtain ⟨k, v⟩ := f
    obtain ⟨hk, hrest⟩ := List.nodup_cons.mp hn
    cases h with
    | head => exact (get?_insertAll_of_fresh hk _).trans (get?_insert_self key value fields)
    | tail _ h => exact ih hrest h _

theorem mem_of_get?_insertAll {key : String} {value : α} {added fields : List (String × α)}
    (h : get? key (insertAll fields added) = some value) :
    (key, value) ∈ added ∨ get? key fields = some value := by
  induction added generalizing fields with
  | nil => exact .inr h
  | cons f rest ih =>
    obtain ⟨k, v⟩ := f
    obtain hmem | hget := ih h
    · exact .inl (.tail _ hmem)
    · by_cases hk : key = k
      · subst hk
        rw [get?_insert_self] at hget
        cases hget
        exact .inl (.head _)
      · exact .inr ((get?_insert_of_ne v fields hk).symm.trans hget)

end Fields

namespace Json
variable {α : Type} {key : String} {v w : Json}

theorem asUnsigned?_ofNat {n : Nat} (h : n < 2 ^ 64) : (ofNat n).asUnsigned? = some n := by
  have hmin : min n 18446744073709551615 = n := by omega
  simp [ofNat, asUnsigned?, asNumber?, Number.toUnsigned?, hmin]

theorem field?_object {entries : List (String × Json)} (hn : (entries.map Prod.fst).Nodup)
    (h : (key, w) ∈ entries) : (object entries).field? key = some w :=
  Fields.get?_insertAll_of_mem hn h []

theorem mem_of_field?_object {entries : List (String × Json)}
    (h : (object entries).field? key = some w) : (key, w) ∈ entries := by
  obtain hmem | hget := Fields.mem_of_get?_insertAll h
  · exact hmem
  · cases hget

theorem mem_present {entries : List (String × Option Json)} :
    (key, w) ∈ entries.filterMap (fun (k, v?) => v?.map fun v => (k, v)) ↔
      (key, some w) ∈ entries := by
  simp only [List.mem_filterMap, Prod.exists, Option.map_eq_some_iff, Prod.mk.injEq]
  constructor
  · rintro ⟨_, _, hmem, _, rfl, rfl, rfl⟩
    exact hmem
  · intro hmem
    exact ⟨key, some w, hmem, w, rfl, rfl, rfl⟩

theorem mem_of_field?_record {entries : List (String × Option Json)}
    (h : (record entries).field? key = some w) : (key, some w) ∈ entries :=
  mem_present.mp (mem_of_field?_object h)

theorem nodup_present {entries : List (String × Option Json)}
    (hn : (entries.map Prod.fst).Nodup) :
    ((entries.filterMap fun (k, v?) => v?.map fun v => (k, v)).map Prod.fst).Nodup := by
  refine hn.sublist ?_
  induction entries with
  | nil => exact .slnil
  | cons e rest ih =>
    obtain ⟨k, v?⟩ := e
    have ih := ih (List.nodup_cons.mp hn).2
    cases v? with
    | none => exact ih.cons _
    | some v => exact ih.cons_cons _

theorem field?_record {entries : List (String × Option Json)} {w? : Option Json}
    (hn : (entries.map Prod.fst).Nodup) (h : (key, w?) ∈ entries) :
    (record entries).field? key = w? := by
  cases w? with
  | some w => exact field?_object (nodup_present hn) (mem_present.mpr h)
  | none =>
    refine Option.eq_none_iff_forall_not_mem.mpr fun w hw => ?_
    have := List.inj_on_of_nodup_map hn h (mem_of_field?_record hw) rfl
    cases this

structure Inverts (read : Json → Option α) (write : α → Json) (x : α) : Prop where
  read_write : read (write x) = some x
  not_null : write x ≠ .null

namespace Inverts
variable {read : Json → Option α} {write : α → Json} {x : α}

theorem required (h : Inverts read write x) (hf : v.field? key = some (write x)) :
    v.required key read = some x := by
  rw [Json.required, hf]
  exact h.read_write

theorem withDefault (h : Inverts read write x) (hf : v.field? key = some (write x))
    (fallback : α) : v.withDefault key read fallback = some x := by
  rw [Json.withDefault, hf]
  exact h.read_write

theorem optional {o : Option α} (h : ∀ x ∈ o, Inverts read write x)
    (hf : v.field? key = o.map write) : v.optional key read = some o := by
  cases o with
  | none => rw [Json.optional, hf]; rfl
  | some x =>
    obtain ⟨hread, hnull⟩ := h x rfl
    rw [Json.optional, hf]
    simp only [Option.map_some, hread]

theorem list {xs : List α} (h : ∀ x ∈ xs, Inverts read write x) :
    Inverts (listOf read) (fun xs => .arr (xs.map write)) xs where
  read_write := by
    change (xs.map write).mapM read = some xs
    induction xs with
    | nil => rfl
    | cons x rest ih =>
      rw [List.map_cons, List.mapM_cons, (h x (.head _)).read_write,
        ih fun x hx => h x (.tail _ hx)]
      rfl
  not_null := nofun

theorem text (s : String) : Inverts asText? Json.str s := ⟨rfl, nofun⟩

theorem flag (b : Bool) : Inverts asBool? Json.bool b := ⟨rfl, nofun⟩

end Inverts

/-! Children are read without their sizes. -/

theorem child?_of_field? (h : v.field? key = some w) :
    v.child? key = some ⟨w, sizeOf_field?_lt h⟩ := by
  rw [child?]
  split
  · rename_i heq
    cases h.symm.trans heq
    rfl
  · rename_i heq
    cases h.symm.trans heq

theorem child?_of_missing (h : v.field? key = none) : v.child? key = none := by
  rw [child?]
  split
  · rename_i heq
    cases h.symm.trans heq
  · rfl

theorem childItems?_eq (v : Json) : v.childItems?.map (·.map Subtype.val) = v.asItems? := by
  cases v with
  | arr items =>
    simp only [childItems?, asItems?, Option.map_some, List.map_map]
    exact congrArg some (List.attach_map_subtype_val items)
  | _ => rfl

theorem mapM_childItems? (read : Json → Option α) (v : Json) :
    (do (← v.childItems?).mapM fun item => read item.1) = v.listOf read := by
  rw [listOf, ← childItems?_eq]
  cases v.childItems? with
  | none => rfl
  | some items => exact List.mapM_map.symm

theorem exists_childItems? {read : Json → Option α} {xs : List α} (h : v.listOf read = some xs) :
    ∃ items, v.childItems? = some items ∧ items.mapM (fun item => read item.1) = some xs := by
  rw [← mapM_childItems?] at h
  exact Option.bind_eq_some_iff.mp h

end Json
end FlowEngine
