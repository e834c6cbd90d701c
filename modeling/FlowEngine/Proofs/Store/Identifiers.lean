import Mathlib.Algebra.Ring.Nat
import Mathlib.Data.List.Infix
import FlowEngine.Proofs.Format.Fields
import FlowEngine.Proofs.Store.References

/-!
# Generated ids

A collection counts the ids that creates give to its rows, and generates the next number. The counter
sees neither an id that an update writes nor one that is a double, and ids from `2^63` on are
compared as doubles. Where none of that happens, a generated id is new.
-/
namespace FlowEngine

def Row.hasPlainId (row : Row) : Bool :=
  match Fields.get? idField row with
  | some (.num n) => n.toSigned?.isSome
  | _ => true

def StoreCall.keepsIds : StoreCall → Bool
  | .request (.update _ _ changes) => (changes.field? idField).isNone
  | _ => true

theorem Number.lt_of_signed {n : Number} {k : Nat} (hs : n.toSigned?.isSome = true)
    (hk : n.toUnsigned? = some k) : k < 2 ^ 63 := by
  cases n with
  | double x finite => cases hs
  | int i inRange =>
      rw [toUnsigned?, Option.ite_none_right_eq_some, Option.some.injEq] at hk
      rw [toSigned?, Option.isSome_ite] at hs
      omega

theorem Number.toSigned?_int {i : Int} {inRange} (h : i < 9_223_372_036_854_775_808) :
    (Number.int i inRange).toSigned? = some i := if_pos h

theorem Json.valueEq_ofNat {n : Number} {k : Nat} (hk : k < 2 ^ 63) :
    (num n).valueEq (ofNat k) = n.valueEq (.int k (by omega)) := by
  have hofNat : ofNat k = .num (.int k (by omega)) := by
    have hmin : min k 18446744073709551615 = k := by omega
    unfold ofNat
    congr 2
    exact congrArg Nat.cast hmin
  rw [hofNat, valueEq]

/-- A plain number is equal to a natural number in the signed range only if it is that number. -/
theorem Json.asUnsigned?_of_valueEq {n : Number} {k : Nat} (hs : n.toSigned?.isSome = true)
    (hk : k < 2 ^ 63) (h : (num n).valueEq (ofNat k) = true) : n.toUnsigned? = some k := by
  rw [valueEq_ofNat hk] at h
  cases n with
  | double x finite => cases hs
  | int i inRange =>
      rw [Number.toSigned?, Option.isSome_ite] at hs
      rw [Number.valueEq, Number.toSigned?_int hs, Number.toSigned?_int (by omega)] at h
      obtain rfl : i = k := by simpa using h
      rw [Number.toUnsigned?, if_pos (Int.natCast_nonneg k), Int.toNat_natCast]

theorem Row.lt_of_plain {row : Row} {v : Json} {n : Nat} (h : row.hasPlainId = true)
    (hv : Fields.get? idField row = some v) (hn : v.asUnsigned? = some n) : n < 2 ^ 63 := by
  cases v with
  | num number =>
      rw [hasPlainId, hv] at h
      exact Number.lt_of_signed h hn
  | _ => cases hn

namespace Collection

structure Counts (c : Collection) : Prop where
  bounded : c.lastId.toNat < 2 ^ 63
  counted {row : Row} {v : Json} {n : Nat} : row ∈ c.rows → Fields.get? idField row = some v →
    v.asUnsigned? = some n → n ≤ c.lastId.toNat

variable {c : Collection} {row : Row}

theorem Counts.empty : Counts default := ⟨by decide, nofun⟩

theorem Counts.filter (h : c.Counts) (p : Row → Bool) : Counts { c with rows := c.rows.filter p } :=
  ⟨h.bounded, fun hrow => h.counted (List.mem_filter.mp hrow).1⟩

theorem Counts.map (h : c.Counts) {f : Row → Row}
    (hf : ∀ row, Fields.get? idField (f row) = Fields.get? idField row) :
    Counts { c with rows := c.rows.map f } := by
  refine ⟨h.bounded, fun {row v n} hrow hv => ?_⟩
  obtain ⟨old, hold, rfl⟩ := List.mem_map.mp hrow
  exact h.counted hold ((hf old).symm.trans hv)

theorem Counts.get?_withId (h : c.Counts) (hrow : Fields.get? idField row = none) :
    Fields.get? idField (c.withId row).1 = some (.ofNat (c.lastId.toNat + 1)) ∧
      (c.withId row).2.toNat = c.lastId.toNat + 1 := by
  have hbounded := h.bounded
  have hnext : (c.lastId + 1).toNat = c.lastId.toNat + 1 := by
    rw [UInt64.toNat_add]
    exact Nat.mod_eq_of_lt (by simp; omega)
  simp only [withId, hrow, Fields.get?_insert_self, hnext, and_self]

theorem Counts.withId (h : c.Counts) (hplain : (c.withId row).1.hasPlainId = true) :
    c.lastId.toNat ≤ (c.withId row).2.toNat ∧ (c.withId row).2.toNat < 2 ^ 63 ∧
      ∀ v n, Fields.get? idField (c.withId row).1 = some v → v.asUnsigned? = some n →
        n ≤ (c.withId row).2.toNat := by
  have hbounded := h.bounded
  cases hrow : Fields.get? idField row with
  | none =>
      obtain ⟨hid, hnext⟩ := h.get?_withId hrow
      have hnumber := Json.asUnsigned?_ofNat (n := c.lastId.toNat + 1) (by omega)
      have hlt := Row.lt_of_plain hplain hid hnumber
      refine ⟨by omega, by omega, fun v n hv hn => ?_⟩
      rw [hid, Option.some.injEq] at hv
      rw [← hv, hnumber, Option.some.injEq] at hn
      omega
  | some v =>
      cases hnumber : v.asUnsigned? with
      | none =>
          simp only [Collection.withId, hrow, hnumber] at hplain ⊢
          refine ⟨Nat.le_refl _, hbounded, fun v' n hv hn => ?_⟩
          cases hv
          rw [hnumber] at hn
          cases hn
      | some k =>
          simp only [Collection.withId, hrow, hnumber] at hplain ⊢
          have hlt := Row.lt_of_plain hplain hrow hnumber
          have hk : (UInt64.ofNat k).toNat = k := UInt64.toNat_ofNat_of_lt' (by simp [UInt64.size]; omega)
          have hcounter : (if c.lastId < .ofNat k then .ofNat k else c.lastId).toNat =
              max c.lastId.toNat k := by
            split <;> rename_i hless <;> rw [UInt64.lt_iff_toNat_lt, hk] at hless <;> omega
          rw [hcounter]
          refine ⟨by omega, by omega, fun v' n hv hn => ?_⟩
          cases hv
          rw [hnumber, Option.some.injEq] at hn
          omega

theorem Counts.append (h : c.Counts) (hplain : (c.append row).1.hasPlainId = true) :
    (c.append row).2.Counts := by
  obtain ⟨hle, hlt, hnew⟩ := h.withId hplain
  refine ⟨hlt, fun {other v n} hother hv hn => ?_⟩
  rcases List.mem_append.mp hother with hold | hlast
  · exact Nat.le_trans (h.counted hold hv hn) hle
  · obtain rfl := List.mem_singleton.mp hlast
    exact hnew v n hv hn

end Collection

namespace Store

variable {keys : List ForeignKey} {l : List StoreCall} {s s' : Store}

def hasPlainIds (s : Store) : Bool := s.collections.all fun (_, c) => c.rows.all Row.hasPlainId

/-- In a sequence of calls to an empty store all ids are plain, and no update writes one. -/
structure PlainIds (keys : List ForeignKey) (l : List StoreCall) : Prop where
  written {c : StoreCall} : c ∈ l → c.keepsIds = true
  plain {before : List StoreCall} : before <+: l → ((empty keys).calls before).hasPlainIds = true

theorem PlainIds.of_prefix (h : PlainIds keys l) {before : List StoreCall} (hbefore : before <+: l) :
    PlainIds keys before :=
  ⟨fun hc => h.written (hbefore.subset hc), fun hp => h.plain (hp.trans hbefore)⟩

theorem plain_of_mem_rows (h : s.hasPlainIds = true) (record : String) {row : Row}
    (hrow : row ∈ s.rows record) : row.hasPlainId = true := by
  unfold rows collection at hrow
  cases hc : Fields.get? record s.collections with
  | none =>
      rw [hc] at hrow
      cases hrow
  | some c =>
      rw [hc] at hrow
      exact List.all_eq_true.mp (List.all_eq_true.mp h _ (Fields.mem_of_get? hc)) row hrow

theorem collection_putCollection (s : Store) (name : String) (c : Collection) (record : String) :
    (s.putCollection name c).collection record = if name = record then c else s.collection record := by
  simp only [collection, putCollection]
  by_cases h : name = record
  · rw [if_pos h, h, Fields.get?_insert_self]
    rfl
  · rw [if_neg h, Fields.get?_insert_of_ne _ _ (Ne.symm h)]

def Counts (s : Store) : Prop := ∀ record, (s.collection record).Counts

theorem Counts.put (h : s.Counts) {name : String} {c : Collection} (hc : c.Counts) :
    (s.putCollection name c).Counts := by
  intro record
  rw [collection_putCollection]
  split
  · exact hc
  · exact h record

theorem Writes.counts {request : RecordRequest} (h : s.Writes request s') (hs : s.Counts)
    (hkeeps : (StoreCall.request request).keepsIds = true) (hplain : s'.hasPlainIds = true) :
    s'.Counts := by
  cases h with
  | nothing => exact hs
  | @created record row checked =>
      refine hs.put ((hs record).append (plain_of_mem_rows hplain record ?_))
      rw [rows_putCollection, if_pos rfl]
      exact List.mem_append_right _ (List.mem_singleton_self _)
  | @updated record filter changes checked =>
      have hnone : Fields.get? idField changes = none := Option.isNone_iff_eq_none.mp hkeeps
      refine hs.put ((hs record).map fun row => ?_)
      split
      · exact Fields.get?_insertAll_of_fresh (Fields.not_mem_of_get? hnone) row
      · rfl
  | @deleted record filter => exact hs.put ((hs record).filter _)

theorem counts_of_calls (h : PlainIds keys l) : ((empty keys).calls l).Counts := by
  let with' (collections : Collections) : Store := { empty keys with collections }
  let P (l : List StoreCall) (collections : Collections) : Prop :=
    PlainIds keys l → (with' collections).Counts
  refine holds_of_calls (P := P) ?first ?later ?writes l h
  case first =>
    exact fun _ record => Collection.Counts.empty
  case later =>
    exact fun c hP h => hP (h.of_prefix (List.prefix_append _ _))
  case writes =>
    intro l request hP hwrites h
    have hs : ((empty keys).calls l).Counts := hP (h.of_prefix (List.prefix_append _ _))
    exact hwrites.counts hs (h.written (by simp)) (h.plain List.prefix_rfl)

theorem Counts.fresh (h : s.Counts) (hplain : s.hasPlainIds = true) {record : String}
    (hnext : (s.collection record).lastId.toNat + 1 < 2 ^ 63) :
    s.holds record (.ofNat ((s.collection record).lastId.toNat + 1)) = false := by
  refine List.any_eq_false.mpr fun row hrow hid => ?_
  have hrowPlain : row.hasPlainId = true := plain_of_mem_rows hplain record hrow
  unfold Row.hasId at hid
  split at hid
  · rename_i v hv
    cases v with
    | num n =>
        rw [Row.hasPlainId, hv] at hrowPlain
        have hnumber := Json.asUnsigned?_of_valueEq hrowPlain hnext hid
        have hle := (h record).counted hrow hv hnumber
        omega
    | _ => simp [Json.valueEq, Json.ofNat] at hid
  · cases hid

/-- In a sequence of calls where all ids are plain and no update writes one, the id that a create
generates is not equal to that of any row of the collection. -/
theorem generated_id_fresh {record : String} {payload row : Row}
    (h : PlainIds keys (l ++ [.request (.create record (.obj payload))]))
    (hnone : Fields.get? idField payload = none)
    (hcreated : (((empty keys).calls l).perform (.create record (.obj payload))).1 = .ok (.obj row)) :
    ∃ id, Fields.get? idField row = some id ∧ ((empty keys).calls l).holds record id = false := by
  have hbefore : PlainIds keys l := h.of_prefix (List.prefix_append _ _)
  have hcounts := counts_of_calls hbefore
  have hnow := hbefore.plain List.prefix_rfl
  have hafter := h.plain List.prefix_rfl
  rw [calls_concat] at hafter
  generalize (empty keys).calls l = s at *
  obtain ⟨hid, -⟩ := (hcounts record).get?_withId hnone
  cases hcreate : s.create record (.obj payload) with
  | error fault => simp [perform, hcreate] at hcreated
  | ok answer =>
      obtain ⟨v, s'⟩ := answer
      obtain ⟨payload', hpayload, -, rfl, rfl⟩ := writes_of_create hcreate
      cases hpayload
      obtain rfl : ((s.collection record).append payload).1 = row := by
        simpa [perform, hcreate] using hcreated
      have hplain : Row.hasPlainId ((s.collection record).append payload).1 = true := by
        apply plain_of_mem_rows hafter record
        simp only [call, perform, hcreate, rows_putCollection, if_true]
        exact List.mem_append_right _ (List.mem_singleton_self _)
      have hbounded := (hcounts record).bounded
      have hnext := Row.lt_of_plain hplain hid (Json.asUnsigned?_ofNat (by omega))
      exact ⟨_, hid, hcounts.fresh hnow hnext⟩

/-! ### Given ids -/

def givenId : List StoreCall :=
  [.request (.create "U" (.obj [("id", .ofNat 5)])),
    .request (.update "U" (.obj []) (.obj [("name", .str "ada")]))]

theorem givenId_plain :
    PlainIds [] (givenId ++ [.request (.create "U" (.obj []))]) := by
  constructor
  · exact List.all_eq_true.mp (by decide +kernel) _
  · intro before hbefore
    have hall : (givenId ++ [StoreCall.request (.create "U" (.obj []))]).inits.all
        (fun before => ((empty []).calls before).hasPlainIds) = true := by decide +kernel
    exact List.all_eq_true.mp hall before ((List.mem_inits _ _).mpr hbefore)

theorem generated_id_fresh_given : ∃ row id,
    (((empty []).calls givenId).perform (.create "U" (.obj []))).1 = .ok (.obj row) ∧
      Fields.get? idField row = some id ∧ ((empty []).calls givenId).holds "U" id = false := by
  obtain ⟨row, hrow⟩ : ∃ row, (((empty []).calls givenId).perform (.create "U" (.obj []))).1 =
      .ok (.obj row) := ⟨_, rfl⟩
  obtain ⟨id, hid, hfree⟩ := generated_id_fresh givenId_plain rfl hrow
  exact ⟨row, id, hrow, hid, hfree⟩

def writtenId : List StoreCall :=
  [.request (.create "U" (.obj [])),
    .request (.update "U" (.obj []) (.obj [("id", .ofNat 2)]))]

/-- The next one gets the same id. -/
theorem generated_id_repeats : ∃ row id,
    (((empty []).calls writtenId).perform (.create "U" (.obj []))).1 = .ok (.obj row) ∧
      Fields.get? idField row = some id ∧ ((empty []).calls writtenId).holds "U" id = true :=
  ⟨_, _, rfl, rfl, by decide +kernel⟩

end Store
end FlowEngine
