import FlowEngine.Proofs.Store.Calls

/-!
# References between rows

A create and an update check the rows that they write: each value of a foreign key has to be the id of
a row that is there. Nobody checks who refers to the rows that an update or a delete takes away. So a
reference is that to a row of now, or to a row that was there until an update or a delete took the
last one with its id away.
-/
namespace FlowEngine

def RecordRequest.rewrites (record : String) : RecordRequest → Bool
  | .update name _ _ | .delete name _ => name = record
  | .create _ _ | .query _ _ => false

theorem Collection.get?_withId {field : String} {v : Json} {row : Row} (c : Collection)
    (h : Fields.get? field row = some v) : Fields.get? field (c.withId row).1 = some v := by
  unfold withId
  split
  · split <;> exact h
  · rename_i hnone
    rw [Fields.get?_insert_of_ne]
    · exact h
    · rintro rfl
      rw [h] at hnone
      cases hnone

namespace Store

variable {s s' : Store} {key : ForeignKey} {record : String} {row : Row} {id : Json}
  {request : RecordRequest}

def holds (s : Store) (record : String) (id : Json) : Bool := (s.rows record).any (Row.hasId id)

def Resolves (s : Store) (key : ForeignKey) (row : Row) : Prop :=
  ∃ v, Fields.get? key.field row = some v ∧ v ≠ .null ∧ s.holds key.references v = true

/-- All rows refer to rows that are there. -/
def Integral (s : Store) : Prop := ∀ key ∈ s.keys, ∀ row ∈ s.rows key.record, s.Resolves key row

/-! ## What is checked -/

theorem resolves_of_checkKey (h : s.checkKey row key = .ok ()) : s.Resolves key row := by
  unfold checkKey at h
  split at h
  · cases h
  · cases h
  · rename_i v hnull hv
    split at h
    · rename_i hheld
      exact ⟨v, hv, hnull, hheld⟩
    · cases h

theorem resolves_of_checkReferences (h : s.checkReferences record row = .ok ()) (hkey : key ∈ s.keys)
    (hrecord : key.record = record) : s.Resolves key row := by
  apply resolves_of_checkKey
  apply forM_eq_ok.mp h
  exact List.mem_filter.mpr ⟨hkey, decide_eq_true hrecord⟩

/-- The id that a row gets is no value that was checked. -/
theorem Resolves.append (h : s.Resolves key row) (c : Collection) : s.Resolves key (c.append row).1 := by
  obtain ⟨v, hv, hnull, hheld⟩ := h
  exact ⟨v, c.get?_withId hv, hnull, hheld⟩

/-- A row after a write was there before, or its references were found in what was there before. -/
theorem Writes.resolves (h : s.Writes request s') (hrow : row ∈ s'.rows record) :
    row ∈ s.rows record ∨ ∀ key ∈ s.keys, key.record = record → s.Resolves key row := by
  cases h with
  | nothing => exact Or.inl hrow
  | @created name payload checked =>
      rw [rows_putCollection] at hrow
      split at hrow
      · rename_i hname
        subst hname
        rcases List.mem_append.mp hrow with hold | hnew
        · exact Or.inl hold
        · obtain rfl := List.mem_singleton.mp hnew
          exact Or.inr fun key hkey hrecord =>
            (resolves_of_checkReferences checked hkey hrecord).append _
      · exact Or.inl hrow
  | @updated name filter changes checked =>
      rw [rows_putCollection] at hrow
      split at hrow
      · rename_i hname
        subst hname
        obtain ⟨old, hold, rfl⟩ := List.mem_map.mp hrow
        split
        · rename_i hagrees
          exact Or.inr fun key => resolves_of_checkReferences (checked old hold hagrees)
        · exact Or.inl hold
      · exact Or.inl hrow
  | deleted =>
      rw [rows_putCollection] at hrow
      split at hrow
      · rename_i hname
        subst hname
        exact Or.inl (List.mem_filter.mp hrow).1
      · exact Or.inl hrow

/-- What holds an id goes on to do so unless an update or a delete comes. -/
theorem Writes.holds (h : s.Writes request s') (hrewrites : request.rewrites record = false)
    (hheld : s.holds record id = true) : s'.holds record id = true := by
  have elsewhere {name : String} {c : Collection} (hname : ¬ name = record) :
      (s.putCollection name c).holds record id = true := by
    rwa [Store.holds, rows_putCollection, if_neg hname]
  cases h with
  | nothing => exact hheld
  | @created name payload checked =>
      by_cases hname : name = record
      · subst hname
        rw [Store.holds, rows_putCollection, if_pos rfl]
        exact List.any_append.trans (Bool.or_eq_true_iff.mpr (Or.inl hheld))
      · exact elsewhere hname
  | updated => exact elsewhere (of_decide_eq_false hrewrites)
  | deleted => exact elsewhere (of_decide_eq_false hrewrites)

/-! ## Sequences of calls -/

/-- One of the calls takes the last row with an id out of a collection. It is an update or a delete
there. -/
def TakenAway (keys : List ForeignKey) (l : List StoreCall) (record : String) (id : Json) : Prop :=
  ∃ before request after, l = before ++ .request request :: after ∧ request.rewrites record = true ∧
    ((empty keys).calls before).holds record id = true ∧
      ((empty keys).calls (before ++ [.request request])).holds record id = false

theorem TakenAway.concat {keys : List ForeignKey} {l : List StoreCall} (h : TakenAway keys l record id)
    (c : StoreCall) : TakenAway keys (l ++ [c]) record id := by
  obtain ⟨before, request, after, rfl, h⟩ := h
  exact ⟨before, request, after ++ [c], by simp, h⟩

/-- After any sequence of calls every row has a value for each foreign key of its collection, and
some row of the other collection has it as its id, unless an update or a delete took the last such
row away, which nobody prevents. -/
theorem references_accounted (keys : List ForeignKey) (l : List StoreCall) :
    ∀ key ∈ keys, ∀ row ∈ ((empty keys).calls l).rows key.record,
      ∃ v, Fields.get? key.field row = some v ∧ v ≠ .null ∧
        (((empty keys).calls l).holds key.references v = true ∨ TakenAway keys l key.references v) := by
  let with' (collections : Collections) : Store := { empty keys with collections }
  let P (l : List StoreCall) (collections : Collections) : Prop :=
    ∀ key ∈ keys, ∀ row ∈ (with' collections).rows key.record,
      ∃ v, Fields.get? key.field row = some v ∧ v ≠ .null ∧
        ((with' collections).holds key.references v = true ∨ TakenAway keys l key.references v)
  refine holds_of_calls (P := P) ?first ?later ?writes l
  case first =>
    intro key hkey row hrow
    cases hrow
  case later =>
    intro l collections c hP key hkey row hrow
    obtain ⟨v, hv, hnull, hheld⟩ := hP key hkey row hrow
    exact ⟨v, hv, hnull, hheld.imp_right (TakenAway.concat · c)⟩
  case writes =>
    intro l request hP h key hkey row hrow
    have found {v : Json} (hheld : ((empty keys).calls l).holds key.references v = true) :
        ((empty keys).calls (l ++ [.request request])).holds key.references v = true ∨
          TakenAway keys (l ++ [.request request]) key.references v := by
      cases hafter : ((empty keys).calls (l ++ [.request request])).holds key.references v with
      | true => exact Or.inl rfl
      | false =>
          refine Or.inr ⟨l, request, [], rfl, ?_, hheld, hafter⟩
          apply eq_true_of_ne_false
          intro hrewrites
          rw [h.holds hrewrites hheld] at hafter
          cases hafter
    rcases h.resolves hrow with hold | hresolves
    · obtain ⟨v, hv, hnull, hheld⟩ := hP key hkey row hold
      exact ⟨v, hv, hnull, hheld.elim found fun htaken => Or.inr (htaken.concat _)⟩
    · obtain ⟨v, hv, hnull, hheld⟩ := hresolves key (by rwa [calls_keys]) rfl
      exact ⟨v, hv, hnull, found hheld⟩

/-! ### An order whose user is deleted -/

def orderKey : ForeignKey := ⟨"Order", "user_id", "User"⟩

def abandonedOrder : List StoreCall :=
  [.request (.create "User" (.obj [])),
    .request (.create "Order" (.obj [("user_id", .ofNat 1)])),
    .request (.delete "User" (.obj []))]

theorem order_stays : ∃ row, row ∈ ((empty [orderKey]).calls abandonedOrder).rows orderKey.record :=
  List.exists_mem_of_length_pos (by decide +kernel)

theorem user_gone (id : Json) :
    ((empty [orderKey]).calls abandonedOrder).holds orderKey.references id = false := by
  have hrows : ((empty [orderKey]).calls abandonedOrder).rows orderKey.references = [] :=
    List.isEmpty_iff.mp (by decide +kernel)
  rw [holds, hrows]
  rfl

theorem references_accounted_abandoned :
    ∃ row, row ∈ ((empty [orderKey]).calls abandonedOrder).rows "Order" ∧
      ∃ v, Fields.get? "user_id" row = some v ∧ v ≠ .null ∧
        TakenAway [orderKey] abandonedOrder "User" v := by
  obtain ⟨row, hrow⟩ := order_stays
  obtain ⟨v, hv, hnull, hheld⟩ := references_accounted [orderKey] abandonedOrder orderKey
    (List.mem_singleton_self _) row hrow
  refine ⟨row, hrow, v, hv, hnull, hheld.resolve_left fun hheld => ?_⟩
  rw [user_gone] at hheld
  cases hheld

/-- So there is an order that refers to nobody. -/
theorem reference_dangles : ¬ ((empty [orderKey]).calls abandonedOrder).Integral := by
  intro h
  obtain ⟨row, hrow⟩ := order_stays
  obtain ⟨v, -, -, hheld⟩ := h orderKey (List.mem_singleton_self _) row hrow
  rw [user_gone] at hheld
  cases hheld

end Store
end FlowEngine
