import FlowEngine.Proofs.Store.Identifiers

/-!
# The relational reading of the record store

A collection is read as a list of rows, and a row as a map from fields to values. Read so, a request
selects the rows that match its filter, and a call says how the store after it and the report come
from the store before. A call that is refused reports a failure and leaves the store as it was.
-/
namespace FlowEngine

namespace Fields

variable {α : Type}

theorem get?_append (key : String) (l l' : List (String × α)) :
    get? key (l ++ l') = (get? key l).or (get? key l') := by
  induction l with
  | nil => rfl
  | cons f rest ih =>
      obtain ⟨k, v⟩ := f
      by_cases h : k = key
      · simp [get?, h]
      · simpa [get?, h] using ih

/-- Of two new values the last one counts, and any of them hides the old value. -/
theorem get?_insertAll (key : String) (fields added : List (String × α)) :
    get? key (insertAll fields added) = (get? key added.reverse).or (get? key fields) := by
  induction added generalizing fields with
  | nil => rfl
  | cons f rest ih =>
      obtain ⟨k, v⟩ := f
      rw [List.reverse_cons, get?_append, Option.or_assoc]
      refine (ih (insert k v fields)).trans ?_
      congr 1
      by_cases h : k = key
      · rw [h, get?_insert_self]
        simp [get?]
      · rw [get?_insert_of_ne v fields (Ne.symm h)]
        simp [get?, h]

end Fields

namespace Row

variable {filter row : Row}

/-- A row has every field of a filter with an equal value. -/
def Matches (filter row : Row) : Prop :=
  ∀ condition ∈ filter, ∃ v, Fields.get? condition.1 row = some v ∧ v.valueEq condition.2 = true

theorem agrees_iff : agrees filter row = true ↔ Matches filter row := by
  rw [agrees, List.all_eq_true]
  refine forall₂_congr fun condition _ => ?_
  obtain ⟨field, expected⟩ := condition
  cases h : Fields.get? field row with
  | none => simp [h]
  | some v => simp [h]

instance (filter row : Row) : Decidable (Matches filter row) := decidable_of_iff _ agrees_iff

theorem agrees_eq_decide (filter : Row) : agrees filter = fun row => decide (Matches filter row) := by
  funext row
  rw [Bool.eq_iff_iff, decide_eq_true_iff]
  exact agrees_iff

def Overlaid (changes row row' : Row) : Prop :=
  ∀ field, Fields.get? field row' = (Fields.get? field changes.reverse).or (Fields.get? field row)

theorem overlaid_insertAll (changes row : Row) : Overlaid changes row (Fields.insertAll row changes) :=
  fun field => Fields.get?_insertAll field row changes

theorem overlaid_insert (field : String) (v : Json) (row : Row) :
    Overlaid [(field, v)] row (Fields.insert field v row) :=
  overlaid_insertAll [(field, v)] row

/-- What an update makes of a row: the changes lie over it if it matched before, and it stays as it is
otherwise. -/
def Updated (filter changes row row' : Row) : Prop :=
  if Matches filter row then Overlaid changes row row' else row' = row

end Row

namespace Store

variable {s s' : Store} {record handle : String} {row row' : Row} {key : ForeignKey} {c : StoreCall}

/-! ## What is accepted -/

theorem checkKey_eq_ok : s.checkKey row key = .ok () ↔ s.Resolves key row := by
  refine ⟨resolves_of_checkKey, ?_⟩
  rintro ⟨v, hv, hnull, hheld⟩
  rw [checkKey, hv]
  split
  · rename_i hv'
    cases hv'
  · rename_i hv'
    cases hv'
    exact absurd rfl hnull
  · rename_i hv'
    cases hv'
    exact if_pos hheld

def Admits (s : Store) (record : String) (row : Row) : Prop :=
  ∀ key ∈ s.keys, key.record = record → s.Resolves key row

theorem checkReferences_eq_ok : s.checkReferences record row = .ok () ↔ s.Admits record row := by
  rw [checkReferences, forM_eq_ok]
  refine ⟨fun h key hkey hrecord => ?_, fun h key hkey => ?_⟩
  · exact checkKey_eq_ok.mp (h key (List.mem_filter.mpr ⟨hkey, decide_eq_true hrecord⟩))
  · obtain ⟨hkey, hrecord⟩ := List.mem_filter.mp hkey
    exact checkKey_eq_ok.mpr (h key hkey (of_decide_eq_true hrecord))

theorem Admits.congr (h : s.Admits record row)
    (hrow : ∀ field, Fields.get? field row' = Fields.get? field row) : s.Admits record row' := by
  intro key hkey hrecord
  obtain ⟨v, hv, hheld⟩ := h key hkey hrecord
  exact ⟨v, (hrow key.field).trans hv, hheld⟩

theorem admits_insertAll {changes : Row} : s.Admits record (Fields.insertAll row changes) ↔
    ∀ row', Row.Overlaid changes row row' → s.Admits record row' := by
  refine ⟨fun h row' hrow => h.congr fun field => ?_, fun h => h _ (Row.overlaid_insertAll changes row)⟩
  exact (hrow field).trans (Fields.get?_insertAll field row changes).symm

/-- What a store accepts: filters, payloads and changes that are objects, rows whose foreign keys
resolve in the store before the call, and handles of open snapshots. -/
def Accepts (s : Store) : StoreCall → Prop
  | .request (.create record payload) => ∃ row, payload = .obj row ∧ s.Admits record row
  | .request (.update record filter changes) => ∃ f c, filter = .obj f ∧ changes = .obj c ∧
      ∀ row ∈ s.rows record, Row.Matches f row → ∀ row', Row.Overlaid c row row' → s.Admits record row'
  | .request (.delete _ filter) | .request (.query _ filter) => ∃ f, filter = .obj f
  | .snapshot => True
  | .restore handle | .discard handle => (s.saved? handle).isSome

/-! ## What is reported -/

def report (s : Store) : StoreCall → Outcome
  | .request request => (s.perform request).1
  | .snapshot => .ok (.str s.snapshot.1)
  | .restore handle => settled (s.restore handle)
  | .discard handle => settled (s.discard handle)
where
  settled : Except Fault Store → Outcome
    | .ok _ => .ok .null
    | .error fault => .failed fault.toError.kind fault.toError.message

/-- One collection becomes another, and all else in a store stays. -/
structure Puts (s : Store) (record : String) (c : Collection) (s' : Store) : Prop where
  collection : s'.collection record = c
  others {other : String} : other ≠ record →
    Fields.get? other s'.collections = Fields.get? other s.collections
  keys : s'.keys = s.keys
  snapshots : s'.snapshots = s.snapshots
  taken : s'.taken = s.taken

theorem puts_putCollection (s : Store) (record : String) (c : Collection) :
    s.Puts record c (s.putCollection record c) where
  collection := by rw [collection, putCollection, Fields.get?_insert_self, Option.getD_some]
  others hother := Fields.get?_insert_of_ne c s.collections hother
  keys := rfl
  snapshots := rfl
  taken := rfl

theorem puts_self (s : Store) (record : String) : s.Puts record (s.collection record) s :=
  ⟨rfl, fun _ => rfl, rfl, rfl, rfl⟩

/-- How the report on a call and the store after it come from the store before it. -/
inductive Answers (s : Store) : StoreCall → Outcome → Store → Prop where
  | queried {record : String} {filter : Row} :
      Answers s (.request (.query record (.obj filter)))
        (.ok (.arr (((s.rows record).filter (Row.Matches filter)).map .obj))) s
  | deleted {record : String} {filter : Row} {s' : Store}
      (puts : s.Puts record { s.collection record with
        rows := (s.rows record).filter (¬ Row.Matches filter ·) } s') :
      Answers s (.request (.delete record (.obj filter)))
        (.ok (.ofNat ((s.rows record).filter (Row.Matches filter)).length)) s'
  | updated {record : String} {filter changes : Row} {rows : List Row} {s' : Store}
      (accepted : s.Accepts (.request (.update record (.obj filter) (.obj changes))))
      (updates : (s.rows record).Forall₂ (Row.Updated filter changes) rows)
      (puts : s.Puts record { s.collection record with rows } s') :
      Answers s (.request (.update record (.obj filter) (.obj changes)))
        (.ok (.ofNat ((s.rows record).filter (Row.Matches filter)).length)) s'
  | entered {record : String} {payload : Row} {id : Json} {lastId : UInt64} {s' : Store}
      (accepted : s.Accepts (.request (.create record (.obj payload))))
      (given : Fields.get? idField payload = some id)
      (puts : s.Puts record ⟨s.rows record ++ [payload], lastId⟩ s') :
      Answers s (.request (.create record (.obj payload))) (.ok (.obj payload)) s'
  | numbered {record : String} {payload row : Row} {lastId : UInt64} {s' : Store}
      (accepted : s.Accepts (.request (.create record (.obj payload))))
      (missing : Fields.get? idField payload = none)
      (next : lastId = (s.collection record).lastId + 1)
      (overlaid : Row.Overlaid [(idField, .ofNat lastId.toNat)] payload row)
      (puts : s.Puts record ⟨s.rows record ++ [row], lastId⟩ s') :
      Answers s (.request (.create record (.obj payload))) (.ok (.obj row)) s'
  | taken : Answers s .snapshot (.ok (.str (snapshotName (s.taken + 1)))) s.snapshot.2
  | restored {handle : String} {saved : Collections} (held : s.saved? handle = some saved) :
      Answers s (.restore handle) (.ok .null)
        { s with collections := saved, snapshots := Fields.erase handle s.snapshots }
  | discarded {handle : String} (held : (s.saved? handle).isSome) :
      Answers s (.discard handle) (.ok .null)
        { s with snapshots := Fields.erase handle s.snapshots }
  | refused {c : StoreCall} {kind : ErrorKind} {message : String} (unaccepted : ¬ s.Accepts c) :
      Answers s c (.failed kind message) s

/-! ## What the operations do -/

/-- A request that fails changes nothing, so it is enough that it was not to be accepted. -/
theorem answers_of_error {request : RecordRequest} (fault : Fault)
    (h : s.perform request = (.failed .validation fault.message, s))
    (unaccepted : ¬ s.Accepts (.request request)) :
    s.Answers (.request request) (s.report (.request request)) (s.call (.request request)) := by
  rw [report, call, h]
  exact .refused unaccepted

theorem answers_create (s : Store) (record : String) (payload : Json) :
    s.Answers (.request (.create record payload)) (s.report (.request (.create record payload)))
      (s.call (.request (.create record payload))) := by
  cases h : s.create record payload with
  | error fault =>
      apply answers_of_error fault (by rw [perform, h])
      rintro ⟨row, rfl, hadmits⟩
      have hchecked := checkReferences_eq_ok.mpr hadmits
      simp only [create, hchecked, bind, Except.bind] at h
      cases h
  | ok answer =>
      obtain ⟨row, rfl, hchecked, hv, hs⟩ := writes_of_create h
      have accepted : s.Accepts (.request (.create record (.obj row))) :=
        ⟨row, rfl, checkReferences_eq_ok.mp hchecked⟩
      simp only [report, call, perform, h, hv, hs]
      have puts := s.puts_putCollection record ((s.collection record).append row).2
      simp only [Collection.append, Collection.withId] at puts ⊢
      cases hid : Fields.get? idField row with
      | none =>
          simp only [hid] at puts ⊢
          exact .numbered accepted hid rfl (Row.overlaid_insert idField _ row) puts
      | some id =>
          simp only [hid] at puts ⊢
          split at puts
          all_goals exact .entered accepted hid puts

/-- The check of an update, before anything is written, is for all rows that are to be overlaid. -/
theorem forM_check_eq_ok {filter changes : Row} :
    (((s.rows record).filter (Row.agrees filter)).forM fun row =>
      s.checkReferences record (Fields.insertAll row changes)) = .ok () ↔
      s.Accepts (.request (.update record (.obj filter) (.obj changes))) := by
  simp only [forM_eq_ok, List.mem_filter, Row.agrees_iff, checkReferences_eq_ok, admits_insertAll,
    Accepts, Json.obj.injEq, exists_and_left, exists_eq_left', and_imp]

theorem accepts_of_update {filter changes : Json} {answer : Json × Store}
    (h : s.update record filter changes = .ok answer) :
    s.Accepts (.request (.update record filter changes)) := by
  unfold update at h
  obtain ⟨fields, hfields, h⟩ := exists_of_bind_eq_ok h
  cases changes with
  | obj overlay =>
      obtain ⟨overlay', hoverlay, h⟩ := exists_of_bind_eq_ok h
      cases hoverlay
      obtain ⟨checked, hchecked, -⟩ := exists_of_bind_eq_ok h
      rw [filterFields_eq_ok hfields]
      exact forM_check_eq_ok.mp hchecked
  | _ => cases h

/-- The rows that are changed are those that are counted, though they are selected a second time. -/
theorem update_of_accepts {filter changes : Row}
    (accepted : s.Accepts (.request (.update record (.obj filter) (.obj changes)))) :
    ∃ rows s', s.update record (.obj filter) (.obj changes) =
        .ok (.ofNat ((s.rows record).filter (Row.Matches filter)).length, s') ∧
      (s.rows record).Forall₂ (Row.Updated filter changes) rows ∧
      s.Puts record { s.collection record with rows } s' := by
  have hchecked := forM_check_eq_ok.mpr accepted
  simp only [update, filterFields, hchecked, bind, Except.bind]
  rw [Row.agrees_eq_decide]
  split
  · rename_i hnone
    rw [List.isEmpty_iff, List.filter_eq_nil_iff] at hnone
    refine ⟨s.rows record, s, rfl, List.forall₂_same.mpr fun row hrow => ?_, s.puts_self record⟩
    exact (if_neg (hnone row hrow ∘ decide_eq_true)).mpr rfl
  · refine ⟨_, _, rfl, ?_, s.puts_putCollection record _⟩
    rw [List.forall₂_map_right_iff, List.forall₂_same]
    intro row _
    simp only [Row.Updated, decide_eq_true_eq]
    split
    · exact Row.overlaid_insertAll changes row
    · rfl

theorem answers_update (s : Store) (record : String) (filter changes : Json) :
    s.Answers (.request (.update record filter changes))
      (s.report (.request (.update record filter changes)))
      (s.call (.request (.update record filter changes))) := by
  cases h : s.update record filter changes with
  | error fault =>
      apply answers_of_error fault (by rw [perform, h])
      intro accepted
      have objects := accepted
      obtain ⟨fields, overlay, rfl, rfl, -⟩ := objects
      obtain ⟨rows, s', h', -⟩ := update_of_accepts accepted
      cases h.symm.trans h'
  | ok answer =>
      have accepted := accepts_of_update h
      have objects := accepted
      obtain ⟨fields, overlay, rfl, rfl, -⟩ := objects
      obtain ⟨rows, s', h', updates, puts⟩ := update_of_accepts accepted
      simp only [report, call, perform, h']
      exact .updated accepted updates puts

/-- The rows that are gone are those that matched, also when there are none. -/
theorem delete_obj (s : Store) (record : String) (filter : Row) :
    ∃ s', s.delete record (.obj filter) =
        .ok (.ofNat ((s.rows record).filter (Row.Matches filter)).length, s') ∧
      s.Puts record { s.collection record with
        rows := (s.rows record).filter (¬ Row.Matches filter ·) } s' := by
  have hcount : (s.rows record).length - ((s.rows record).filter (¬ Row.Matches filter ·)).length =
      ((s.rows record).filter (Row.Matches filter)).length := by
    rw [(s.rows record).length_eq_length_filter_add (Row.Matches filter ·)]
    simp only [decide_not, Nat.add_sub_cancel_right]
  simp only [delete, filterFields, bind, Except.bind, Row.agrees_eq_decide, ← decide_not, hcount]
  split
  · rename_i hkept
    refine ⟨s, rfl, ?_⟩
    rw [List.filter_eq_self.mpr (List.length_filter_eq_length_iff.mp hkept)]
    exact s.puts_self record
  · exact ⟨_, rfl, s.puts_putCollection record _⟩

theorem answers_delete (s : Store) (record : String) (filter : Json) :
    s.Answers (.request (.delete record filter)) (s.report (.request (.delete record filter)))
      (s.call (.request (.delete record filter))) := by
  cases h : s.delete record filter with
  | error fault =>
      apply answers_of_error fault (by rw [perform, h])
      rintro ⟨fields, rfl⟩
      obtain ⟨s', h', -⟩ := s.delete_obj record fields
      cases h.symm.trans h'
  | ok answer =>
      obtain ⟨fields, hfields, -⟩ := exists_of_bind_eq_ok h
      obtain rfl := filterFields_eq_ok hfields
      obtain ⟨s', h', puts⟩ := s.delete_obj record fields
      simp only [report, call, perform, h']
      exact .deleted puts

theorem answers_query (s : Store) (record : String) (filter : Json) :
    s.Answers (.request (.query record filter)) (s.report (.request (.query record filter)))
      (s.call (.request (.query record filter))) := by
  cases h : s.query record filter with
  | error fault =>
      apply answers_of_error fault (by rw [perform, h]; rfl)
      rintro ⟨fields, rfl⟩
      cases h
  | ok v =>
      obtain ⟨fields, hfields, hv⟩ := exists_of_bind_eq_ok h
      obtain rfl := filterFields_eq_ok hfields
      cases hv
      simp only [report, call, perform, h, Except.map]
      rw [Row.agrees_eq_decide]
      exact .queried

theorem answers_restore (s : Store) (handle : String) :
    s.Answers (.restore handle) (s.report (.restore handle)) (s.call (.restore handle)) := by
  cases hsaved : s.saved? handle with
  | none =>
      have h : s.restore handle = .error (.unknownSnapshot handle) := by
        rw [restore, show Fields.get? handle s.snapshots = none from hsaved]
      rw [report, call, h]
      exact .refused (by simp [Accepts, hsaved])
  | some saved =>
      rw [report, call, restore_eq_ok_iff.mpr ⟨saved, hsaved, rfl⟩]
      exact .restored hsaved

theorem answers_discard (s : Store) (handle : String) :
    s.Answers (.discard handle) (s.report (.discard handle)) (s.call (.discard handle)) := by
  by_cases hheld : (s.saved? handle).isSome
  · rw [report, call, discard_eq_ok_iff.mpr ⟨hheld, rfl⟩]
    exact .discarded hheld
  · have h : s.discard handle = .error (.unknownSnapshot handle) := if_neg hheld
    rw [report, call, h]
    exact .refused hheld

/-- Every call, whatever its arguments, does and reports what the relational reading says. -/
theorem call_answers (s : Store) (c : StoreCall) : s.Answers c (s.report c) (s.call c) := by
  cases c with
  | request request =>
      cases request with
      | create record payload => exact s.answers_create record payload
      | update record filter changes => exact s.answers_update record filter changes
      | delete record filter => exact s.answers_delete record filter
      | query record filter => exact s.answers_query record filter
  | snapshot => exact .taken
  | restore handle => exact s.answers_restore handle
  | discard handle => exact s.answers_discard handle

end Store
end FlowEngine
