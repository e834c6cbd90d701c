import FlowEngine.Proofs.Machine.Advance
import FlowEngine.Proofs.Session.Course
import FlowEngine.Proofs.Session.Turns

/-!
# How long rows stay

A row that was created stays in the store until a request changes or removes it, or a
snapshot is restored that was open when the row was created. A rollback puts back the
whole store, so it takes rows of others along.
-/
namespace FlowEngine

def RecordRequest.touches (record : String) (row : Row) : RecordRequest → Bool
  | .update name (.obj filter) _ | .delete name (.obj filter) =>
    name = record && Row.agrees filter row
  | _ => false

namespace Store

variable {s s' : Store} {record : String} {row : Row} {old : String → Prop}

theorem mem_rows_perform {request : RecordRequest} (hmem : row ∈ s.rows record)
    (htouch : request.touches record row = false) : row ∈ (s.perform request).2.rows record := by
  cases request with
  | create name payload =>
      cases h : s.create name payload with
      | error fault => simpa [perform, h] using hmem
      | ok answer =>
          obtain ⟨v, s'⟩ := answer
          obtain ⟨stored, lastId, -, hs⟩ := create_eq_ok h
          simp only [perform, h, hs, rows_putCollection]
          split
          · rename_i hname
            subst hname
            exact List.mem_append_left _ hmem
          · exact hmem
  | update name filter changes =>
      cases h : s.update name filter changes with
      | error fault => simpa [perform, h] using hmem
      | ok answer =>
          obtain ⟨v, s'⟩ := answer
          obtain hs | ⟨fields, overlay, rfl, hs⟩ := update_eq_ok h
          · simpa [perform, h, hs] using hmem
          · simp only [perform, h, hs, rows_putCollection]
            split
            · rename_i hname
              subst hname
              have hagrees : Row.agrees fields row = false := by
                simpa [RecordRequest.touches] using htouch
              exact List.mem_map.mpr ⟨row, hmem, by simp [hagrees]⟩
            · exact hmem
  | delete name filter =>
      cases h : s.delete name filter with
      | error fault => simpa [perform, h] using hmem
      | ok answer =>
          obtain ⟨v, s'⟩ := answer
          obtain hs | ⟨fields, rfl, hs⟩ := delete_eq_ok h
          · simpa [perform, h, hs] using hmem
          · simp only [perform, h, hs, rows_putCollection]
            split
            · rename_i hname
              subst hname
              have hagrees : Row.agrees fields row = false := by
                simpa [RecordRequest.touches] using htouch
              exact List.mem_filter.mpr ⟨hmem, by simp [hagrees]⟩
            · exact hmem
  | query name filter =>
      cases h : s.query name filter with
      | error fault => simpa [perform, h, Except.map] using hmem
      | ok answer => simpa [perform, h, Except.map] using hmem

theorem mem_rows_of_create {payload v : Json}
    (h : (s.perform (.create record payload)).1 = .ok v) :
    ∃ row, v = .obj row ∧ row ∈ (s.perform (.create record payload)).2.rows record := by
  cases hc : s.create record payload with
  | error fault => simp [perform, hc] at h
  | ok answer =>
      obtain ⟨v', s'⟩ := answer
      obtain ⟨stored, lastId, hv, hs⟩ := create_eq_ok hc
      refine ⟨stored, ?_, ?_⟩
      · simp only [perform, hc, Outcome.ok.injEq] at h
        rw [← h, hv]
      · simp only [perform, hc, hs, rows_putCollection, if_true]
        exact List.mem_append_right _ (List.mem_singleton_self _)

theorem perform_of_failed {request : RecordRequest} {kind : ErrorKind} {message : String}
    (h : (s.perform request).1 = .failed kind message) : (s.perform request).2 = s := by
  unfold perform at h ⊢
  dsimp only at h ⊢
  split
  · rename_i v s' hok
    rw [hok] at h
    cases h
  · rfl

/-- A row is in the store and in all snapshots that are not old. -/
structure Keeps (s : Store) (old : String → Prop) (record : String) (row : Row) : Prop where
  now : row ∈ s.rows record
  saved {handle : String} {saved : Collections} : s.saved? handle = some saved →
    ¬ old handle → row ∈ rows { s with collections := saved } record

theorem Keeps.congr (h : s.Keeps old record row) (hrows : row ∈ s'.rows record)
    (hsnapshots : s'.snapshots = s.snapshots) : s'.Keeps old record row where
  now := hrows
  saved {handle _} hs hnew := h.saved ((saved?_congr hsnapshots handle).symm.trans hs) hnew

end Store

namespace ScriptedStore

variable {s s' : ScriptedStore} {record handle : String} {row : Row} {old : String → Prop}

/-- An operation on rows: it is refused, or the store carries it out. -/
theorem perform_cases (s : ScriptedStore) (request : RecordRequest) :
    (∃ kind message, (s.perform request).1 = .failed kind message) ∧
        (s.perform request).2.store = s.store ∨
      (s.perform request).1 = (s.store.perform request).1 ∧
        (s.perform request).2.store = (s.store.perform request).2 := by
  unfold perform
  dsimp only
  split
  · exact Or.inl ⟨⟨_, _, rfl⟩, rfl⟩
  · exact Or.inr ⟨rfl, rfl⟩

theorem Keeps.perform (hk : s.store.Keeps old record row) {request : RecordRequest}
    (h : ∀ v, (s.perform request).1 = .ok v → request.touches record row = false) :
    (s.perform request).2.store.Keeps old record row := by
  obtain ⟨collections, hcollections⟩ := s.store.perform_eq request
  rcases s.perform_cases request with ⟨-, hsame⟩ | ⟨houtcome, hstore⟩
  · rwa [hsame]
  · refine hk.congr ?_ (by rw [hstore, hcollections])
    rw [hstore]
    cases hv : (s.store.perform request).1 with
    | ok v => exact Store.mem_rows_perform hk.now (h v (houtcome.trans hv))
    | failed kind message =>
        rw [Store.perform_of_failed hv]
        exact hk.now

theorem Keeps.snapshot (hk : s.store.Keeps old record row) (h : s.snapshot = .ok (handle, s')) :
    s'.store.Keeps old record row := by
  obtain ⟨-, rfl⟩ := snapshot_eq_ok h
  refine ⟨hk.now, fun {name saved} hs hnew => ?_⟩
  by_cases hname : name = snapshotName (s.store.taken + 1)
  · subst hname
    rw [Store.saved?_snapshot_self] at hs
    cases hs
    exact hk.now
  · rw [Store.saved?_snapshot_of_ne _ hname] at hs
    exact hk.saved hs hnew

theorem saved_of_erase (hk : s.store.Keeps old record row) {name : String} {saved : Collections}
    (hsnapshots : s'.store.snapshots = Fields.erase handle s.store.snapshots)
    (hs : s'.store.saved? name = some saved) (hnew : ¬ old name) :
    row ∈ Store.rows { s'.store with collections := saved } record := by
  by_cases hname : name = handle
  · subst hname
    rw [Store.saved?_erase_self hsnapshots] at hs
    cases hs
  · rw [Store.saved?_erase_of_ne hsnapshots hname] at hs
    exact hk.saved hs hnew

theorem Keeps.discard (hk : s.store.Keeps old record row) (h : s.discard handle = .ok s') :
    s'.store.Keeps old record row := by
  obtain ⟨-, rfl⟩ := discard_eq_ok h
  exact ⟨hk.now, saved_of_erase hk rfl⟩

theorem Keeps.restore (hk : s.store.Keeps old record row) (h : s.restore handle = .ok s')
    (hnew : ¬ old handle) : s'.store.Keeps old record row := by
  obtain ⟨saved, hs, rfl⟩ := restore_eq_ok h
  exact ⟨hk.saved hs hnew, saved_of_erase hk rfl⟩

end ScriptedStore

/-! ## Along a session -/

/-- Something changes or removes a row: an operation that succeeds, or the restore of a snapshot
that is old. -/
def Occurrence.Disturbs (old : String → Prop) (record : String) (row : Row) : Occurrence → Prop
  | .poll ⟨_, .request _ _ (.record operation), some (.ok (.ok _)), _, _⟩ =>
    operation.touches record row = true
  | .poll ⟨_, .restoreSnapshot handle, some (.ok ()), _, _⟩ => old handle
  | _ => False

variable {config : Config} {log : List Occurrence} {record : String} {row : Row}
  {old : String → Prop}

theorem Outline.Advances.keeps_row {o o' : Outline} (h : o.Advances config log o')
    (hk : o.store.store.Keeps old record row) :
    o'.store.store.Keeps old record row ∨ ∃ x ∈ log, x.Disturbs old record row := by
  cases h with
  | finish running active order => exact Or.inl (o.setTask_store _ ▸ hk)
  | @answer t e next w a before after running active start polls =>
      rw [setTask_store]
      cases polls.stored with
      | same h => exact Or.inl (h ▸ hk)
      | @performed run token operation h =>
          rw [h]
          cases hv : (o.store.perform operation).1 with
          | failed kind message =>
              refine Or.inl (ScriptedStore.Keeps.perform hk fun v hok => ?_)
              rw [hv] at hok
              cases hok
          | ok v =>
              cases htouch : operation.touches record row with
              | true => exact Or.inr ⟨_, List.mem_singleton_self _, htouch⟩
              | false => exact Or.inl (ScriptedStore.Keeps.perform hk fun _ _ => htouch)
      | taken h => exact Or.inl (ScriptedStore.Keeps.snapshot hk h)
      | discarded h => exact Or.inl (ScriptedStore.Keeps.discard hk h)
      | @restored handle h =>
          by_cases hold : old handle
          · exact Or.inr ⟨_, List.mem_singleton_self _, hold⟩
          · exact Or.inl (ScriptedStore.Keeps.restore hk h hold)
  | wait running active start polls =>
      change (setTask _ _ _).store.store.Keeps old record row ∨ _
      rw [setTask_store]
      cases polls.stored with
      | same h => exact Or.inl (h ▸ hk)
  | _ => exact Or.inl hk

theorem System.Reaches.keeps_row {s s' : System RunResult} (h : s.Reaches config log s')
    (hk : s.machine.world.store.store.Keeps old record row) :
    s'.machine.world.store.store.Keeps old record row ∨ ∃ x ∈ log, x.Disturbs old record row := by
  induction h with
  | refl => exact Or.inl hk
  | move before move ih =>
      rcases ih with hk | ⟨x, hx, hdisturbs⟩
      · rcases move.advances.keeps_row hk with hk | ⟨x, hx, hdisturbs⟩
        · exact Or.inl hk
        · exact Or.inr ⟨x, List.mem_append_right _ hx, hdisturbs⟩
      · exact Or.inr ⟨x, List.mem_append_left _ hx, hdisturbs⟩

variable {before after : List Occurrence} {s : System RunResult} {t : TaskId}

theorem Session.wait_of_record (h : Session config log s) {run : Nat} {token : Token}
    {operation : RecordRequest} {next : Except Interruption Outcome → Program t.Result} {w : Wait}
    (ht : s.outline.task? t =
      some (.active (.perform (.request run token (.record operation)) next) w)) :
    w.isCall = false := by
  let I (o : Outline) : Prop := ∀ (t : TaskId) run token operation next w,
    o.task? t = some (.active (.perform (.request run token (.record operation)) next) w) →
      w.isCall = false
  have hI : I s.outline := by
    refine Session.outline_induction (I := I) ?_ ?_ h
    · rintro s ⟨world, numbered⟩ t run token operation next w ht
      cases t <;> cases ht
    · intro o log o' hI adv t run token operation next w' ht
      rcases adv.wait_cases ht with hsame | rfl | ⟨e, next', w, before, after, hp, hbefore, -, polls,
        -⟩
      · exact hI _ _ _ _ _ _ hsame
      · rfl
      · generalize after.outline o.main = o₁ at polls
        cases hp
        have hw := hI _ _ _ _ _ _ hbefore
        simp only [Outline.Polls] at polls
        split at polls
        · obtain ⟨⟨i, hi⟩, -⟩ := polls
          cases hi
        · cases polls with
          | waiting w' calls hcall =>
              cases hw' : w'.isCall with
              | false => rfl
              | true => exact absurd ((hcall _ rfl hw').symm.trans hw) (by decide)
  exact hI _ _ _ _ _ _ ht

theorem Outline.Requests.performed_of_ok {o o₁ : Outline} {w : Wait} {operation : RecordRequest}
    {outcome : Outcome} {turn : Turn (Except Interruption Outcome)}
    (h : o.Requests w (.record operation) turn o₁) (hturn : turn = .answered (.ok outcome))
    (hw : w.isCall = false) :
    outcome = (o.store.perform operation).1 ∧ o₁.store = (o.store.perform operation).2 := by
  cases h with
  | refused => cases hturn
  | waiting w' calls hcall => cases hturn
  | replied outcome calls hcall => exact absurd ((hcall _ rfl).symm.trans hw) (by decide)
  | performed hr =>
      cases hr
      cases hturn
      exact ⟨rfl, rfl⟩

theorem Session.stored_of_create {run : Nat} {token : Token} {payload v : Json} {m m' : Machine}
    (h : Session config log s) {s' : System RunResult}
    (move : s.Moves config
      [.poll ⟨t, .request run token (.record (.create record payload)), some (.ok (.ok v)), m, m'⟩]
      s') :
    ∃ row, v = .obj row ∧ row ∈ m'.world.store.store.rows record := by
  have hwait {w : Wait} {next : Except Interruption Outcome → Program t.Result}
      (ht : s.outline.task? t =
        some (.active (.perform (.request run token (.record (.create record payload))) next) w)) :
      w.isCall = false := h.wait_of_record ht
  have hadv := move.advances
  generalize s.outline = o, s'.outline = o' at hadv hwait
  cases hadv with
  | answer running active start polls =>
      simp only [Outline.Polls] at polls
      split at polls
      · obtain ⟨⟨i, hi⟩, -⟩ := polls
        cases hi
      · obtain ⟨houtcome, hstore⟩ := polls.performed_of_ok rfl (hwait active)
        have hm : m'.world.store = (o.store.perform (.create record payload)).2 := hstore
        rcases o.store.perform_cases (.create record payload) with
          ⟨⟨kind, message, hfailed⟩, -⟩ | ⟨hperformed, hrows⟩
        · rw [hfailed] at houtcome
          cases houtcome
        · rw [hm, hrows]
          exact Store.mem_rows_of_create (hperformed.symm.trans houtcome.symm)

/-- A row that was created stays until an operation that succeeds changes or removes it, or a
snapshot is restored that was open when the row was created. -/
theorem created_row_stays {run : Nat} {token : Token} {payload v : Json} {m m' : Machine}
    (h : Session config (before ++ .poll ⟨t, .request run token (.record (.create record payload)),
      some (.ok (.ok v)), m, m'⟩ :: after) s) :
    ∃ row, v = .obj row ∧ row ∈ m'.world.store.store.rows record ∧
      (row ∈ s.machine.world.store.store.rows record ∨ ∃ x ∈ after,
        x.Disturbs (fun handle => (m'.world.store.store.saved? handle).isSome) record row) := by
  obtain ⟨s₀, hs₀, hreaches⟩ := h
  obtain ⟨u, u', hu, hmove, hu'⟩ := hreaches.moment
  obtain ⟨row, rfl, hrow⟩ := Session.stored_of_create ⟨s₀, hs₀, hu⟩ hmove
  refine ⟨row, rfl, hrow, ?_⟩
  have hstore : u'.machine.world.store = m'.world.store := hmove.store_of_answer
  have hk : u'.machine.world.store.store.Keeps
      (fun handle => (m'.world.store.store.saved? handle).isSome) record row := by
    rw [hstore]
    exact ⟨hrow, fun hs hnew => absurd (Option.isSome_of_eq_some hs) hnew⟩
  exact (hu'.keeps_row hk).imp_left Store.Keeps.now

def Occurrence.isNote : Occurrence → Bool
  | .poll ⟨.branch 1, .request _ _ (.record (.create record _)), some (.ok (.ok (.obj _))), _, _⟩ =>
    record = "notes"
  | _ => false

theorem Occurrence.eq_of_isNote {x : Occurrence} (h : x.isNote = true) :
    ∃ run token payload row m m', x = .poll ⟨.branch 1,
      .request run token (.record (.create "notes" payload)), some (.ok (.ok (.obj row))), m, m'⟩ := by
  unfold isNote at h
  split at h
  · rename_i record _ _ _ _
    obtain rfl : record = "notes" := by simpa using h
    exact ⟨_, _, _, _, _, _, rfl⟩
  · cases h

def Solo.overlap : Solo where
  world := quietWorld [("broken", .delayed 10 (.failure .stepExecution "no"))]
  flow :=
    { name := "overlap"
      description := none
      steps := [.mk "fork" (.parallel
        [([.mk "block" (.transaction [calls "ship" "broken"] none) none none], none),
          ([creates "note" "notes"], none)] .waitAll) none none]
      onError := none }

theorem created_row_stays_overlap : ∃ log s before run token payload v m m' after,
    Session Solo.overlap.config log s ∧
    log = before ++ .poll ⟨.branch 1, .request run token (.record (.create "notes" payload)),
      some (.ok (.ok v)), m, m'⟩ :: after ∧
    ∃ row, v = .obj row ∧ row ∈ m'.world.store.store.rows "notes" ∧
      (row ∈ s.machine.world.store.store.rows "notes" ∨ ∃ x ∈ after,
        x.Disturbs (fun handle => (m'.world.store.store.saved? handle).isSome) "notes" row) := by
  obtain ⟨log, s, hsession, hnote⟩ : ∃ log s, Session Solo.overlap.config log s ∧
      log.any Occurrence.isNote = true :=
    ⟨_, _, Solo.overlap.session 200 rfl, by decide +kernel⟩
  obtain ⟨x, hx, hnote⟩ := List.any_eq_true.mp hnote
  obtain ⟨run, token, payload, row, m, m', rfl⟩ := Occurrence.eq_of_isNote hnote
  obtain ⟨before, after, rfl⟩ := List.append_of_mem hx
  exact ⟨_, s, before, run, token, payload, _, m, m', after, hsession, rfl,
    created_row_stays hsession⟩

def Occurrence.isBegun : Occurrence → Bool
  | .poll ⟨.branch 1, .beginTransaction _, _, _, _⟩ => true
  | _ => false

def Occurrence.isOtherOperation : Occurrence → Bool
  | .poll ⟨_, .request _ _ (.record operation), _, _, _⟩ => operation.op ≠ .create
  | _ => false

/-- A rollback removes a row that another branch has created outside of all transactions, and
nobody has changed or removed. -/
theorem created_row_vanishes : ∃ log s before run token payload row m m' after,
    Session Solo.overlap.config log s ∧
    log = before ++ .poll ⟨.branch 1, .request run token (.record (.create "notes" payload)),
      some (.ok (.ok (.obj row))), m, m'⟩ :: after ∧
    (∀ ctx answer m₁ m₂, .poll ⟨.branch 1, .beginTransaction ctx, answer, m₁, m₂⟩ ∉ log) ∧
    (∀ t run token operation answer m₁ m₂,
      .poll ⟨t, .request run token (.record operation), answer, m₁, m₂⟩ ∈ log →
        operation.op = .create) ∧
    row ∉ s.machine.world.store.store.rows "notes" := by
  obtain ⟨log, s, hsession, hnote, hbegun, hcreates, hempty⟩ :
      ∃ log s, Session Solo.overlap.config log s ∧ log.any Occurrence.isNote = true ∧
        log.any Occurrence.isBegun = false ∧ log.any Occurrence.isOtherOperation = false ∧
        (s.machine.world.store.store.rows "notes").isEmpty = true :=
    ⟨_, _, Solo.overlap.session 200 rfl, by decide +kernel, by decide +kernel, by decide +kernel,
      by decide +kernel⟩
  obtain ⟨x, hx, hnote⟩ := List.any_eq_true.mp hnote
  obtain ⟨run, token, payload, row, m, m', rfl⟩ := Occurrence.eq_of_isNote hnote
  obtain ⟨before, after, hlog⟩ := List.append_of_mem hx
  refine ⟨log, s, before, run, token, payload, row, m, m', after, hsession, hlog, ?_, ?_, ?_⟩
  · intro ctx answer m₁ m₂ hm
    exact List.any_eq_false.mp hbegun _ hm rfl
  · intro t run token operation answer m₁ m₂ hm
    simpa [Occurrence.isOtherOperation] using List.any_eq_false.mp hcreates _ hm
  · rw [List.isEmpty_iff.mp hempty]
    exact List.not_mem_nil

end FlowEngine
