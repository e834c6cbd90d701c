import FlowEngine.Proofs.Session.Course
import FlowEngine.Proofs.Transaction.Fate

/-!
# Snapshot accounting

Every snapshot that a run takes is given back once: it is discarded if the body of its
transaction completes and restored if the body fails. At most one is open at a time,
and none is when the run has its result.
-/
namespace FlowEngine

open Exec Execution Custody

/-- A snapshot was neither discarded nor restored. -/
def Outstanding (log : List Occurrence) (handle : String) : Prop :=
  handle ∉ discardings log ∧ handle ∉ restorings log

/-- In a session a task takes a snapshot and goes on with the body of a transaction. -/
def Session.Transacts (config : Config) (before : List Occurrence) (x : Poll)
    (after : List Occurrence) (s : System RunResult) (ctx : Context) (handle id : String)
    (body : List Step) (onError : Option (List Step)) (scope : Scope)
    (k : Except Failure Reached × Scope → Program x.task.Result) : Prop :=
  ∃ s₀ s₁, Session config before s₀ ∧ s₀.Moves config [.poll x] s₁ ∧
    s₁.At x.task (((opened ctx id body onError (.ok handle)).on scope).bind k) ∧
    s₁.Reaches config after s

variable {config : Config} {log before after : List Occurrence} {s : System RunResult}
  {t : TaskId} {ctx : Context} {handle : String} {m m' : Machine}

theorem Session.exists_transacts
    (h : Session config
      (before ++ .poll ⟨t, .beginTransaction ctx, some (.ok handle), m, m'⟩ :: after) s) :
    ∃ id body onError scope, ∃ k : Except Failure Reached × Scope → Program t.Result,
      Session.Transacts config before ⟨t, .beginTransaction ctx, some (.ok handle), m, m'⟩ after s
        ctx handle id body onError scope k := by
  obtain ⟨s₀, hs₀, hreaches⟩ := h
  obtain ⟨u, v, hu, hmove, hv⟩ := hreaches.moment
  have hsession : Session config before u := ⟨s₀, hs₀, hu⟩
  obtain ⟨place, hkept⟩ := kept_of_session hsession default
  obtain ⟨-, b, id, body, onError, scope, k, -, -, -, hat⟩ := hkept.begun hmove
  exact ⟨id, body, onError, scope, k, u, v, hsession, hmove, hat, hv⟩

/-- A transaction is followed from the moment at which it took its snapshot. -/
theorem Session.Transacts.enters (T : Token) {id : String} {body : List Step}
    {onError : Option (List Step)} {scope : Scope}
    {k : Except Failure Reached × Scope → Program t.Result}
    (h : Session.Transacts config before ⟨t, .beginTransaction ctx, some (.ok handle), m, m'⟩ after
      s ctx handle id body onError scope k) :
    ∃ s₁ place b, s₁.Reaches config after s ∧ b.Of T ctx handle m ∧
      Enters T config (before ++ [.poll ⟨t, .beginTransaction ctx, some (.ok handle), m, m'⟩]) s₁
        place t b id body onError scope k := by
  obtain ⟨s₀, s₁, hsession, hmove, hat, hreaches⟩ := h
  obtain ⟨place, hkept⟩ := kept_of_session hsession T
  obtain ⟨place', b, -, -, -, -, -, hkept', hplace, hof, -⟩ := hkept.begun hmove
  refine ⟨s₁, place', b, hreaches, hof, hkept', hplace, ?_, ?_⟩
  · rw [hof.ctx]
    exact hof.within
  · rw [hof.ctx, hof.handle]
    exact hat

/-- In a log a task comes to the end of the body of a transaction with a value. -/
def Completes (t : TaskId) (ctx : Context) (body : List Step) (scope : Scope)
    (log : List Occurrence) : Prop :=
  ∃ output s, ((runSequence body ctx .null).on (scope.push .step)).Yields (deedsOf t log)
    (.ok output, s)

/-- In a log a task comes to the end of the body of a transaction with a failure. -/
def Fails (t : TaskId) (ctx : Context) (body : List Step) (scope : Scope)
    (log : List Occurrence) : Prop :=
  ∃ f s, ((runSequence body ctx .null).on (scope.push .step)).Yields (deedsOf t log)
    (.error f, s)

theorem Completes.not_fails {body : List Step} {scope : Scope}
    (h : Completes t ctx body scope log) : ¬ Fails t ctx body scope log := by
  rintro ⟨f, sc, hf⟩
  obtain ⟨output, sc', ho⟩ := h
  cases ho.unique hf

theorem Custody.Kept.discarded_or_restored {T : Token} {place : TaskId → Residence × Custody}
    (h : Kept T config log s place) (hrestore : s.machine.world.store.script.restoreError = none)
    (hdiscard : s.machine.world.store.script.discardError = none) (hgiven : handle ∈ givings log) :
    handle ∈ discardings log ∨ handle ∈ restorings log := by
  obtain ⟨u, e, a, before, after, he, hm⟩ := mem_givings.mp hgiven
  have haccepted := h.books.accepted hrestore hdiscard he hm
  cases he with
  | discard =>
      obtain rfl : a = .ok () := haccepted
      exact Or.inl (List.mem_filterMap.mpr ⟨_, hm, rfl⟩)
  | restore =>
      obtain rfl : a = .ok () := haccepted
      exact Or.inr (List.mem_filterMap.mpr ⟨_, hm, rfl⟩)

/-- What became of the snapshot of a transaction so far: it was given back at most once, discarded
only if the body completed and restored only if it failed. When the run is closed it was given
back. -/
structure Accounted (log : List Occurrence) (run : Nat) (handle : String)
    (completed failed : Prop) : Prop where
  once : (discardings log).count handle + (restorings log).count handle ≤ 1
  discarded : handle ∈ discardings log → completed
  restored : handle ∈ restorings log → failed
  closed : run ∈ closings log → (discardings log).count handle + (restorings log).count handle = 1 ∧
    (handle ∈ discardings log ↔ completed) ∧ (handle ∈ restorings log ↔ failed)

theorem Session.Transacts.accounted {id : String} {body : List Step} {onError : Option (List Step)}
    {scope : Scope} {k : Except Failure Reached × Scope → Program t.Result}
    (h : Session.Transacts config before ⟨t, .beginTransaction ctx, some (.ok handle), m, m'⟩ after
      s ctx handle id body onError scope k)
    (hrestore : s.machine.world.store.script.restoreError = none)
    (hdiscard : s.machine.world.store.script.discardError = none) :
    Accounted (before ++ .poll ⟨t, .beginTransaction ctx, some (.ok handle), m, m'⟩ :: after) ctx.run
      handle (Completes t ctx body scope after) (Fails t ctx body scope after) := by
  obtain ⟨s₁, place₁, b, hreaches, hof, henters⟩ := h.enters default
  obtain ⟨place, hkept, hfate⟩ := henters.fate hrestore hdiscard hreaches
  rw [List.append_assoc, List.singleton_append] at hkept hfate
  rw [hof.handle, hof.ctx] at hfate
  rcases hfate with hb | ⟨hcompletes, hdiscarded, hrestored⟩ | ⟨hfails, hdiscarded, hrestored⟩
  · obtain ⟨hd, hr⟩ := hkept.open_of_block hb
    rw [hof.handle] at hd hr
    refine ⟨by omega, fun hm => absurd hm (List.count_eq_zero.mp hd),
      fun hm => absurd hm (List.count_eq_zero.mp hr), fun hclosed => ?_⟩
    have hno := hkept.not_closed hb
    rw [hof.ctx] at hno
    exact absurd hclosed hno
  · have hd := List.count_pos_iff.mp (Nat.lt_of_lt_of_eq Nat.zero_lt_one hdiscarded.symm)
    have hr := List.count_eq_zero.mp hrestored
    refine ⟨by omega, fun _ => hcompletes, fun hm => absurd hm hr, fun _ =>
      ⟨by omega, iff_of_true hd hcompletes, iff_of_false hr ?_⟩⟩
    exact Completes.not_fails hcompletes
  · have hd := List.count_eq_zero.mp hdiscarded
    have hr := List.count_pos_iff.mp (Nat.lt_of_lt_of_eq Nat.zero_lt_one hrestored.symm)
    refine ⟨by omega, fun hm => absurd hm hd, fun _ => hfails, fun _ =>
      ⟨by omega, iff_of_false hd ?_, iff_of_true hr hfails⟩⟩
    exact fun hcompletes => Completes.not_fails hcompletes hfails

end FlowEngine
