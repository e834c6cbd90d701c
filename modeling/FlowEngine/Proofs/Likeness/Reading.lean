import FlowEngine.Proofs.Likeness.Hidden
import FlowEngine.Proofs.Run.Rest

/-!
# Flows that only read

A run of a flow that only queries the store leaves the store as it is, however it ends. When it is
not cancelled, the machine is at rest afterwards, and a second run of the flow is like the first
one: it comes to the same result.
-/
namespace FlowEngine

open Execution

/-! ## What only reads -/

/-- An action that calls no collaborator, opens no transaction and does nothing to the store but
query it. -/
def Action.ReadOnly : Action → Prop
  | .call _ _ | .transaction _ _ => False
  | .record op _ => op = .query
  | _ => True

instance : DecidablePred Action.ReadOnly := fun a => by
  cases a <;> unfold Action.ReadOnly <;> infer_instance

/-- All steps of a flow and of its handler, at every depth, only read. -/
def Flow.ReadOnly (flow : Flow) : Prop := ∀ s ∈ flow.nodes, s.action.ReadOnly

instance : DecidablePred Flow.ReadOnly := fun flow =>
  inferInstanceAs (Decidable (∀ s ∈ flow.nodes, s.action.ReadOnly))

theorem Store.query_of_collections {s s' : Store} (h : s'.collections = s.collections)
    (record : String) (filter : Json) : s'.query record filter = s.query record filter := by
  simp only [query, rows, collection, h]

/-- A query that is not scripted to fail is answered from the rows of the store, and only the number
of calls changes. -/
theorem ScriptedStore.perform_query (s : ScriptedStore) (h : s.script.failures = [])
    (record : String) (filter : Json) : ∃ calls, s.perform (.query record filter) =
      (Store.outcome (s.store.query record filter), { s with calls }) := by
  have hnone (op : RecordOp) (call : Nat) (calls : List (RecordOp × Nat)) :
      failure? { s with calls } op call = none := by
    simp [failure?, h]
  simp only [perform, hnone, Store.perform]
  cases s.store.query record filter <;> exact ⟨_, rfl⟩

/-! ## Stores that are read alike -/

section

variable (d : Shift) {store store' : Store} (same : store'.collections = store.collections)
  {script : StoreScript} (sound : script.failures = []) (expects : Token → Prop)
include same sound

def Likeness.reads : Likeness where
  shift := d
  requests
    | .record (.query _ _) => True
    | _ => False
  transactions := False
  expects := expects
  worlds w w' := (w.store.store = store ∧ w.store.script = script) ∧
    w'.store.store = store' ∧ w'.store.script = script
  calls _ _ _ _ h := h.elim
  finishes _ _ _ _ h := h.elim
  delays op := by
    rintro ⟨⟨-, hscript⟩, -, hscript'⟩
    simp only [ScriptedStore.delay, hscript, hscript']
  operates := by
    rintro w w' request ⟨⟨rfl, hscript⟩, rfl, hscript'⟩ hrequest
    cases request with
    | query record filter =>
        obtain ⟨calls, hperform⟩ := w.store.perform_query (hscript ▸ sound) record filter
        obtain ⟨calls', hperform'⟩ := w'.store.perform_query (hscript' ▸ sound) record filter
        refine ⟨_, _, { w'.store with calls := calls' }, hperform, ?_, ⟨rfl, hscript⟩, rfl,
          hscript'⟩
        rw [hperform', Store.query_of_collections same]
    | _ => exact hrequest.elim
  stores h := h.elim

/-- A flow that only reads asks for queries and for nothing else. -/
theorem Flow.ReadOnly.admits {flow : Flow} (h : flow.ReadOnly) :
    Admits (.reads d same sound expects) flow := by
  intro s hs
  have hread := h s hs
  refine ⟨fun request hasks => ?_, fun body onError haction => ?_⟩
  · generalize s.action = action at hread hasks
    cases hasks with
    | call route spec inputs => exact hread.elim
    | record spec request =>
        cases request with
        | query record filter => exact trivial
        | _ => cases hread
  · rw [haction] at hread
    exact hread

end

def World.withoutSnapshots (w : World) : World :=
  { w with store := { w.store with store := { w.store.store with snapshots := [] } } }

/-! ## Runs that only read -/

theorem World.collections_withoutSnapshots (w : World) :
    w.store.store.collections = w.withoutSnapshots.store.store.collections := rfl

def Likeness.rereads (d : Shift) {world : World} (hscript : world.store.script.failures = [])
    (expects : Token → Prop) : Likeness :=
  .reads d world.collections_withoutSnapshots hscript expects

structure Engine.AsNew (config : Config) (world : World) (e : Engine) : Prop where
  configured : e.config = config
  rest : e.machine.AtRest config
  store : e.machine.world.store.store = world.store.store
  script : e.machine.world.store.script = world.store.script

/-- A run of a flow under a new token comes to a result, and the token has not been cancelled until
then. -/
def Engine.Concludes (e : Engine) (flow : Flow) (inputs : List (String × Json))
    (cancelAfter : Option Nat) (r : RunResult) (e' : Engine) : Prop :=
  e.runNext flow inputs cancelAfter = some (r, e') ∧
    e'.machine.isCancelled (e.newToken false cancelAfter).1 = false

/-- The results of two runs are the same but for the number of the run. -/
theorem Shift.Results.eq {d : Shift} {r r' : RunResult} (h : d.Results r r') :
    r' = { r with number := r'.number } := by
  rcases h with rfl | rfl <;> rfl

theorem RunResult.eq_of_first {first r r' : RunResult} (h : r = { first with number := r.number })
    (h' : r' = { first with number := r'.number }) : r' = { r with number := r'.number } := by
  rw [h', h]

section

variable (config : Config) {world : World} {flow : Flow} (hflow : flow.ReadOnly)
  (hscript : world.store.script.failures = []) (inputs : List (String × Json))
include hflow hscript

/-- The store stays as it is while a flow is run that only reads. -/
theorem Flow.ReadOnly.store_eq (cancelled : Bool) (cancelAfter : Option Nat) (fuel : Nat) :
    (((Engine.unchecked config world).asked flow inputs cancelled cancelAfter).course
      fuel).2.machine.world.store.store = world.store.store := by
  have same : world.store.store.collections = world.store.store.collections := rfl
  let v : Likeness := .reads .zero same hscript fun _ => False
  have hworld : v.worlds world world := ⟨⟨rfl, rfl⟩, rfl, rfl⟩
  have hnew : (Engine.unchecked config world).machine.Like v
      (Engine.unchecked config world).machine :=
    .new rfl config hworld
  obtain ⟨htoken, hlike⟩ := Engine.like_newToken hnew cancelled cancelAfter
  have hprogram : Program.Like v _ (Execution.run config flow inputs _) _ :=
    Execution.like_run (hflow.admits .zero same hscript _) inputs
      ((Engine.unchecked config world).newToken cancelled cancelAfter).1
  rw [← htoken] at hprogram
  exact ((System.Like.start hlike hprogram).course (fun _ => id) fuel).machine.world.1.1

section

variable {e : Engine} (h : e.AsNew config world)
include h

/-- A run on an engine that is as good as a new one starts like one on a new engine, when the
cancellations that are pending are expected. -/
theorem Flow.ReadOnly.like_asked (cancelAfter : Option Nat) (expects : Token → Prop)
    (expected : ∀ x ∈ (e.newToken false cancelAfter).2.machine.timers, ∀ c, x.alarm = .cancel c →
      expects c) :
    System.Like (.rereads (e.machine.ahead (cancelAfter.elim 0 fun _ => 1)) hscript expects)
      (e.machine.ahead (cancelAfter.elim 0 fun _ => 1)).Results
      ((Engine.unchecked config world.withoutSnapshots).asked flow inputs false none)
      (e.asked flow inputs false cancelAfter) := by
  obtain rfl := h.configured
  let v : Likeness := .rereads (e.machine.ahead (cancelAfter.elim 0 fun _ => 1)) hscript expects
  have hworld : v.worlds world.withoutSnapshots e.machine.world := ⟨⟨rfl, rfl⟩, h.store, h.script⟩
  have hadmits : Admits v flow := hflow.admits _ world.collections_withoutSnapshots hscript expects
  exact h.rest.like_asked cancelAfter rfl hworld hadmits inputs expected

omit h hflow in
/-- A machine that is like the one that a run on a new engine leaves behind makes an engine as good
as a new one. -/
theorem Engine.AsNew.of_like {d : Shift} {expects : Token → Prop} {r : RunResult} {m m' : Machine}
    (hrun : ((unchecked config world.withoutSnapshots).asked flow inputs false none).run patience =
      some (r, m))
    (hlike : m.Like (.rereads d hscript expects) m') (expected : ∀ c, expects c → m'.Past c)
    {e : Engine} (hconfig : e.config = config) :
    AsNew config world { e with machine := m' } where
  configured := hconfig
  rest :=
    have first := Solo.at_rest (a := ⟨config, world.withoutSnapshots, flow, inputs, none⟩) rfl rfl
      hrun
    first.1.of_like hlike expected
  store := hlike.world.2.1
  script := hlike.world.2.2

/-- A run that is not cancelled comes to what a run on a new engine comes to, and leaves the engine
as good as a new one. -/
theorem Flow.ReadOnly.run_again {cancelAfter : Option Nat} {r' : RunResult} {e' : Engine}
    (hrun : e.Concludes flow inputs cancelAfter r' e') : ∃ r m,
      ((Engine.unchecked config world.withoutSnapshots).asked flow inputs false none).run
        Engine.patience = some (r, m) ∧ r' = { r with number := r'.number } ∧
        e'.AsNew config world := by
  obtain ⟨hnext, hfree⟩ := hrun
  rw [e.runNext_eq] at hnext
  obtain ⟨⟨result, m'⟩, hrun, hx⟩ := Option.map_eq_some_iff.mp hnext
  obtain ⟨rfl, rfl⟩ := Prod.mk.inj hx
  let d : Shift := e.machine.ahead (cancelAfter.elim 0 fun _ => 1)
  let expects (c : Token) : Prop := d.stale c = true ∨ c = (e.newToken false cancelAfter).1
  have hlike := hflow.like_asked config hscript inputs h cancelAfter expects (by
    intro x hx c halarm
    rcases Engine.mem_timers_newToken hx with hx | hnew
    · obtain ⟨-, c', halarm', n, hn, hlt⟩ := h.rest.timers hx
      cases halarm.symm.trans halarm'
      exact Or.inl (List.any_eq_true.mpr ⟨n, hn, d.skips_of_lt hlt⟩)
    · cases halarm.symm.trans hnew
      exact Or.inr rfl)
  rcases hlike.run_of_run hrun with
    ⟨r, m, hfirst, hresults, hmachines⟩ | ⟨c, hexpects, hstale, hcancelled⟩
  · refine ⟨r, m, hfirst, hresults.eq,
      .of_like config hscript inputs hfirst hmachines ?_ h.configured⟩
    rintro c (hstale | rfl)
    · exact hmachines.past_of_stale hstale
    · refine ⟨e.machine.next, List.mem_singleton_self _, ?_⟩
      rw [hmachines.next]
      have hresumed : 1 ≤ m.next := hmachines.resumed
      change e.machine.next < m.next + e.machine.next + _
      omega
  · rcases hexpects with hexpects | rfl
    · exact absurd (hstale.symm.trans hexpects) Bool.false_ne_true
    · exact absurd (hfree.symm.trans hcancelled) Bool.false_ne_true

/-- When no timers are left, a run that nobody cancels takes the steps of a run on a new engine. -/
theorem Flow.ReadOnly.run_alike (htimers : e.machine.timers = []) : Option.Rel
    (fun x x' => x'.1 = { x.1 with number := x'.1.number } ∧ x'.2.AsNew config world ∧
      x'.2.machine.timers = [])
    (((Engine.unchecked config world.withoutSnapshots).asked flow inputs false none).run
      Engine.patience)
    (e.runNext flow inputs none) := by
  have hlike := hflow.like_asked config hscript inputs h none (fun _ => False)
    fun x hx => absurd (htimers ▸ hx : x ∈ []) List.not_mem_nil
  have hruns := hlike.run (fun _ => id) Engine.patience
  rw [e.runNext_eq]
  generalize hfirst : System.run Engine.patience _ = x at hruns ⊢
  generalize System.run Engine.patience _ = x' at hruns ⊢
  cases hruns with
  | none => exact .none
  | some hruns =>
      obtain ⟨hresults, hmachines⟩ := hruns
      refine .some
        ⟨hresults.eq, .of_like config hscript inputs hfirst hmachines nofun h.configured, ?_⟩
      have hrest :=
        Solo.at_rest (a := ⟨config, world.withoutSnapshots, flow, inputs, none⟩) rfl rfl hfirst
      exact (hmachines.timers_eq fun _ => id).trans (congrArg (List.map _) hrest.2)

end

end

theorem Engine.AsNew.unchecked (config : Config) (world : World) :
    (Engine.unchecked config world).AsNew config world :=
  ⟨rfl, .new world, rfl, rfl⟩

def Flow.listing : Flow where
  name := "listing"
  description := none
  steps :=
    [.mk "broken" (.record .query ⟨"orders", none, some (.literal (.str "all")), none, false⟩)
      none none]
  onError := some
    [.mk "listed" (.record .query ⟨"orders", none, none, none, false⟩) none none]

def World.unhurried : World :=
  { Solo.quietWorld [] with
    store := .new (.empty []) { StoreScript.none with delays := [(.query, 30)] } }

end FlowEngine
