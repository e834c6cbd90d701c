import FlowEngine.Proofs.Session.Turns
import FlowEngine.Proofs.Transaction.Accounting

/-!
# Rollbacks

When the body of a transaction has failed, its task waits for abandoned branches,
releases the slot and restores the snapshot. Then every collection is what it was when
the snapshot was taken, and only after that the handler gets the failure.
-/
namespace FlowEngine

open Exec Execution Custody

def Machine.openSnapshot? (m : Machine) (run : Nat) : Option String :=
  (m.runs[run]?.elim .empty ActiveRun.slot).held

def Machine.collections (m : Machine) : Collections := m.world.store.store.collections

variable {config : Config} {log before after : List Occurrence} {s s' u v : System RunResult}
  {t : TaskId} {ctx : Context} {handle id : String} {body : List Step}
  {onError : Option (List Step)} {scope : Scope} {m m' : Machine}

namespace System

theorem Reaches.script (h : s.Reaches config log s') :
    s'.machine.world.store.script = s.machine.world.store.script := by
  induction h with
  | refl => rfl
  | move _ move ih => exact move.advances.store.1.trans ih

end System

namespace Custody

variable {T : Token} {place : TaskId → Residence × Custody} {b : Block} {lost : Bool}
  {a : Except EngineError Unit}

/-- A snapshot that was released is restored at once: the store has kept it, and no other
transaction of the run has begun. -/
theorem Kept.restores (h : Kept T config log u place) (hplace : (place t).2 = released b lost)
    (move : u.Moves config [.poll ⟨t, .restoreSnapshot b.handle, some a, m, m'⟩] v) :
    (u.machine.world.store.script.restoreError = none → a = .ok ()) ∧
      (a = .ok () → m'.collections = b.saved ∧ m'.world.store.store.saved? b.handle = none ∧
        m'.openSnapshot? b.ctx.run = none) := by
  have hfine := h.holds.fine t
  have hsaved := hfine.saved (b := b) (by rw [hplace]; rfl)
  obtain ⟨-, hslot, -⟩ := hfine.released hplace
  obtain ⟨-, -, w, -, hpolls⟩ := move.polls_of_answer
  simp only [Outline.Polls, Outline.Stores] at hpolls
  refine ⟨fun hscript => ?_, ?_⟩
  · replace hscript : u.outline.store.script.restoreError = none := hscript
    rw [ScriptedStore.restore_of_saved hscript hsaved] at hpolls
    obtain ⟨ha, -⟩ := hpolls
    cases ha
    rfl
  · rintro rfl
    cases hr : u.outline.store.restore b.handle with
    | error e =>
        rw [hr] at hpolls
        obtain ⟨ha, -⟩ := hpolls
        cases ha
    | ok store =>
        rw [hr] at hpolls
        obtain ⟨-, ho⟩ := hpolls
        obtain ⟨saved, hs, hstore⟩ := ScriptedStore.restore_eq_ok hr
        obtain rfl : saved = b.saved := Option.some.inj (hs.symm.trans hsaved)
        have hworld : m'.world.store = store := congrArg Outline.store ho
        have hnow : m'.openSnapshot? b.ctx.run = (u.outline.slot b.ctx.run).held := by
          rw [Machine.openSnapshot?, ← Machine.slot_outline m' u.main, ho]
          rfl
        refine ⟨?_, ?_, hnow.trans hslot⟩
        · rw [Machine.collections, hworld, hstore]
        · rw [hworld, hstore]
          exact Store.saved?_erase_self rfl

end Custody

/-- A failed body is undone: after what the body did, its task waited for abandoned branches,
released the slot and restored the snapshot. The machine is the one right after that. -/
def Undoes (t : TaskId) (ctx : Context) (handle : String) (deeds : List Deed)
    (after : List Occurrence) (answer : Except EngineError Unit) (restored : Machine)
    (later : List Occurrence) : Prop :=
  ∃ earlier settled m,
    after = earlier ++ .poll ⟨t, .restoreSnapshot handle, some answer, m, restored⟩ :: later ∧
    deedsOf t earlier = deeds ++ [⟨.settle ctx.run (some ctx.token), settled⟩,
      ⟨.releaseTransaction ctx.run handle, .ok ()⟩] ∧
    deedsOf t after = deedsOf t earlier ++ ⟨.restoreSnapshot handle, answer⟩ :: deedsOf t later

def Execution.rolledBack (ctx : Context) (id : String) (onError : Option (List Step)) (f : Failure)
    (s : Scope) : Program (Except Failure Reached × Scope) :=
  .perform (.note ctx.run (.rolledBack id)) fun _ => afterRollback ctx id onError f.rolledBack s

namespace Custody

variable {T : Token} {place : TaskId → Residence × Custody} {b : Block}
  {k : Except Failure Reached × Scope → Program t.Result}

theorem Enters.failed (h : Enters T config log s place t b id body onError scope k)
    (hr : s.Reaches config after s') {deeds more : List Deed} {f : Failure} {sc : Scope}
    (hdeeds : deedsOf t after = deeds ++ more)
    (hfails : ((runSequence body b.ctx .null).on (scope.push .step)).Follows deeds
      (.pure (.error f, sc))) : ∃ place' q lost v, Kept T config (log ++ after) s' place' ∧
      (∀ e next, q = .perform e next → s'.At t q) ∧
      ((afterBody b.ctx id b.handle (optionProgram onError b.ctx) (.error f, sc)).bind k).Follows
        more q ∧
      (protocol T).Path (holding b lost) more v ∧ ((∃ a, q = .pure a) ∨ (place' t).2 = v) := by
  obtain ⟨place', q, hkept, hnow, hprogress⟩ := h.progress hr
  cases hprogress with
  | inside follows inHand =>
      exact absurd follows (Program.Yields.not_follows ⟨deeds, more, hdeeds, hfails⟩)
  | @outside d rest r sc' lost v split ends loses follows path inHand =>
      have hsame := split.symm.trans hdeeds
      obtain ⟨rfl, hend⟩ := ends.end_unique hfails hsame
      cases hend
      obtain rfl := List.append_cancel_left hsame
      refine ⟨place', q, lost, v, hkept, ?_, follows, path, inHand⟩
      rintro e next rfl
      rcases hnow with ⟨hat, -⟩ | ⟨a, ha, -⟩
      · exact hat
      · cases ha

/-- A transaction that was released after its body failed has its snapshot in hand. -/
theorem Enters.released (h : Enters T config log s place t b id body onError scope k)
    (hr : s.Reaches config after s') {deeds : List Deed} {f : Failure} {sc : Scope}
    {settled : Except Failure Nat}
    (hdeeds : deedsOf t after = deeds ++ [⟨.settle b.ctx.run (some b.ctx.token), settled⟩,
      ⟨.releaseTransaction b.ctx.run b.handle, .ok ()⟩])
    (hfails : ((runSequence body b.ctx .null).on (scope.push .step)).Follows deeds
      (.pure (.error f, sc))) :
    ∃ place' lost, Kept T config (log ++ after) s' place' ∧
      (place' t).2 = Custody.released b lost := by
  obtain ⟨place', q, lost, v, hkept, -, follows, path, inHand⟩ := h.failed hr hdeeds hfails
  rcases Progress.undone follows path inHand with
    ⟨settled, c, -, hc, -, htwo⟩ | ⟨settled, answer, rest, hlist, -⟩
  · obtain ⟨lost, rfl⟩ := htwo rfl
    exact ⟨place', lost, hkept, hc⟩
  · have := congrArg List.length hlist
    simp at this

/-- Once its snapshot is restored, a transaction goes on with the note that it was rolled back. -/
theorem Enters.restored (h : Enters T config log s place t b id body onError scope k)
    (hr : s.Reaches config after s') {deeds : List Deed} {f : Failure} {sc : Scope}
    {settled : Except Failure Nat}
    (hdeeds : deedsOf t after = deeds ++ [⟨.settle b.ctx.run (some b.ctx.token), settled⟩,
      ⟨.releaseTransaction b.ctx.run b.handle, .ok ()⟩, ⟨.restoreSnapshot b.handle, .ok ()⟩])
    (hfails : ((runSequence body b.ctx .null).on (scope.push .step)).Follows deeds
      (.pure (.error f, sc))) : s'.At t ((rolledBack b.ctx id onError f sc.leave).bind k) := by
  obtain ⟨_, q, lost, v, -, hat, follows, path, inHand⟩ := h.failed hr hdeeds hfails
  rcases Progress.undone follows path inHand with
    ⟨settled, c, hfirst, -⟩ | ⟨settled, answer, rest, hlist, hrest⟩
  · have := hfirst.length_le
    simp at this
  · cases hlist
    have hq : q = (rolledBack b.ctx id onError f sc.leave).bind k :=
      Program.Follows.nil_iff.mp (hrest rfl)
    exact hq ▸ hat _ _ (hq.trans (Program.bind_perform _ _ _))

/-- A transaction whose body has failed is on the way to its rollback or was rolled back. -/
theorem Enters.undoes (h : Enters T config log s place t b id body onError scope k)
    (hr : s.Reaches config after s') {deeds more : List Deed} {f : Failure} {sc : Scope}
    (hdeeds : deedsOf t after = deeds ++ more)
    (hfails : ((runSequence body b.ctx .null).on (scope.push .step)).Follows deeds
      (.pure (.error f, sc))) :
    (∃ settled, more <+: [⟨.settle b.ctx.run (some b.ctx.token), settled⟩,
        ⟨.releaseTransaction b.ctx.run b.handle, .ok ()⟩]) ∧ b.ctx.run ∉ closings (log ++ after) ∨
      ∃ answer restored later, Undoes t b.ctx b.handle deeds after answer restored later ∧
        (s'.machine.world.store.script.restoreError = none → answer = .ok ()) ∧
        (answer = .ok () → restored.collections = b.saved ∧
          restored.world.store.store.saved? b.handle = none ∧
          restored.openSnapshot? b.ctx.run = none ∧
          (∃ q, ((rolledBack b.ctx id onError f sc.leave).bind k).Follows (deedsOf t later) q) ∧
          (later = [] ∨ ∃ m m' more, later = .poll ⟨t, .note b.ctx.run (.rolledBack id), some (),
            m, m'⟩ :: more ∧ m'.collections = b.saved)) := by
  obtain ⟨place', q, lost, v, hkept, -, follows, path, inHand⟩ := h.failed hr hdeeds hfails
  rcases Progress.undone follows path inHand with
    ⟨settled, c, hfirst, hc, hb, -⟩ | ⟨settled, answer, rest, rfl, hrest⟩
  · exact Or.inl ⟨⟨settled, hfirst⟩, hkept.not_closed (hc ▸ hb)⟩
  · have hsplit : deedsOf t after = (deeds ++ [⟨.settle b.ctx.run (some b.ctx.token), settled⟩,
        ⟨.releaseTransaction b.ctx.run b.handle, .ok ()⟩]) ++
          ⟨.restoreSnapshot b.handle, answer⟩ :: rest := by
      rw [hdeeds, List.append_assoc]
      rfl
    obtain ⟨earlier, m, restored, later, rfl, hstart, hearlier, hlater⟩ := deedsOf_split hsplit
    refine Or.inr ⟨answer, restored, later, ⟨earlier, settled, m, rfl, hearlier, ?_⟩, ?_⟩
    · rw [hsplit, hearlier, hlater]
    obtain ⟨u, u', hu, hmove, hu'⟩ := hr.moment
    obtain ⟨place₁, lost₁, hkept₁, hplace₁⟩ := h.released hu hearlier hfails
    obtain ⟨haccepted, hrestored⟩ := hkept₁.restores hplace₁ hmove
    have hscript : s'.machine.world.store.script = u.machine.world.store.script :=
      hu'.script.trans hmove.advances.store.1
    refine ⟨fun hno => haccepted (hscript ▸ hno), ?_⟩
    rintro rfl
    obtain ⟨hcollections, hgone, hempty⟩ := hrestored rfl
    refine ⟨hcollections, hgone, hempty, ⟨q, hlater ▸ hrest rfl⟩, ?_⟩
    have hdeeds' : deedsOf t (earlier ++ [.poll ⟨t, .restoreSnapshot b.handle, some (.ok ()), m,
        restored⟩]) = deeds ++ [⟨.settle b.ctx.run (some b.ctx.token), settled⟩,
          ⟨.releaseTransaction b.ctx.run b.handle, .ok ()⟩,
          ⟨.restoreSnapshot b.handle, .ok ()⟩] := by
      rw [deedsOf_append hstart, hearlier]
      simp [deedsOf]
    have hat := h.restored (hu.trans (.single hmove)) hdeeds' hfails
    rcases hu'.of_running hmove.running_of_answer hat with
      hnil | ⟨m₁, m₂, w, turn, more, hmore, -, hpolls⟩
    · exact Or.inl hnil
    · obtain ⟨rfl, hnote⟩ := hpolls
      refine Or.inr ⟨m₁, m₂, more, hmore, ?_⟩
      have hstore : m₂.world.store = restored.world.store :=
        (congrArg Outline.store hnote).trans hmove.store_of_answer
      rw [Machine.collections, hstore]
      exact hcollections

end Custody

theorem afterRollback_of_unhandled {f : Failure} (h : onError = none ∨ f.isCancellation = true)
    (sc : Scope) :
    afterRollback ctx id onError f.rolledBack sc = .pure (.error f.rolledBack, sc) := by
  cases onError with
  | none => rfl
  | some handler =>
      have hf : f.rolledBack.isCancellation = true := h.resolve_left nofun
      rw [afterRollback, if_pos hf]

theorem rolledBack_of_unhandled {f : Failure} (h : onError = none ∨ f.isCancellation = true)
    (sc : Scope) : rolledBack ctx id onError f sc =
      .perform (.note ctx.run (.rolledBack id)) fun _ => .pure (.error f.rolledBack, sc) := by
  rw [rolledBack, afterRollback_of_unhandled h]

theorem rolledBack_of_handler {f : Failure} (hf : f.isCancellation = false) (handler : List Step)
    (sc : Scope) : rolledBack ctx id (some handler) f sc =
      .perform (.note ctx.run (.rolledBack id)) fun _ =>
        .perform (.note ctx.run (.boundary id f.rolledBack)) fun _ =>
          ((runSequence handler ctx .null).on (Boundary.enter f.rolledBack sc)).bind
            (afterRecovery ctx f.rolledBack) := by
  have hf' : ¬ f.rolledBack.isCancellation = true := by
    rw [Bool.not_eq_true]
    exact hf
  refine congrArg (Program.perform (.note ctx.run (.rolledBack id))) (funext fun _ => ?_)
  rw [afterRollback, if_neg hf']

theorem Session.Transacts.ended {k : Except Failure Reached × Scope → Program t.Result}
    (h : Session.Transacts config before ⟨t, .beginTransaction ctx, some (.ok handle), m, m'⟩ after
      s ctx handle id body onError scope k) (hover : s.isOver = true) :
    ∃ r, ((opened ctx id body onError (.ok handle)).on scope).Yields (deedsOf t after) r := by
  obtain ⟨s₀, s₁, -, -, hat, hreaches⟩ := h
  obtain ⟨q, hq, ⟨hnow, -⟩ | ⟨a, rfl, -⟩⟩ := hreaches.follows hat
  · exact absurd hnow (System.not_at_of_isOver hover)
  · obtain ⟨d, rest, r, hsplit, hd, -⟩ := hq.bind_pure
    exact ⟨r, d, rest, hsplit, hd⟩

def Occurrence.isRefused : Occurrence → Bool
  | .poll ⟨_, .restoreSnapshot _, some (.error _), _, _⟩ => true
  | _ => false

theorem Solo.abandoned_fails : ∃ s before t ctx handle m m' after id body onError scope,
    ∃ k : Except Failure Reached × Scope → Program t.Result,
      Session.Transacts Solo.abandoned.config before
        ⟨t, .beginTransaction ctx, some (.ok handle), m, m'⟩ after s ctx handle id body onError scope
          k ∧
      Fails t ctx body scope after ∧ s.isOver = true ∧
      s.machine.world.store.script.restoreError = none ∧
      (∀ e m₁ m₂, .poll ⟨t, .restoreSnapshot handle, some (.error e), m₁, m₂⟩ ∉ after) ∧
      ctx.run ∈ closings (before ++
        .poll ⟨t, .beginTransaction ctx, some (.ok handle), m, m'⟩ :: after) := by
  obtain ⟨log, s, hsession, hover, hrestore, hdiscard, htakings, hclosed, hrestored, haccepted⟩ :
      ∃ log s, Session Solo.abandoned.config log s ∧ s.isOver = true ∧
        s.machine.world.store.script.restoreError = none ∧
        s.machine.world.store.script.discardError = none ∧ takings log = [(0, "snap-1")] ∧
        0 ∈ closings log ∧ "snap-1" ∈ restorings log ∧
        log.any Occurrence.isRefused = false :=
    ⟨_, _, Solo.abandoned.session 200 rfl, by decide +kernel, by decide +kernel, by decide +kernel,
      by decide +kernel, by decide +kernel, by decide +kernel, by decide +kernel⟩
  have htaken : (0, "snap-1") ∈ takings log := by
    rw [htakings]
    exact List.mem_singleton_self _
  obtain ⟨t, ctx, m, m', hrun, hm⟩ := mem_takings.mp htaken
  obtain ⟨before, after, rfl⟩ := List.append_of_mem hm
  obtain ⟨id, body, onError, scope, k, htransacts⟩ := hsession.exists_transacts
  refine ⟨s, before, t, ctx, "snap-1", m, m', after, id, body, onError, scope, k, htransacts,
    (htransacts.accounted hrestore hdiscard).restored hrestored, hover, hrestore, ?_, hrun ▸ hclosed⟩
  intro e m₁ m₂ hrefused
  exact List.any_eq_false.mp haccepted _ (List.mem_append_right before (.tail _ hrefused)) rfl

/-- A transaction whose body failed puts every collection back as it was when it took its
snapshot, and its own snapshot is gone, before the handler gets the failure. The handler, or
whoever gets the failure of a transaction without one, sees that it was rolled back. -/
theorem rollback_exact {k : Except Failure Reached × Scope → Program t.Result}
    (h : Session.Transacts config before ⟨t, .beginTransaction ctx, some (.ok handle), m, m'⟩ after
      s ctx handle id body onError scope k)
    {deeds more : List Deed} {f : Failure} {sc : Scope} (hdeeds : deedsOf t after = deeds ++ more)
    (hfails : ((runSequence body ctx .null).on (scope.push .step)).Follows deeds
      (.pure (.error f, sc))) :
    (∃ settled, more <+: [⟨.settle ctx.run (some ctx.token), settled⟩,
        ⟨.releaseTransaction ctx.run handle, .ok ()⟩]) ∧
      ctx.run ∉ closings (before ++
        .poll ⟨t, .beginTransaction ctx, some (.ok handle), m, m'⟩ :: after) ∨
    ∃ answer restored later, Undoes t ctx handle deeds after answer restored later ∧
      (s.machine.world.store.script.restoreError = none → answer = .ok ()) ∧
      (answer = .ok () → restored.collections = m.collections ∧
        restored.world.store.store.saved? handle = none ∧ restored.openSnapshot? ctx.run = none ∧
        f.rolledBack.isRollback = true ∧
        (onError = none ∨ f.isCancellation = true → ∃ q,
          (Program.perform (.note ctx.run (.rolledBack id)) fun _ =>
            k (.error f.rolledBack, sc.leave)).Follows (deedsOf t later) q) ∧
        ∀ handler, onError = some handler → f.isCancellation = false → ∃ q,
          (Program.perform (.note ctx.run (.rolledBack id)) fun _ =>
            .perform (.note ctx.run (.boundary id f.rolledBack)) fun _ =>
              ((runSequence handler ctx .null).on (Boundary.enter f.rolledBack sc.leave)).bind
                fun r => (afterRecovery ctx f.rolledBack r).bind k).Follows (deedsOf t later) q) := by
  obtain ⟨s₁, place, b, hreaches, hof, henters⟩ := h.enters default
  obtain ⟨rfl, rfl⟩ : ctx = b.ctx ∧ handle = b.handle := ⟨hof.ctx.symm, hof.handle.symm⟩
  rcases henters.undoes hreaches hdeeds hfails with
    ⟨hfirst, hopen⟩ | ⟨answer, restored, later, hundoes, haccepted, hrestored⟩
  · rw [List.append_assoc] at hopen
    exact Or.inl ⟨hfirst, hopen⟩
  · refine Or.inr ⟨answer, restored, later, hundoes, haccepted, fun ha => ?_⟩
    obtain ⟨hcollections, hgone, hempty, ⟨q, hq⟩, -⟩ := hrestored ha
    refine ⟨hcollections.trans hof.saved, hgone, hempty, rfl, fun hno => ⟨q, ?_⟩, ?_⟩
    · rwa [rolledBack_of_unhandled hno] at hq
    · rintro handler rfl hf
      rw [rolledBack_of_handler hf, Program.bind_perform, Program.bind_perform,
        Program.bind_assoc] at hq
      exact ⟨q, hq⟩

theorem rollback_exact_abandoned : ∃ s before t ctx handle m m' after id body onError scope,
    ∃ k : Except Failure Reached × Scope → Program t.Result, ∃ deeds more f sc,
      Session.Transacts Solo.abandoned.config before
        ⟨t, .beginTransaction ctx, some (.ok handle), m, m'⟩ after s ctx handle id body onError scope
          k ∧
      deedsOf t after = deeds ++ more ∧
      ((runSequence body ctx .null).on (scope.push .step)).Follows deeds (.pure (.error f, sc)) ∧
      ∃ restored later, Undoes t ctx handle deeds after (.ok ()) restored later ∧
        restored.collections = m.collections ∧ restored.openSnapshot? ctx.run = none := by
  obtain ⟨s, before, t, ctx, handle, m, m', after, id, body, onError, scope, k, htransacts,
    ⟨f, sc, deeds, more, hdeeds, hbody⟩, -, hrestore, -, hclosed⟩ := Solo.abandoned_fails
  rcases rollback_exact htransacts hdeeds hbody with
    ⟨-, hopen⟩ | ⟨answer, restored, later, hundoes, haccepted, hrestored⟩
  · exact absurd hclosed hopen
  · obtain rfl := haccepted hrestore
    obtain ⟨hcollections, -, hempty, -⟩ := hrestored rfl
    exact ⟨s, before, t, ctx, handle, m, m', after, id, body, onError, scope, k, deeds, more, f, sc,
      htransacts, hdeeds, hbody, restored, later, hundoes, hcollections, hempty⟩

end FlowEngine

/-!
## Failed transactions leave nothing behind

When an attempt of a transaction is over whose body failed, the store was put back as it
was before, and nothing but the journal of the run was written since. What the handler
writes comes after that, and it stays when the handler fails.
-/
namespace FlowEngine

open Exec Execution Custody

variable {config : Config} {log before after : List Occurrence} {s s' : System RunResult}
  {t : TaskId} {ctx : Context} {handle id : String} {body : List Step}
  {onError : Option (List Step)} {scope : Scope} {m m' : Machine}

theorem noted_of_afterBody {f : Failure} {sc : Scope} {r : Except Failure Reached × Scope}
    {settled : Except Failure Nat} {d more rest : List Deed}
    (hends : (afterBody ctx id handle (optionProgram onError ctx) (.error f, sc)).Follows d (.pure r))
    (hsplit : d ++ more = ⟨.settle ctx.run (some ctx.token), settled⟩ ::
      ⟨.releaseTransaction ctx.run handle, .ok ()⟩ :: ⟨.restoreSnapshot handle, .ok ()⟩ :: rest) :
    ∃ d', rest = ⟨.note ctx.run (.rolledBack id), ()⟩ :: (d' ++ more) ∧
      (afterRollback ctx id onError f.rolledBack sc.leave).Follows d' (.pure r) := by
  rw [afterBody_error] at hends
  rcases hends.cons_of_perform with ⟨-, h⟩ | ⟨a₁, d₁, rfl, h₁⟩
  · cases h
  obtain ⟨-, hsplit₁⟩ := List.cons.inj hsplit
  rcases h₁.cons_of_perform with ⟨-, h⟩ | ⟨a₂, d₂, rfl, h₂⟩
  · cases h
  obtain ⟨ha₂, hsplit₂⟩ := List.cons.inj hsplit₁
  cases ha₂
  rcases h₂.cons_of_perform with ⟨-, h⟩ | ⟨a₃, d₃, rfl, h₃⟩
  · cases h
  obtain ⟨ha₃, hsplit₃⟩ := List.cons.inj hsplit₂
  cases ha₃
  rcases h₃.cons_of_perform with ⟨-, h⟩ | ⟨a₄, d₄, rfl, h₄⟩
  · cases h
  exact ⟨d₄, hsplit₃.symm, h₄⟩

/-- When an attempt of a transaction has ended whose body failed and no restore was refused, the
store was put back right before the attempt ended or, if there is a handler for the failure,
right before the handler began. -/
theorem failed_attempt_restores {k : Except Failure Reached × Scope → Program t.Result}
    (h : Session.Transacts config before ⟨t, .beginTransaction ctx, some (.ok handle), m, m'⟩ after
      s ctx handle id body onError scope k)
    {r : Except Failure Reached × Scope}
    (hends : ((opened ctx id body onError (.ok handle)).on scope).Yields (deedsOf t after) r)
    (hfails : Fails t ctx body scope after)
    (hrestore : ∀ e m₁ m₂, .poll ⟨t, .restoreSnapshot handle, some (.error e), m₁, m₂⟩ ∉ after) :
    ∃ deeds f sc restored m₁ m₂ later,
      ((runSequence body ctx .null).on (scope.push .step)).Follows deeds (.pure (.error f, sc)) ∧
      Undoes t ctx handle deeds after (.ok ()) restored
        (.poll ⟨t, .note ctx.run (.rolledBack id), some (), m₁, m₂⟩ :: later) ∧
      restored.collections = m.collections ∧ m₂.collections = m.collections ∧
      (afterRollback ctx id onError f.rolledBack sc.leave).Yields (deedsOf t later) r ∧
      (onError = none ∨ f.isCancellation = true → r = (.error f.rolledBack, sc.leave)) := by
  obtain ⟨f, sc, deeds, more, hdeeds, hbody⟩ := hfails
  obtain ⟨s₁, place, b, hreaches, hof, henters⟩ := h.enters default
  obtain ⟨rfl, rfl⟩ : ctx = b.ctx ∧ handle = b.handle := ⟨hof.ctx.symm, hof.handle.symm⟩
  obtain ⟨d, rest, hd, hattempt⟩ := hends
  rw [opened_on] at hattempt
  obtain ⟨d₁, d₂, p, rfl, hbody', hafter⟩ := hattempt.bind_pure
  rw [hdeeds, List.append_assoc] at hd
  obtain ⟨rfl, rfl⟩ := hbody.end_unique hbody' hd
  obtain rfl : more = d₂ ++ rest := List.append_cancel_left hd
  rcases henters.undoes hreaches hdeeds hbody with
    ⟨⟨settled, tail, htail⟩, -⟩ | ⟨answer, restored, later, hundoes, -, hrestored⟩
  · have hsplit : d₂ ++ (rest ++ (tail ++ [⟨.restoreSnapshot b.handle, .ok ()⟩])) =
        [⟨.settle b.ctx.run (some b.ctx.token), settled⟩,
          ⟨.releaseTransaction b.ctx.run b.handle, .ok ()⟩,
          ⟨.restoreSnapshot b.handle, .ok ()⟩] := by
      rw [← List.append_assoc, ← List.append_assoc, htail]
      rfl
    obtain ⟨d', hnil, -⟩ := noted_of_afterBody hafter hsplit
    cases hnil
  · have hparts := hundoes
    obtain ⟨earlier, settled, m₀, hlog, hearlier, hdone⟩ := hparts
    obtain rfl : answer = .ok () := by
      cases answer with
      | ok _ => rfl
      | error e => exact absurd (by simp [hlog]) (hrestore e m₀ restored)
    obtain ⟨hcollections, -, -, -, hlater⟩ := hrestored rfl
    rw [hearlier, hdeeds, List.append_assoc] at hdone
    obtain ⟨d', hnote, hends⟩ := noted_of_afterBody hafter (List.append_cancel_left hdone)
    rcases hlater with rfl | ⟨m₁, m₂, next, rfl, hnow⟩
    · cases hnote
    · have hnext : deedsOf t next = d' ++ rest := by
        simpa [deedsOf] using hnote
      refine ⟨deeds, f, sc, restored, m₁, m₂, next, hbody, hundoes, hcollections.trans hof.saved,
        hnow.trans hof.saved, ⟨d', rest, hnext, hends⟩, fun hno => ?_⟩
      rw [afterRollback_of_unhandled hno] at hends
      exact (Program.pure.inj (Program.Follows.pure_iff.mp hends).2)

theorem failed_attempt_restores_abandoned : ∃ s before t ctx handle m m' after id body onError,
    ∃ scope, ∃ k : Except Failure Reached × Scope → Program t.Result, ∃ r,
      Session.Transacts Solo.abandoned.config before
        ⟨t, .beginTransaction ctx, some (.ok handle), m, m'⟩ after s ctx handle id body onError scope
          k ∧
      ((opened ctx id body onError (.ok handle)).on scope).Yields (deedsOf t after) r ∧
      Fails t ctx body scope after ∧
      (∀ e m₁ m₂, .poll ⟨t, .restoreSnapshot handle, some (.error e), m₁, m₂⟩ ∉ after) ∧
      ∃ deeds restored later, Undoes t ctx handle deeds after (.ok ()) restored later ∧
        restored.collections = m.collections := by
  obtain ⟨s, before, t, ctx, handle, m, m', after, id, body, onError, scope, k, htransacts, hfails,
    hover, -, haccepted, -⟩ := Solo.abandoned_fails
  obtain ⟨r, hends⟩ := htransacts.ended hover
  obtain ⟨deeds, f, sc, restored, m₁, m₂, later, -, hundoes, hcollections, -⟩ :=
    failed_attempt_restores htransacts hends hfails haccepted
  exact ⟨s, before, t, ctx, handle, m, m', after, id, body, onError, scope, k, r, htransacts, hends,
    hfails, haccepted, deeds, restored, _, hundoes, hcollections⟩

/-! ## What stays -/

def Occurrence.takesNothing : Occurrence → Bool
  | .poll ⟨.main, .beginTransaction _, some (.ok _), m, _⟩ => m.collections.isEmpty
  | _ => false

def Occurrence.failsWithRows : Occurrence → Bool
  | .poll ⟨.main, .note _ (.record r), some _, m, _⟩ =>
    r.kind = "transaction" && r.status = .failed && r.attempts = 1 && !m.collections.isEmpty
  | _ => false

/-- In an undisturbed session the only attempt of a transaction ends in an error when the store
holds other rows than those that were saved, although no restore is refused. -/
def Solo.LeavesRows (a : Solo) : Prop :=
  ∃ fuel before ctx handle m m' middle run r m₁ m₂ later,
    Session a.config (a.course fuel).1 (a.course fuel).2 ∧
    (a.course fuel).1 = before ++ .poll ⟨.main, .beginTransaction ctx, some (.ok handle), m, m'⟩ ::
      (middle ++ .poll ⟨.main, .note run (.record r), some (), m₁, m₂⟩ :: later) ∧
    (takings (a.course fuel).1).length = 1 ∧ r.kind = "transaction" ∧ r.status = .failed ∧
    r.attempts = 1 ∧ a.world.store.script.restoreError = none ∧ m₁.collections ≠ m.collections

theorem Solo.leavesRows_of_any {a : Solo} (hsnapshots : a.world.store.store.snapshots = [])
    (hscript : a.world.store.script.restoreError = none) (fuel : Nat)
    (htakings : (takings (a.course fuel).1).length = 1)
    (h : (((a.course fuel).1.dropWhile fun x => !x.takesNothing).tail.any
      Occurrence.failsWithRows) = true) : a.LeavesRows := by
  obtain ⟨before, x, middle, y, later, hlog, hx, hy⟩ := exists_append_of_any h
  unfold Occurrence.takesNothing at hx
  unfold Occurrence.failsWithRows at hy
  split at hx
  · split at hy
    · simp only [Bool.and_eq_true, decide_eq_true_eq, Bool.not_eq_true'] at hy
      obtain ⟨⟨⟨hkind, hstatus⟩, hattempts⟩, hrows⟩ := hy
      refine ⟨fuel, before, _, _, _, _, middle, _, _, _, _, later, a.session fuel hsnapshots, hlog,
        htakings, hkind, hstatus, hattempts, hscript, fun hsame => ?_⟩
      rw [hsame, hx] at hrows
      cases hrows
    · cases hy
  · cases hx

def Solo.handlerFails : Solo where
  world := quietWorld [("broken", .failure .stepExecution "no")]
  flow :=
    { name := "orders"
      description := none
      steps := [.mk "block" (.transaction [calls "ship" "broken"]
        (some [creates "audit" "audits", calls "tell" "broken"])) none none]
      onError := none }

def Solo.commitFails : Solo where
  world :=
    { quietWorld [] with
      store := .new (.empty []) { StoreScript.none with discardError := some "disk full" } }
  flow :=
    { name := "orders"
      description := none
      steps := [.mk "block" (.transaction [creates "order" "orders"] none) none none]
      onError := none }

/-- What a handler writes stays when it fails, and so does what a body wrote whose snapshot is not
discarded. -/
theorem failed_attempts_leave_rows :
    Solo.handlerFails.LeavesRows ∧ Solo.commitFails.LeavesRows :=
  ⟨Solo.leavesRows_of_any rfl rfl 200 (by decide +kernel) (by decide +kernel),
    Solo.leavesRows_of_any rfl rfl 200 (by decide +kernel) (by decide +kernel)⟩

end FlowEngine
