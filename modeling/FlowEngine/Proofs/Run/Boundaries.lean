import FlowEngine.Proofs.Execution.Flow
import FlowEngine.Proofs.Run.Lifetime
import FlowEngine.Proofs.Transaction.Body

/-!
# Failures that escape from boundaries

A boundary gives a failure to its handler. When the handler fails as well, its own failure escapes, and
the one that it was given becomes the cause of it, unless the handler's failure has a cause already. So
the first failure is found behind the one that escapes, except where a retry, a rollback or a boundary
inside of the handler has put another failure in its place.
-/
namespace FlowEngine

open Exec Execution

namespace Failure

def causes : Failure → List Failure
  | ⟨_, _, _, _, none⟩ => []
  | ⟨_, _, _, _, some f⟩ => f :: f.causes

theorem causes_causedBy (f g : Failure) : (g.causedBy f).causes = f :: f.causes := by
  rw [causedBy, causes]

end Failure

namespace Boundary

variable {f g e : Failure}

/-- The failure of the handler keeps what it says when it escapes. -/
theorem resolve_error (h : resolve f (.error g) = .error e) :
    e.kind = g.kind ∧ e.message = g.message ∧ e.stepId = g.stepId := by
  simp only [resolve] at h
  split at h
  · cases h
    exact ⟨rfl, rfl, rfl⟩
  · cases h
    exact ⟨rfl, rfl, rfl⟩

/-- The failure that the handler was given is behind the one that escapes when there was room for it,
or when it was there already. -/
theorem mem_causes_of_resolve (h : resolve f (.error g) = .error e) (hg : g.isCancellation = false) :
    f ∈ e.causes ↔ g.cause = none ∨ f ∈ g.causes := by
  simp only [resolve, hg, Bool.not_false, Bool.and_true, Option.isNone_iff_eq_none] at h
  split at h
  · rename_i hnone
    cases h
    rw [Failure.causes_causedBy]
    exact iff_of_true List.mem_cons_self (Or.inl hnone)
  · rename_i hsome
    cases h
    exact (or_iff_right hsome).symm

end Boundary

namespace Execution

theorem recover_some_on (ctx : Context) (id : String) (handler : Exec Json) (f : Failure) (s : Scope) :
    (recover ctx id (some handler) f).on s = ((boundary ctx id handler f).on s).bind
      (after fun handled => do
        let _ : Unit ← ask (.note ctx.run (.handled handled))
        return .value .null) :=
  on_bind _ _ s

/-- A boundary of a transaction or of a flow gives a failure to its handler in a scope chain, and what
is done then ends with another failure, which escapes. -/
inductive Escapes (ctx : Context) (handler : List Step) (f : Failure) (s : Scope) (d : List Deed)
    (e : Failure) : Prop where
  | transaction {id : String} {s' : Scope}
      (recovers : ((recover ctx id (some (runSequence handler ctx .null)) f).on s).Follows d
        (.pure (.error e, s')))
  | flow {flow : Flow} {limit : Option UInt64} {timedOut : Bool} {s' : Scope}
      (owned : flow.onError = some handler)
      (fails : (handleFailure flow ctx limit timedOut f s).Follows d (.pure (.failed e, s')))

variable {ctx : Context} {handler : List Step} {f e : Failure} {s : Scope} {d : List Deed}

theorem Escapes.boundary (h : Escapes ctx handler f s d e) : ∃ name s',
    ((boundary ctx name (runSequence handler ctx .null) f).on s).Follows d (.pure (.error e, s')) := by
  cases h with
  | @transaction id s' recovers =>
      rw [recover_some_on] at recovers
      obtain ⟨d₁, d₂, ⟨r, u⟩, rfl, hboundary, hrest⟩ := recovers.bind_pure
      cases r with
      | error g =>
          obtain ⟨rfl, hpure⟩ := Program.Follows.pure_iff.mp hrest
          cases hpure
          exact ⟨id, _, by rwa [List.append_nil]⟩
      | ok handled =>
          obtain ⟨-, hstart⟩ | ⟨_, rest, rfl, hend⟩ := hrest.cons_of_perform
          · cases hstart
          · cases (Program.Follows.pure_iff.mp hend).2
  | @flow flow limit timedOut s' owned fails =>
      rw [handleFailure_eq, owned] at fails
      obtain ⟨d₁, d₂, ⟨r, u⟩, rfl, hboundary, hrest⟩ := fails.bind_pure
      cases r with
      | error g =>
          obtain ⟨rfl, hpure⟩ := Program.Follows.pure_iff.mp hrest
          rw [Program.pure.injEq, Prod.mk.injEq] at hpure
          split at hpure
          · cases hpure.1
          · cases hpure.1
            exact ⟨flow.name, u, by rwa [List.append_nil]⟩
      | ok handled =>
          obtain ⟨-, hstart⟩ | ⟨_, rest, rfl, hend⟩ := hrest.cons_of_perform
          · cases hstart
          · cases (Program.Follows.pure_iff.mp hend).2

/-- Nothing but the failure of its handler escapes from a boundary that intercepts. -/
theorem Escapes.exists_failure (h : Escapes ctx handler f s d e) (hf : f.isCancellation = false) :
    ∃ name d' g u, d = ⟨.note ctx.run (.boundary name f), ()⟩ :: d' ∧
      ((runSequence handler ctx .null).on (Boundary.enter f s)).Follows d' (.pure (.error g, u)) ∧
      Boundary.resolve f (.error g) = .error e := by
  obtain ⟨name, s', h⟩ := h.boundary
  rw [boundary_on (by rw [Boundary.intercepts, hf]; rfl)] at h
  obtain ⟨-, hstart⟩ | ⟨_, d', rfl, hrest⟩ := h.cons_of_perform
  · cases hstart
  · obtain ⟨d₁, d₂, ⟨r, u⟩, rfl, hhandler, hend⟩ := hrest.bind_pure
    obtain ⟨rfl, hpure⟩ := Program.Follows.pure_iff.mp hend
    rw [Program.pure.injEq, Prod.mk.injEq] at hpure
    cases r with
    | ok output => cases hpure.1
    | error g => exact ⟨name, _, g, u, rfl, by rwa [List.append_nil], hpure.1.symm⟩

end Execution

open Execution

variable {ctx : Context} {handler : List Step} {f e : Failure} {s : Scope} {d : List Deed}

/-- When the handler of a boundary fails and is not cancelled, kind, message and step of its failure are
those of the one that escapes. The failure that the boundary was for is behind it exactly when the
handler's failure has no cause, or comes from it already. -/
theorem handler_failure_escapes (h : Escapes ctx handler f s d e) (hf : f.isCancellation = false) :
    ∃ name d' g u, d = ⟨.note ctx.run (.boundary name f), ()⟩ :: d' ∧
      ((runSequence handler ctx .null).on (Boundary.enter f s)).Follows d' (.pure (.error g, u)) ∧
      (g.isCancellation = false → e.kind = g.kind ∧ e.message = g.message ∧ e.stepId = g.stepId ∧
        (f ∈ e.causes ↔ g.cause = none ∨ f ∈ g.causes)) := by
  obtain ⟨name, d', g, u, hd, hhandler, hresolve⟩ := h.exists_failure hf
  obtain ⟨hkind, hmessage, hstep⟩ := Boundary.resolve_error hresolve
  exact ⟨name, d', g, u, hd, hhandler, fun hg =>
    ⟨hkind, hmessage, hstep, Boundary.mem_causes_of_resolve hresolve hg⟩⟩

/-- A handler reads a name that nobody has bound, and the step that failed before is behind that. -/
theorem handler_failure_escapes_unbound : ∃ ctx handler f s d e, Escapes ctx handler f s d e ∧
    f.isCancellation = false ∧ e.kind = .unknownIdentifier ∧ f ∈ e.causes := by
  let ctx : Context := ⟨0, .root 0, none⟩
  let handler := [Step.mk "mend" (.script (.var "missing") none) none none]
  let f := (Failure.new .stepExecution "no").atStep "pay"
  let g := (Failure.new .unknownIdentifier "Unknown identifier: missing").atStep "mend"
  let d : List Deed := [⟨.isCancelled ctx.token, false⟩, ⟨.startSpan ctx "mend", .ok ()⟩,
    ⟨.note 0 (.record ⟨"mend", "script", .failed, 1, some g⟩), ()⟩,
    ⟨.endSpan ctx "mend" .failed, .ok ()⟩]
  have hhandler : ((runSequence handler ctx .null).on (Boundary.enter f .empty)).Follows d
      (.pure (.error g, Boundary.enter f .empty)) :=
    .deed (.deed (.deed (.deed (.start _))))
  have hrecovers : ((recover ctx "block" (some (runSequence handler ctx .null)) f).on .empty).Follows
      (⟨.note 0 (.boundary "block" f), ()⟩ :: d) (.pure (.error (g.causedBy f), .empty)) := by
    rw [recover_some_on, boundary_on rfl]
    exact .deed ((hhandler.bind _).bind _)
  have h : Escapes ctx handler f .empty (⟨.note 0 (.boundary "block" f), ()⟩ :: d) (g.causedBy f) :=
    .transaction hrecovers
  obtain ⟨name, d', g', u, hd, hhandler', hescapes⟩ := handler_failure_escapes h rfl
  obtain ⟨-, rfl⟩ := List.cons.inj hd
  obtain ⟨hg, -⟩ := Prod.mk.inj (Program.pure.inj (hhandler.unique hhandler'))
  obtain rfl := Except.error.inj hg
  obtain ⟨hkind, -, -, hcauses⟩ := hescapes rfl
  exact ⟨ctx, handler, f, .empty, _, _, h, rfl, hkind, hcauses.mpr (Or.inl rfl)⟩

/-! ### A handler whose step is tried twice -/

def Solo.retried : Solo where
  world := quietWorld [("broken", .failure .stepExecution "no")]
  flow :=
    { name := "orders"
      description := none
      steps := [calls "pay" "broken"]
      onError := some [.mk "mend" (.call .tool ⟨"broken", [], none, false⟩)
        (some (.constant 2 10)) none] }

def Event.triggers? : Event → Option Failure
  | .boundaryInvoked _ f => some f
  | _ => none

theorem Event.triggers?_eq_some {event : Event} {f : Failure} (h : event.triggers? = some f) :
    ∃ name, event = .boundaryInvoked name f := by
  cases event with
  | boundaryInvoked name g =>
      cases h
      exact ⟨name, rfl⟩
  | _ => cases h

/-- The last attempt of the handler is behind the failure of its step, and so the failure that the
handler was for is not. -/
theorem handler_hides_failure : ∃ log result name f e,
    Session.Gives Solo.retried.config Solo.retried.flow [.errand] log result ∧
      .boundaryInvoked name f ∈ result.events ∧ result.error = some e ∧ e.stepId = some "mend" ∧
      e.isCancellation = false ∧ f ∉ e.causes := by
  obtain ⟨result, hgives, hp⟩ := Solo.retried.exists_gives 200 rfl
    (p := fun r => (r.events.filterMap Event.triggers?).any fun f =>
      decide (f.stepId = some "pay") && r.error.any fun e : Failure =>
        decide (e.stepId = some "mend") && !e.isCancellation &&
          e.causes.all fun g => decide (g.stepId ≠ some "pay"))
    (by decide +kernel)
  obtain ⟨f, hf, hp⟩ := List.any_eq_true.mp hp
  obtain ⟨event, hevent, htriggers⟩ := List.mem_filterMap.mp hf
  obtain ⟨name, rfl⟩ := Event.triggers?_eq_some htriggers
  obtain ⟨hpay, herror⟩ := Bool.and_eq_true_iff.mp hp
  cases he : result.error with
  | none =>
      rw [he] at herror
      cases herror
  | some e =>
      rw [he] at herror
      obtain ⟨hmend, hcauses⟩ := Bool.and_eq_true_iff.mp herror
      obtain ⟨hstep, hcancellation⟩ := Bool.and_eq_true_iff.mp hmend
      refine ⟨_, result, name, f, e, hgives, hevent, he, of_decide_eq_true hstep,
        Bool.not_eq_true' _ |>.mp hcancellation, fun hmem => ?_⟩
      exact of_decide_eq_true (List.all_eq_true.mp hcauses f hmem) (of_decide_eq_true hpay)

end FlowEngine
