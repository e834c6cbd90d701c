import FlowEngine.Proofs.Run.Books
import FlowEngine.Proofs.Execution.Twins
import FlowEngine.Proofs.Run.Lifetime
import FlowEngine.Proofs.Session.Course

/-!
# Results of runs

The status of a run, its error, the failures that were handled, its events and its records are
written by different tasks at different times. In every result they agree.
-/
namespace FlowEngine

open Exec Execution

namespace Entry

def record? : Entry → Option StepRecord
  | record r => some r
  | _ => none

def handled? : Entry → Option Failure
  | handled f => some f
  | _ => none

def event? : Entry → Option Event
  | record r => some r.event
  | rolledBack id => some (.rolledBack id)
  | boundary name error => some (.boundaryInvoked name error)
  | handled _ => none

end Entry

/-- An event that is neither the start nor the end of a run. -/
def Event.IsInner : Event → Prop
  | runStarted | runFinished _ => False
  | _ => True

theorem StepRecord.event_isInner (r : StepRecord) : r.event.IsInner := by
  unfold event
  split <;> trivial

theorem Entry.event_isInner {entry : Entry} {e : Event} (h : entry.event? = some e) : e.IsInner := by
  cases entry with
  | record r =>
      cases h
      exact r.event_isInner
  | handled => cases h
  | _ =>
      cases h
      trivial

namespace Journal

variable (j : Journal) (entries : List Entry)

theorem write_records : (j.write entries).records = j.records ++ entries.filterMap Entry.record? := by
  induction entries generalizing j with
  | nil => simp
  | cons entry rest ih => cases entry <;> simp [ih, add, List.filterMap_cons, Entry.record?]

theorem write_handled : (j.write entries).handled = j.handled ++ entries.filterMap Entry.handled? := by
  induction entries generalizing j with
  | nil => simp
  | cons entry rest ih => cases entry <;> simp [ih, add, List.filterMap_cons, Entry.handled?]

theorem write_events :
    (j.write entries).run.events = j.run.events ++ entries.filterMap Entry.event? := by
  induction entries generalizing j with
  | nil => simp
  | cons entry rest ih => cases entry <;> simp [ih, add, Run.addEvent, List.filterMap_cons, Entry.event?]

theorem finish_events (h : j.run.status = .running) (ending : Ending) :
    (j.finish ending).run.events = j.run.events ++ [.runFinished (j.finalStatus ending)] := by
  unfold finish Run.finish
  rw [if_pos h]
  rfl

end Journal

/-- The parts of a result agree. -/
structure RunResult.Consistent (r : RunResult) : Prop where
  terminal : r.status = .completed ∨ r.status = .erroredHandled ∨ r.status = .failed ∨
    r.status = .cancelled
  completed : r.status = .completed ↔ r.error = none ∧ r.handledErrors = []
  erroredHandled : r.status = .erroredHandled ↔ r.error = none ∧ r.handledErrors ≠ []
  error : r.error.isSome ↔ r.status = .failed ∨ r.status = .cancelled
  handled : ∀ f ∈ r.handledErrors, f.isCancellation = false
  events : ∃ inner, r.events = .runStarted :: (inner ++ [.runFinished r.status]) ∧
    ∀ e ∈ inner, e.IsInner
  attempts : ∀ x ∈ r.records, x.attempts = 0 ↔ x.status = .skipped
  errors : ∀ x ∈ r.records, x.error = none ↔ x.status = .completed

theorem Journal.result_consistent {flow : String} {entries : List Entry}
    (h : ∀ entry ∈ entries, entry.Proper) (number : Nat) (ending : Ending)
    (outputs : List (String × Json)) :
    ((((start flow).write entries).finish ending).result number ending outputs).Consistent := by
  have hrunning : ((start flow).write entries).run.status = .running :=
    (start flow).write_status entries
  have hstatus := finish_status hrunning ending
  have hhandled : ((start flow).write entries).handled = entries.filterMap Entry.handled? :=
    (start flow).write_handled entries
  have hrecords : ((start flow).write entries).records = entries.filterMap Entry.record? :=
    (start flow).write_records entries
  have hproper {x : StepRecord} (hx : x ∈ entries.filterMap Entry.record?) :
      Entry.Proper (.record x) := by
    obtain ⟨entry, hentry, hrecord⟩ := List.mem_filterMap.mp hx
    cases entry with
    | record r =>
        cases hrecord
        exact h _ hentry
    | _ => cases hrecord
  have hresolved : ∀ f ∈ entries.filterMap Entry.handled?, f.isCancellation = false := by
    intro f hf
    obtain ⟨entry, hentry, heq⟩ := List.mem_filterMap.mp hf
    cases entry with
    | handled g =>
        cases heq
        exact h _ hentry
    | _ => cases heq
  refine ⟨?_, ?_, ?_, ?_, ?_, ⟨entries.filterMap Entry.event?, ?_, ?_⟩, ?_, ?_⟩
  · cases ending with
    | completed =>
        simp only [result, hstatus, finalStatus]
        split <;> simp
    | _ => simp [result, hstatus, finalStatus]
  · cases ending with
    | completed => simp [result, hstatus, finalStatus, hhandled]
    | _ => simp [result, hstatus, finalStatus]
  · cases ending with
    | completed => simp [result, hstatus, finalStatus, hhandled]
    | _ => simp [result, hstatus, finalStatus]
  · cases ending with
    | completed =>
        simp only [result, hstatus, finalStatus]
        split <;> simp
    | _ => simp [result, hstatus, finalStatus]
  · simpa [result, hhandled] using hresolved
  · have hevents := ((start flow).write entries).finish_events hrunning ending
    rw [← hstatus, write_events] at hevents
    exact hevents
  · intro e he
    obtain ⟨entry, -, hevent⟩ := List.mem_filterMap.mp he
    exact Entry.event_isInner hevent
  · simp only [result, finish_records, hrecords]
    exact fun x hx => (hproper hx).1
  · simp only [result, finish_records, hrecords]
    exact fun x hx => (hproper hx).2

theorem Session.proper {config : Config} {log : List Occurrence} {s : System RunResult} {run : Nat}
    (h : Session config log s) : ∀ entry ∈ entriesOf run log, entry.Proper := by
  intro entry hentry
  obtain ⟨t, m, m', hm⟩ := mem_entriesOf.mp hentry
  obtain ⟨s₀, hs₀, hr⟩ := h
  obtain ⟨l, u, v, hu, move⟩ := hr.moment_of_mem hm
  obtain ⟨place, hob, -⟩ := (Books.sound config).session ⟨s₀, hs₀, hu⟩ fun _ => Books.holds_initial
  obtain ⟨next, w, active⟩ := move.advances.active_of_poll
  have hallows : Books.protocol.allows (place t) (.note run entry) := (hob.active active).1
  cases hplace : place t with
  | owing =>
      rw [hplace] at hallows
      exact hallows.elim
  | settled spans =>
      rw [hplace] at hallows
      cases entry with
      | record r => exact hallows.1
      | _ => exact hallows

/-- The records of a run are those that were written down for it, in that order. -/
theorem Session.Lives.records_eq {config : Config} {flow : Flow} {earlier during : List Occurrence}
    {u v : System RunResult} {t : TaskId} {ctx : Context} {inputs : List (String × Json)}
    {ending : Ending} {outputs : List (String × Json)} {result : RunResult}
    (h : Session.Lives config flow earlier during u v t ctx inputs ending outputs result) :
    result.records = (entriesOf ctx.run during).filterMap Entry.record? := by
  rw [h.result_eq]
  simp [Journal.result, Journal.write_records, Journal.start]

/-- Every run ends in one of the four final statuses, and the parts of its result agree. -/
theorem results_consistent {config : Config} {flow : Flow} {before after : List Occurrence}
    {result : RunResult} (h : Session.Gives config flow before after result) :
    result.Consistent := by
  obtain ⟨t, l, parent, ctx, m₁, m₁', during, ending, outputs, m₂, later, u, v, inputs, -, hlives⟩ :=
    h.lives
  have hproper : ∀ entry ∈ entriesOf ctx.run during, entry.Proper := by
    intro entry hentry
    apply (hlives.session.reaches hlives.reaches).proper entry
    exact entriesOf_append_of_mem hentry (List.subset_append_right _ _)
  rw [hlives.result_eq]
  exact Journal.result_consistent hproper ctx.run ending outputs

/-- The run whose handler takes the failure of a branch has no error of its own. -/
theorem results_consistent_abandoned : ∃ before after result,
    Session.Gives Solo.abandoned.config Solo.abandoned.flow before after result ∧
      result.status = .erroredHandled ∧ result.error = none ∧ result.handledErrors ≠ [] := by
  obtain ⟨result, hgives, hp⟩ := Solo.abandoned.exists_gives 200 rfl
    (p := fun r => decide (r.status = .erroredHandled)) (by decide +kernel)
  have hstatus : result.status = .erroredHandled := of_decide_eq_true hp
  have hconsistent := results_consistent hgives
  exact ⟨_, _, result, hgives, hstatus, hconsistent.erroredHandled.mp hstatus⟩

end FlowEngine
