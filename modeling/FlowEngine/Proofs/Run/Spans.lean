import FlowEngine.Proofs.Machine.Tracing
import FlowEngine.Proofs.Run.Books
import FlowEngine.Proofs.Run.Membership
import FlowEngine.Proofs.Run.Results

/-!
# Spans of runs

The spans that a task starts are nested: the word of its marks is a word of matched brackets as
soon as the task has nothing open any more. The ends of spans come in the order in which the
steps were written down.
-/
namespace FlowEngine

/-! ## Words of marks -/

/-- Every start is matched by an end of the same step, and what lies between the two is
matched, too. -/
inductive Balanced : List Mark → Prop where
  | nil : Balanced []
  | span {inner rest : List Mark} (step : String) (status : StepStatus) (inside : Balanced inner)
      (after : Balanced rest) : Balanced ((step, none) :: (inner ++ (step, some status) :: rest))

theorem Balanced.append {w w' : List Mark} (h : Balanced w) (h' : Balanced w') :
    Balanced (w ++ w') := by
  induction h with
  | nil => exact h'
  | span step status inside after _ ih =>
      rw [List.cons_append, List.append_assoc, List.cons_append]
      exact .span step status inside ih

theorem Balanced.single {w : List Mark} (h : Balanced w) (step : String) (status : StepStatus) :
    Balanced ((step, none) :: (w ++ [(step, some status)])) := .span step status h .nil

def Unclosed : List String → List Mark → Prop
  | [], w => Balanced w
  | step :: open_, w => ∃ w₁ w₂, w = w₁ ++ (step, none) :: w₂ ∧ Unclosed open_ w₁ ∧ Balanced w₂

theorem Unclosed.append {l : List String} {w w' : List Mark} (h : Unclosed l w) (h' : Balanced w') :
    Unclosed l (w ++ w') := by
  cases l with
  | nil => exact Balanced.append h h'
  | cons step rest =>
      obtain ⟨w₁, w₂, rfl, h₁, h₂⟩ := h
      exact ⟨w₁, w₂ ++ w', by simp, h₁, h₂.append h'⟩

theorem Unclosed.start {l : List String} {w : List Mark} (h : Unclosed l w) (step : String) :
    Unclosed (step :: l) (w ++ [(step, none)]) := ⟨w, [], rfl, h, .nil⟩

theorem Unclosed.stop {l : List String} {w : List Mark} {step : String} (h : Unclosed (step :: l) w)
    (status : StepStatus) : Unclosed l (w ++ [(step, some status)]) := by
  obtain ⟨w₁, w₂, rfl, h₁, h₂⟩ := h
  rw [List.append_assoc, List.cons_append]
  exact h₁.append (h₂.single step status)

/-! ## What the log says about spans -/

def Effect.mark? (run : Nat) : Effect → Option Mark
  | .startSpan ctx step => if ctx.run = run then some (step, none) else none
  | .endSpan ctx step status => if ctx.run = run then some (step, some status) else none
  | _ => none

def marksOf (run : Nat) (log : List Occurrence) : List (TaskId × Mark) :=
  log.flatMap fun
    | .poll ⟨t, e, some _, _, _⟩ => (e.mark? run).toList.map (t, ·)
    | _ => []

theorem marksOf_append (run : Nat) (log more : List Occurrence) :
    marksOf run (log ++ more) = marksOf run log ++ marksOf run more :=
  List.flatMap_append

def marksBy (t : TaskId) (marks : List (TaskId × Mark)) : List Mark :=
  (marks.filter fun x => x.1 = t).map Prod.snd

theorem marksBy_append (t : TaskId) (marks more : List (TaskId × Mark)) :
    marksBy t (marks ++ more) = marksBy t marks ++ marksBy t more := by
  simp [marksBy]

def Mark.ends (marks : List Mark) : List (String × StepStatus) :=
  marks.filterMap fun x => x.2.map (x.1, ·)

theorem Mark.ends_append (marks more : List Mark) :
    Mark.ends (marks ++ more) = Mark.ends marks ++ Mark.ends more :=
  List.filterMap_append

def Entry.ended? : Entry → Option (String × StepStatus)
  | .record r => if r.status = .skipped then none else some (r.stepId, r.status)
  | _ => none

namespace Books

def openIn (run : Nat) : Books → List String
  | settled spans => spans.filterMap fun x => if x.1 = run then some x.2 else none
  | owing number id _ spans =>
    ((number, id) :: spans).filterMap fun x => if x.1 = run then some x.2 else none

def owed (run : Nat) : Books → List (String × StepStatus)
  | settled _ => []
  | owing number id status _ => if number = run then [(id, status)] else []

variable {u v : Books} {e : Effect} {a : e.Answer} {run : Nat}

theorem owed_step (hallows : protocol.allows u e) (hmove : protocol.moves u e a v) :
    u.owed run ++ (e.entriesFor run).filterMap Entry.ended? =
      Mark.ends (e.mark? run).toList ++ v.owed run := by
  cases u with
  | owing number id status spans =>
      obtain rfl : v = settled spans := hmove
      cases e with
      | endSpan ctx step status' =>
          obtain ⟨rfl, rfl, rfl⟩ := hallows
          by_cases hr : ctx.run = run <;>
            simp [owed, Effect.entriesFor, Effect.entries, Effect.mark?, Mark.ends, hr]
      | _ => exact hallows.elim
  | settled spans =>
      cases e with
      | endSpan => exact hallows.elim
      | startSpan ctx step =>
          obtain rfl : v = settled ((ctx.run, step) :: spans) := hmove
          by_cases hr : ctx.run = run <;>
            simp [owed, Effect.entriesFor, Effect.entries, Effect.mark?, Mark.ends, hr]
      | note number entry =>
          cases entry with
          | record r =>
              obtain rfl : v = recorded number r spans := hmove
              by_cases hr : number = run <;> by_cases hs : r.status = .skipped <;>
                simp [owed, recorded, Effect.entriesFor, Effect.run?, Effect.entries, Entry.ended?,
                  Effect.mark?, Mark.ends, hr, hs]
          | _ =>
              obtain rfl : v = settled spans := hmove
              by_cases hr : number = run <;>
                simp [owed, Effect.entriesFor, Effect.run?, Effect.entries, Entry.ended?, Effect.mark?,
                  Mark.ends, hr]
      | _ =>
          obtain rfl : v = settled spans := hmove
          simp [owed, Effect.entriesFor, Effect.entries, Effect.mark?, Mark.ends]

/-- The marks of a task have the starts of its open spans. -/
theorem unclosed_step {w : List Mark} (h : Unclosed (u.openIn run) w)
    (hallows : protocol.allows u e) (hmove : protocol.moves u e a v) :
    Unclosed (v.openIn run) (w ++ (e.mark? run).toList) := by
  cases u with
  | owing number id status spans =>
      obtain rfl : v = settled spans := hmove
      cases e with
      | endSpan ctx step status' =>
          obtain ⟨rfl, rfl, rfl⟩ := hallows
          by_cases hr : ctx.run = run
          · simp only [openIn, hr, List.filterMap_cons, if_true] at h
            simpa [openIn, Effect.mark?, hr] using h.stop status
          · simpa [openIn, Effect.mark?, hr] using h
      | _ => exact hallows.elim
  | settled spans =>
      cases e with
      | endSpan => exact hallows.elim
      | startSpan ctx step =>
          obtain rfl : v = settled ((ctx.run, step) :: spans) := hmove
          by_cases hr : ctx.run = run
          · simpa [openIn, Effect.mark?, hr] using h.start step
          · simpa [openIn, Effect.mark?, hr] using h
      | note number entry =>
          cases entry with
          | record r =>
              obtain rfl : v = recorded number r spans := hmove
              by_cases hs : r.status = .skipped
              · simpa [recorded, hs, Effect.mark?] using h
              · obtain ⟨rest, rfl⟩ : ∃ rest, spans = (number, r.stepId) :: rest := by
                  have hhead := hallows.2 hs
                  cases spans with
                  | nil => cases hhead
                  | cons x rest =>
                      cases hhead
                      exact ⟨rest, rfl⟩
                simpa [recorded, hs, Effect.mark?, openIn] using h
          | _ =>
              obtain rfl : v = settled spans := hmove
              simpa [Effect.mark?] using h
      | _ =>
          obtain rfl : v = settled spans := hmove
          simpa [Effect.mark?] using h

end Books

/-! ## What the sink keeps -/

theorem mem_marksOf {run : Nat} {t : TaskId} {mark : Mark} {log : List Occurrence}
    (h : (t, mark) ∈ marksOf run log) : ∃ e a before after,
      .poll ⟨t, e, some a, before, after⟩ ∈ log ∧ e.mark? run = some mark := by
  obtain ⟨x, hx, hmark⟩ := List.mem_flatMap.mp h
  split at hmark
  · obtain ⟨y, hy, heq⟩ := List.mem_map.mp hmark
    cases heq
    exact ⟨_, _, _, _, hx, Option.mem_toList.mp hy⟩
  · cases hmark

theorem marksOf_of_quiet {run : Nat} {log : List Occurrence} (h : ∀ x, .poll x ∉ log) :
    marksOf run log = [] := by
  rw [List.eq_nil_iff_forall_not_mem]
  rintro ⟨t, mark⟩ hm
  obtain ⟨e, a, before, after, hx, -⟩ := mem_marksOf hm
  exact h _ hx

theorem Effect.run?_of_mark? {run : Nat} {e : Effect} {mark : Mark} (h : e.mark? run = some mark) :
    e.run? = some run := by
  cases e with
  | startSpan ctx step | endSpan ctx step status =>
      simp only [Effect.mark?] at h
      split at h
      · rename_i hrun
        exact congrArg some hrun
      · cases h
  | _ => cases h

theorem marks_of_poll {run : Nat} {t : TaskId} {e : Effect} {a : Option e.Answer}
    {before after : Machine} (h : e.mark? run ≠ none → a.isSome) :
    (marksOf run [.poll ⟨t, e, a, before, after⟩]).map Prod.snd = (e.mark? run).toList := by
  cases a with
  | none =>
      have hmark : e.mark? run = none := not_not.mp fun hne => Bool.false_ne_true (h hne)
      rw [hmark]
      rfl
  | some a => simp [marksOf, Function.comp_def]

namespace Trace

variable (x : Trace) {run : Nat} {marks : List Mark}

theorem mark_sink (run : Nat) (mark : Mark) : (x.mark run mark).sink = x.sink := by
  unfold Trace.mark
  split <;> rfl

theorem mark_runs (hsink : x.sink = .recording) (h : x.runs[run]? = some marks) (number : Nat)
    (mark : Mark) : (x.mark number mark).runs[run]? =
      some (marks ++ if number = run then [mark] else []) := by
  unfold Trace.mark
  rw [if_pos hsink]
  dsimp only
  rw [List.getElem?_modify, h]
  by_cases hr : number = run <;> simp [hr]

theorem after_sink (e : Effect) : (x.after e).sink = x.sink := by
  cases e with
  | startSpan | endSpan => exact x.mark_sink _ _
  | _ => rfl

/-- A sink that is recording keeps the marks of each run in their order. -/
theorem after_runs (e : Effect) (hsink : x.sink = .recording) (h : x.runs[run]? = some marks) :
    (x.after e).runs[run]? = some (marks ++ (e.mark? run).toList) := by
  cases e with
  | startSpan ctx step | endSpan ctx step status =>
      refine (x.mark_runs hsink h ctx.run _).trans ?_
      by_cases hr : ctx.run = run <;> simp [Effect.mark?, hr]
  | openRun flow parent =>
      have hlt := (List.getElem?_eq_some_iff.mp h).1
      simp [after, Effect.mark?, List.getElem?_append_left hlt, h]
  | _ => simpa [after, Effect.mark?] using h

end Trace

namespace System

variable {config : Config} {s s' : System RunResult} {log : List Occurrence} {run : Nat}
  {marks : List Mark}

theorem answered_of_mark {m : Machine} {t : TaskId} {w : Wait} {e : Effect} (h : e.mark? run ≠ none) :
    (m.poll t w e).turn.answer?.isSome := by
  cases e with
  | startSpan | endSpan => rfl
  | _ => exact absurd rfl h

theorem Moves.sink (h : s.Moves config log s') : s'.machine.trace.sink = s.machine.trace.sink := by
  rcases h.polled_or_unpolled with ⟨t, e, next, w, polls, rfl⟩ | hquiet
  · rw [Machine.trace_of_shared polls.shared, Machine.trace_poll, Trace.after_sink]
  · rw [hquiet.machine.trace]

theorem Reaches.sink (h : s.Reaches config log s') :
    s'.machine.trace.sink = s.machine.trace.sink := by
  induction h with
  | refl => rfl
  | move before move ih => exact move.sink.trans ih

theorem Moves.trace (h : s.Moves config log s') (hsink : s.machine.trace.sink = .recording)
    (hm : s.machine.trace.runs[run]? = some marks) :
    s'.machine.trace.runs[run]? = some (marks ++ (marksOf run log).map Prod.snd) := by
  rcases h.polled_or_unpolled with ⟨t, e, next, w, polls, rfl⟩ | hquiet
  · rw [Machine.trace_of_shared polls.shared, Machine.trace_poll, marks_of_poll answered_of_mark]
    exact s.machine.trace.after_runs e hsink hm
  · rw [hquiet.machine.trace, marksOf_of_quiet hquiet.quiet]
    simpa using hm

/-- The trace of a run grows by the marks that the tasks of the session leave. -/
theorem Reaches.trace (h : s.Reaches config log s') (hsink : s.machine.trace.sink = .recording)
    (hm : s.machine.trace.runs[run]? = some marks) :
    s'.machine.trace.runs[run]? = some (marks ++ (marksOf run log).map Prod.snd) := by
  induction h with
  | refl => simpa [marksOf] using hm
  | move before move ih =>
      rw [marksOf_append, List.map_append, ← List.append_assoc]
      exact move.trace (before.sink.trans hsink) ih

end System
end FlowEngine
