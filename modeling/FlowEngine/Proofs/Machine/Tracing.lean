import FlowEngine.Proofs.Machine.Heeding
import FlowEngine.Proofs.Session.Polled

/-!
# What the span sink keeps

The trace of a machine is its span sink with the marks that the sink kept of each run. Only the
start and the end of a span add to it, and only if the sink is recording.
-/
namespace FlowEngine

/-- The start of a step, or its end with a status, at whatever time. -/
abbrev Mark : Type := String × Option StepStatus

def SpanMark.mark (x : SpanMark) : Mark := (x.step, x.status)

structure Trace where
  sink : SpanSink
  runs : List (List Mark)

namespace Trace

def mark (x : Trace) (run : Nat) (mark : Mark) : Trace :=
  if x.sink = .recording then { x with runs := x.runs.modify run (· ++ [mark]) } else x

def after (x : Trace) : Effect → Trace
  | .startSpan ctx step => x.mark ctx.run (step, none)
  | .endSpan ctx step status => x.mark ctx.run (step, some status)
  | .openRun _ _ => { x with runs := x.runs ++ [[]] }
  | _ => x

end Trace

namespace Machine

variable (m : Machine)

def trace (m : Machine) : Trace :=
  ⟨m.world.sink, m.runs.toList.map fun r => r.spans.map SpanMark.mark⟩

theorem trace_of_shared {m m' : Machine} (h : m'.shared = m.shared) : m'.trace = m.trace := by
  change m'.shared.trace = m.shared.trace
  rw [h]

theorem trace_modifyRun (run : Nat) (f : ActiveRun → ActiveRun) (h : ∀ r, (f r).spans = r.spans) :
    (m.modifyRun run f).trace = m.trace := by
  have hm := map_modify (f := f) (g := id) (h := fun r : ActiveRun => r.spans.map SpanMark.mark)
    (fun r => by rw [h r]; rfl) m.runs.toList run
  simp only [trace, modifyRun, Array.toList_modify, hm, List.modify_id]

/-! ## What leaves the trace as it is -/

theorem outsider_trace : Outsider trace where
  observers _ _ := rfl
  branches _ _ := rfl
  stragglers m run _ := m.trace_modifyRun run _ fun _ => rfl
  wake m t := trace_of_shared (m.shared_wake t)

theorem trace_observe (token : Token) (t : TaskId) : (m.observe token t).trace = m.trace :=
  outsider_trace.observe m token t

theorem trace_cancel (token : Token) : (m.cancel token).trace = m.trace :=
  outsider_trace.cancel (fun _ _ => rfl) m token

theorem trace_advanceClock? {m' : Machine} (h : m.advanceClock? = some m') : m'.trace = m.trace := by
  obtain ⟨due, rfl⟩ := m.advanceClock?_eq h
  exact outsider_trace.rings (fun _ _ => rfl) _ _

theorem errand_trace (me : TaskId) : Errand (fun m m' => m'.trace = m.trace) me := by
  refine .of_wake ?_ (fun m t => trace_of_shared (m.shared_wake t)) fun m run gate =>
    m.trace_modifyRun run _ fun _ => rfl
  exact {
    refl _ := rfl
    trans h h' := h'.trans h
    modifyRun m run _ _ spans := m.trace_modifyRun run _ spans
    modifyWorld m _ sink := congrArg (fun sink => Trace.mk sink _) (sink m.world)
    forget _ := rfl
    observe m token := m.trace_observe token me
    schedule _ _ := rfl
    stopTimer _ _ := rfl }

/-! ## What adds to the trace -/

theorem trace_mark (run : Nat) (step : String) (status : Option StepStatus) :
    (m.mark run step status).2.trace = m.trace.mark run (step, status) := by
  have hm := map_modify (f := fun r : ActiveRun => { r with spans := r.spans ++ [⟨m.now, status, step⟩] })
    (g := (· ++ [(step, status)])) (h := fun r : ActiveRun => r.spans.map SpanMark.mark)
    (fun r => by simp [SpanMark.mark]) m.runs.toList run
  unfold mark Trace.mark
  split
  · rename_i hsink
    rw [if_pos (show m.trace.sink = .recording from hsink)]
    simp only [trace, modifyRun, Array.toList_modify, hm]
  · rename_i hsink
    exact (if_neg (by simp [trace, hsink])).symm
  · rename_i hsink
    exact (if_neg (by simp [trace, hsink])).symm

theorem trace_openRun (flow : String) (parent : Token) :
    (m.openRun flow parent).2.trace = { m.trace with runs := m.trace.runs ++ [[]] } := by
  simp [openRun, childToken, trace]

theorem trace_poll (me : TaskId) (wait : Wait) (e : Effect) :
    (m.poll me wait e).machine.trace = m.trace.after e := by
  cases e with
  | startSpan ctx step => exact m.trace_mark ctx.run step none
  | endSpan ctx step status => exact m.trace_mark ctx.run step (some status)
  | openRun flow parent => exact m.trace_openRun flow parent
  | childToken | startDeadline | stopDeadline => rfl
  | request run token request => exact (errand_trace me).pollRequest m run token request wait
  | sleep token span => exact (errand_trace me).pollSleep m token span wait
  | join run policy group branches =>
      exact outsider_trace.pollJoin policy (fun _ => trace_cancel) m me run group branches wait
  | settle run token => exact outsider_trace.pollSettle m me run token wait
  | acquireSlot =>
      unfold poll pollSlot
      cases wait <;> dsimp only <;> split <;> rfl
  | releaseSlot =>
      have hwake : m.releaseSlot.trace = { m with slots := m.slots.release.1 }.trace :=
        trace_of_shared (shared_wakeIfSome _ m.slots.release.2)
      exact hwake
  | awaitRun submission =>
      unfold poll pollRun
      dsimp only
      split <;> rfl
  | _ => exact (errand_trace me).toClerical.poll m me wait rfl

theorem Passes.trace {m m' : Machine} (h : m.Passes m') : m'.trace = m.trace := by
  cases h with
  | same shared => exact trace_of_shared shared
  | counted shared => exact (trace_of_shared shared : m'.trace = { m with next := m.next + 1 }.trace)
  | cancelled token => exact m.trace_cancel token
  | scheduled span token => rfl
  | clock h => exact m.trace_advanceClock? h

end Machine
end FlowEngine
