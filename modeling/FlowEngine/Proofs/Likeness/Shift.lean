import FlowEngine.Execution.Step
import FlowEngine.Machine.Basic
import Mathlib.Data.List.Basic

/-!
# Other numbers

A machine that something was run on before shows a later time, and it numbers its tokens, timers,
branches and runs from where it has got to. `Shift` tells by how much, and moves whatever has such a
number in it. Some numbers may be left out, as they belong to timers that only one of the machines
has.
-/
namespace FlowEngine

structure Shift where
  time : Nat
  number : Nat
  branches : Nat
  runs : Nat
  resumes : Nat := 0
  gap : Nat := 0

namespace Shift

def zero : Shift where
  time := 0
  number := 0
  branches := 0
  runs := 0

variable (d : Shift)

def moved (n : Nat) : Nat := if n < d.resumes then n + d.number else n + d.number + d.gap

def skips (n : Nat) : Bool :=
  n < d.number || d.number + d.resumes ≤ n && n < d.number + d.resumes + d.gap

def token (t : Token) : Token := ⟨t.path.map d.moved⟩

def stale (t : Token) : Bool := t.path.any d.skips

def task : TaskId → TaskId
  | .main => .main
  | .branch number => .branch (number + d.branches)
  | .submission number => .submission number

def context (ctx : Context) : Context := ⟨ctx.run + d.runs, d.token ctx.token, ctx.stepLimit⟩

def branch : Branch → Branch
  | .steps ctx scope body collect => .steps (d.context ctx) scope body collect
  | .timed observed delay result => .timed (observed.map d.token) delay result

def effect : Effect → Effect
  | .isCancelled token => .isCancelled (d.token token)
  | .childToken token => .childToken (d.token token)
  | .startDeadline token limit => .startDeadline (d.token token) limit
  | .stopDeadline deadline => .stopDeadline (d.moved deadline)
  | .note run entry => .note (run + d.runs) entry
  | .startSpan ctx step => .startSpan (d.context ctx) step
  | .endSpan ctx step status => .endSpan (d.context ctx) step status
  | .request run token request => .request (run + d.runs) (d.token token) request
  | .sleep token span => .sleep (token.map d.token) span
  | .join run policy group branches =>
    .join (run + d.runs) policy (d.token group) (branches.map d.branch)
  | .settle run token => .settle (run + d.runs) (token.map d.token)
  | .beginTransaction ctx => .beginTransaction (d.context ctx)
  | .releaseTransaction run handle => .releaseTransaction (run + d.runs) handle
  | .discardSnapshot handle => .discardSnapshot handle
  | .restoreSnapshot handle => .restoreSnapshot handle
  | .acquireSlot => .acquireSlot
  | .releaseSlot => .releaseSlot
  | .openRun flow parent => .openRun flow (d.token parent)
  | .closeRun run ending outputs => .closeRun (run + d.runs) ending outputs
  | .awaitRun submission => .awaitRun submission

def result (r : RunResult) : RunResult := { r with number := r.number + d.runs }

/-- The results of runs are the same but for the numbers of the runs. A run that is not there has
the same result everywhere. -/
def Results (r r' : RunResult) : Prop := r' = d.result r ∨ r' = r

/-- Answers with the same meaning. What a span sink answers is left open. -/
def Answers : (e : Effect) → e.Answer → (d.effect e).Answer → Prop
  | .isCancelled _, a, a' => a' = a
  | .childToken _, a, a' => a' = d.token a
  | .startDeadline _ _, (a : Nat), (a' : Nat) => a' = d.moved a
  | .stopDeadline _, a, a' => a' = a
  | .note _ _, _, _ => True
  | .startSpan _ _, _, _ => True
  | .endSpan _ _ _, _, _ => True
  | .request _ _ _, a, a' => a' = a
  | .sleep _ _, a, a' => a' = a
  | .join _ _ _ _, a, a' => a' = a
  | .settle _ _, a, a' => a' = a
  | .beginTransaction _, a, a' => a' = a
  | .releaseTransaction _ _, a, a' => a' = a
  | .discardSnapshot _, a, a' => a' = a
  | .restoreSnapshot _, a, a' => a' = a
  | .acquireSlot, _, _ => True
  | .releaseSlot, _, _ => True
  | .openRun _ _, (a : Nat × Token), a' => a' = (a.1 + d.runs, d.token a.2)
  | .closeRun _ _ _, a, a' => d.Results a a'
  | .awaitRun _, a, a' => d.Results a a'

def alarm : Alarm → Alarm
  | .wake task => .wake (d.task task)
  | .cancel token => .cancel (d.token token)

def timer (x : Timer) : Timer := ⟨d.moved x.number, x.due + d.time, d.alarm x.alarm⟩

def wait : Wait → Wait
  | .fresh => .fresh
  | .permit => .permit
  | .call timer outcome => .call (d.moved timer) outcome
  | .operation timer => .operation (d.moved timer)
  | .timer timer => .timer (d.moved timer)
  | .branches tasks => .branches (tasks.map (· + d.branches))
  | .stragglers tasks settled => .stragglers (tasks.map (· + d.branches)) settled
  | .slot => .slot
  | .submission => .submission

def gate (g : Gate TaskId) : Gate TaskId :=
    ⟨g.size, g.free, g.waiting.map d.task, g.granted.map d.task⟩

/-! ## Nothing is confused -/

theorem moved_lt_moved {n k : Nat} : d.moved n < d.moved k ↔ n < k := by
  unfold moved
  split <;> split <;> omega

theorem moved_inj {n k : Nat} : d.moved n = d.moved k ↔ n = k := by
  unfold moved
  split <;> split <;> omega

theorem moved_of_le {n : Nat} (h : d.resumes ≤ n) : d.moved n = n + d.number + d.gap :=
  if_neg (Nat.not_lt.mpr h)

theorem skips_moved (n : Nat) : d.skips (d.moved n) = false := by
  unfold skips moved
  split <;> simp <;> omega

theorem skips_of_lt {n : Nat} (h : n < d.number) : d.skips n = true := by
  simp [skips, h]

theorem lt_of_skips {n : Nat} (h : d.skips n = true) : n < d.number + d.resumes + d.gap := by
  simp [skips] at h
  omega

theorem stale_token (t : Token) : d.stale (d.token t) = false := by
  simp [stale, token, skips_moved]

/-- Nothing that both machines know is below a token of the other one alone. -/
theorem not_covers_of_stale {c : Token} (h : d.stale c = true) (t : Token) :
    c.covers (d.token t) = false := by
  rw [Bool.eq_false_iff]
  intro hcovers
  obtain ⟨n, hn, hskips⟩ := List.any_eq_true.mp h
  obtain ⟨k, -, rfl⟩ := List.mem_map.mp ((List.isSuffixOf_iff_suffix.mp hcovers).subset hn)
  exact Bool.false_ne_true ((d.skips_moved k).symm.trans hskips)

theorem task_injective : Function.Injective d.task := by
  intro t u h
  cases t <;> cases u <;> simp_all [task]

theorem covers_token (t u : Token) : (d.token t).covers (d.token u) = t.covers u := by
  rw [Bool.eq_iff_iff]
  simp only [Token.covers, List.isSuffixOf_iff_suffix, token]
  constructor
  · rintro ⟨l, hl⟩
    obtain ⟨l₁, l₂, hu, -, hl₂⟩ := List.map_eq_append_iff.mp hl.symm
    refine ⟨l₁, ?_⟩
    rw [hu, List.append_cancel_left_eq]
    exact List.map_injective_iff.mpr (fun _ _ => d.moved_inj.mp) hl₂.symm
  · rintro ⟨l, hl⟩
    rw [← hl, List.map_append]
    exact List.suffix_append _ _

@[simp] theorem zero_moved (n : Nat) : zero.moved n = n := rfl

@[simp] theorem zero_token (t : Token) : zero.token t = t := by
  obtain ⟨path⟩ := t
  exact congrArg Token.mk (List.map_id' path)

@[simp] theorem zero_task (t : TaskId) : zero.task t = t := by
  cases t <;> rfl

theorem zero_results {r r' : RunResult} (h : zero.Results r r') : r' = r := h.elim id id

end Shift
end FlowEngine
