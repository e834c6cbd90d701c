import FlowEngine.Proofs.Session.Log

/-!
# Undisturbed sessions

A session in which one run of a flow is asked for and nobody interferes, apart from a
cancellation that may be due at some time. It is computed step by step, so that what
happens in it can be looked at.
-/
namespace FlowEngine

namespace System

variable {config : Config}

def course : Nat → System RunResult → List Occurrence × System RunResult
  | 0, s => ([], s)
  | fuel + 1, s =>
    match s.step? with
    | none => ([], s)
    | some s' => ((s.occurrences ++ (course fuel s').1), (course fuel s').2)

theorem reaches_course (fuel : Nat) (s : System RunResult) :
    s.Reaches config (s.course fuel).1 (s.course fuel).2 := by
  suffices hgoal : ∀ {s₀ : System RunResult} {log : List Occurrence}, s₀.Reaches config log s →
      s₀.Reaches config (log ++ (s.course fuel).1) (s.course fuel).2 from hgoal .refl
  induction fuel generalizing s with
  | zero =>
      intro s₀ log h
      rwa [course, List.append_nil]
  | succ fuel ih =>
      intro s₀ log h
      rw [course]
      cases hs : s.step? with
      | none => rwa [List.append_nil]
      | some s' =>
          rw [← List.append_assoc]
          exact ih s' (h.move (.step hs))

/-- More steps go on from where the first ones lead to. -/
theorem course_add (m n : Nat) (s : System RunResult) : s.course (m + n) =
    ((s.course m).1 ++ ((s.course m).2.course n).1, ((s.course m).2.course n).2) := by
  induction m generalizing s with
  | zero => simp [course]
  | succ m ih =>
      rw [Nat.succ_add, course, course]
      cases hs : s.step? with
      | some s' => simp [ih s']
      | none =>
          cases n with
          | zero => rfl
          | succ n => simp [course, hs]

theorem errand_not_mem_occurrences (s : System RunResult) : .errand ∉ s.occurrences := by
  intro hm
  unfold occurrences at hm
  split at hm
  · cases hm
  · split at hm <;> simp at hm

theorem not_restarted_course (fuel : Nat) (s : System RunResult) (t : TaskId) :
    ¬ Restarted t (s.course fuel).1 := by
  induction fuel generalizing s with
  | zero => exact restarted_nil t
  | succ fuel ih =>
      have hnow : ¬ Restarted t s.occurrences := fun h => s.errand_not_mem_occurrences h.2
      rw [course]
      cases s.step? with
      | none => exact restarted_nil t
      | some s' => exact fun h => (restarted_append.mp h).elim hnow (ih s')

/-- What the main task does until it ends. -/
theorem follows_course {fuel : Nat} {s : System RunResult} {p : Program RunResult}
    {result : RunResult} {order : Nat} (hat : s.At .main p)
    (hend : (s.course fuel).2.main = .ended result order) :
    p.Follows (deedsOf .main (s.course fuel).1) (.pure result) := by
  obtain ⟨q, hq, ⟨⟨w, hw⟩, -⟩ | ⟨r, rfl, ⟨k, hk⟩ | hrestarted⟩⟩ :=
    (@reaches_course {} fuel s).follows hat
  · rw [task?, hend] at hw
    cases hw
  · rw [task?, hend] at hk
    cases hk
    exact hq
  · exact absurd hrestarted (not_restarted_course fuel s .main)

def isOver (s : System RunResult) : Bool :=
  s.main.result?.isSome && s.machine.branches.toList.all (fun task => task.state.result?.isSome) &&
    s.machine.submissions.toList.all fun task => task.state.result?.isSome

theorem not_at_of_isOver {s : System RunResult} (h : s.isOver = true) {t : TaskId}
    {p : Program t.Result} : ¬ s.At t p := by
  rintro ⟨w, hw⟩
  simp only [isOver, Bool.and_eq_true, List.all_eq_true] at h
  obtain ⟨⟨hmain, hbranches⟩, hsubmissions⟩ := h
  cases t with
  | main =>
      rw [task?, Option.some.injEq] at hw
      rw [hw] at hmain
      cases hmain
  | branch number =>
      obtain ⟨task, htask, hstate⟩ := Option.map_eq_some_iff.mp hw
      have := hbranches task (Array.mem_toList_iff.mpr (Array.mem_of_getElem? htask))
      rw [hstate] at this
      cases this
  | submission number =>
      obtain ⟨task, htask, hstate⟩ := Option.map_eq_some_iff.mp hw
      have := hsubmissions task (Array.mem_toList_iff.mpr (Array.mem_of_getElem? htask))
      rw [hstate] at this
      cases this

end System

/-- Something in a list that is followed by something else. -/
theorem exists_append_of_any {α : Type} {p q : α → Bool} {l : List α}
    (h : ((l.dropWhile fun x => !p x).tail.any q) = true) :
    ∃ a x b y c, l = a ++ x :: (b ++ y :: c) ∧ p x = true ∧ q y = true := by
  cases hl : l.dropWhile fun x => !p x with
  | nil =>
      rw [hl] at h
      cases h
  | cons x rest =>
      rw [hl, List.tail_cons, List.any_eq_true] at h
      obtain ⟨y, hy, hq⟩ := h
      obtain ⟨b, c, rfl⟩ := List.append_of_mem hy
      refine ⟨l.takeWhile fun x => !p x, x, b, y, c, ?_, ?_, hq⟩
      · rw [← hl, List.takeWhile_append_dropWhile]
      · have := List.head_dropWhile_not (fun x => !p x) (l := l) (by simp [hl])
        simpa [hl] using this

/-- A flow that is run once, with nobody else at work. -/
structure Solo where
  config : Config := {}
  world : World
  flow : Flow
  inputs : List (String × Json) := []
  cancelAfter : Option Nat := none

namespace Solo

def idle (a : Solo) : System RunResult :=
  let token := (Machine.new a.config a.world).newToken
  match a.cancelAfter with
  | none => ⟨token.2, .ended default 0⟩
  | some span => ⟨(token.2.schedule span (.cancel token.1)).2, .ended default 0⟩

def start (a : Solo) : System RunResult :=
  .start a.idle.machine
    (Execution.run a.config a.flow a.inputs (Machine.new a.config a.world).newToken.1)

def course (a : Solo) (fuel : Nat) : List Occurrence × System RunResult :=
  (.errand :: (a.start.course fuel).1, (a.start.course fuel).2)

/-- The steps of the run make a session if its store has no open snapshots at first. -/
theorem session (a : Solo) (fuel : Nat) (h : a.world.store.store.snapshots = []) :
    Session a.config (a.course fuel).1 (a.course fuel).2 := by
  have hnew : System.Idle ⟨.new a.config a.world, .ended default 0⟩ := ⟨⟨_, _, rfl⟩, rfl⟩
  have htoken : System.Reaches a.config ⟨.new a.config a.world, .ended default 0⟩ []
      ⟨(Machine.new a.config a.world).newToken.2, .ended default 0⟩ :=
    .single (.newToken hnew)
  have hidle : System.Reaches a.config ⟨.new a.config a.world, .ended default 0⟩ [] a.idle ∧
      a.idle.Idle := by
    unfold idle
    cases a.cancelAfter with
    | none => exact ⟨htoken, ⟨_, _, rfl⟩, rfl⟩
    | some span => exact ⟨htoken.move (.cancelAfter ⟨⟨_, _, rfl⟩, rfl⟩ span _), ⟨_, _, rfl⟩, rfl⟩
  have hstart : System.Reaches a.config ⟨.new a.config a.world, .ended default 0⟩ [.errand] a.start :=
    hidle.1.move (.start hidle.2 (.run a.flow a.inputs _))
  exact ⟨_, .new a.world (.of_no_snapshots h), hstart.trans (System.reaches_course fuel a.start)⟩

def quietWorld (tools : List (String × Reply)) : World where
  models := .echo
  agents := none
  tools := .new tools .echo
  store := .new (.empty []) .none
  sink := .silent

def creates (id record : String) : Step :=
  .mk id (.record .create ⟨record, some (.literal (.obj [])), none, none, false⟩) none none

def calls (id tool : String) : Step := .mk id (.call .tool ⟨tool, [], none, false⟩) none none

/-- One branch creates a row in a transaction and waits when the other one fails. The
handler of the flow creates a row, too. -/
def abandoned : Solo where
  world := quietWorld [("slow", .delayed 50 .echo), ("broken", .delayed 10 (.failure .stepExecution "no"))]
  flow :=
    { name := "orders"
      description := none
      steps := [.mk "fork" (.parallel
        [([.mk "block" (.transaction [creates "order" "orders", calls "ship" "slow"] none) none none],
            none),
          ([calls "pay" "broken"], none)] .failFast) none none]
      onError := some [creates "audit" "audits"] }

def interrupted : Solo where
  world := quietWorld [("slow", .delayed 50 .echo)]
  flow :=
    { name := "orders"
      description := none
      steps := [.mk "block" (.transaction [creates "order" "orders", calls "ship" "slow"] none) none
        none]
      onError := some [creates "audit" "audits"] }
  cancelAfter := some 20

end Solo
end FlowEngine
