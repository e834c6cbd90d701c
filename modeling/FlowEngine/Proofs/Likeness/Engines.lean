import FlowEngine.Engine
import FlowEngine.Proofs.Likeness.Systems

/-!
# Runs on engines that are alike

A new engine is like itself in every world that is alike, and runs of a flow on engines that are
alike come to results that mean the same.
-/
namespace FlowEngine

open Execution

/-- Machines that nothing was run on yet are alike in worlds that are alike. -/
theorem Machine.Like.new {v : Likeness} (hv : v.shift = .zero) (config : Config) {w w' : World}
    (hw : v.worlds w w') : (Machine.new config w).Like v (Machine.new config w') where
  world := hw
  maxConcurrency := rfl
  now := by rw [hv]; rfl
  next := by rw [hv]; rfl
  resumed := by rw [hv]; exact Nat.le_refl 0
  cancelled := rfl
  observers := rfl
  timers := rfl
  foreign := nofun
  ready := rfl
  mainReady := rfl
  running := rfl
  branches := by rw [hv]; exact ⟨rfl, fun _ => .none⟩
  submissions := ⟨rfl, rfl⟩
  runs := by rw [hv]; exact ⟨rfl, fun _ => .none⟩

namespace Engine

def runOnce (config : Config) (world : World) (flow : Flow) (inputs : List (String × Json))
    (cancelled : Bool) (cancelAfter : Option Nat) : Option (RunResult × World) :=
  let asked := (unchecked config world).newToken cancelled cancelAfter
  (asked.2.run flow inputs asked.1).map fun x => (x.1, x.2.machine.world)

def asked (e : Engine) (flow : Flow) (inputs : List (String × Json)) (cancelled : Bool)
    (cancelAfter : Option Nat) : System RunResult :=
  let token := e.newToken cancelled cancelAfter
  .start token.2.machine (Execution.run e.config flow inputs token.1)

def runNext (e : Engine) (flow : Flow) (inputs : List (String × Json)) (cancelAfter : Option Nat) :
    Option (RunResult × Engine) :=
  let token := e.newToken false cancelAfter
  token.2.run flow inputs token.1

/-- A run touches nothing of an engine but its machine. -/
theorem runNext_eq (e : Engine) (flow : Flow) (inputs : List (String × Json))
    (cancelAfter : Option Nat) : e.runNext flow inputs cancelAfter =
      ((e.asked flow inputs false cancelAfter).run patience).map fun x =>
        (x.1, { e with machine := x.2 }) :=
  rfl

variable {v : Likeness} {e e' : Engine}

/-- A new token comes with no timer but the one that is to cancel it. -/
theorem mem_timers_newToken {cancelAfter : Option Nat} {x : Timer}
    (hx : x ∈ (e.newToken false cancelAfter).2.machine.timers) :
    x ∈ e.machine.timers ∨ x.alarm = .cancel (e.newToken false cancelAfter).1 := by
  cases cancelAfter with
  | none => exact Or.inl hx
  | some span =>
      refine (List.mem_append.mp hx).imp_right fun hx => ?_
      rw [List.mem_singleton.mp hx]
      rfl

theorem like_newToken (h : e.machine.Like v e'.machine) (cancelled : Bool)
    (cancelAfter : Option Nat) :
    (e'.newToken cancelled cancelAfter).1 = v.shift.token (e.newToken cancelled cancelAfter).1 ∧
      (e.newToken cancelled cancelAfter).2.machine.Like v
        (e'.newToken cancelled cancelAfter).2.machine := by
  obtain ⟨htoken, hlike⟩ := h.newToken
  have hstruck : Machine.Like v
      (if cancelled then e.machine.newToken.2.cancel e.machine.newToken.1 else e.machine.newToken.2)
      (if cancelled then e'.machine.newToken.2.cancel e'.machine.newToken.1
        else e'.machine.newToken.2) := by
    rw [htoken]
    split
    · exact hlike.cancel _
    · exact hlike
  refine ⟨htoken, ?_⟩
  unfold newToken
  cases cancelAfter with
  | none => exact hstruck
  | some span =>
      simp only [htoken] at hstruck ⊢
      exact (hstruck.schedule span (.cancel e.machine.newToken.1)).2

/-- Runs of a flow on engines that are alike come to results that mean the same. -/
theorem like_run (h : e.machine.Like v e'.machine) (hconfig : e'.config = e.config)
    (alone : ∀ token, ¬ v.expects token) {flow : Flow} (hflow : Admits v flow)
    (inputs : List (String × Json)) (token : Token) : Option.Rel
      (fun x x' => v.shift.Results x.1 x'.1 ∧ x.2.machine.Like v x'.2.machine)
      (e.run flow inputs token) (e'.run flow inputs (v.shift.token token)) := by
  have hlike : Program.Like v v.shift.Results (Execution.run e.config flow inputs token) _ :=
    Execution.like_run hflow inputs token
  unfold run execute System.execute
  rw [hconfig]
  have hrun := (System.Like.start h hlike).run alone patience
  revert hrun
  generalize System.run patience _ = x
  generalize System.run patience _ = x'
  rintro (⟨hx⟩ | -)
  · exact .some hx
  · exact .none

/-- In worlds that are alike a run of a flow comes to the same and leaves worlds behind that are
alike. -/
theorem like_runOnce (hv : v.shift = .zero) (alone : ∀ token, ¬ v.expects token) {w w' : World}
    (hw : v.worlds w w') (config : Config) {flow : Flow} (hflow : Admits v flow)
    (inputs : List (String × Json)) (cancelled : Bool)
    (cancelAfter : Option Nat) : Option.Rel (fun x x' => x'.1 = x.1 ∧ v.worlds x.2 x'.2)
      (runOnce config w flow inputs cancelled cancelAfter)
      (runOnce config w' flow inputs cancelled cancelAfter) := by
  have hnew : (unchecked config w).machine.Like v (unchecked config w').machine := .new hv config hw
  obtain ⟨htoken, hlike⟩ := like_newToken hnew cancelled cancelAfter
  have hrun :=
    like_run hlike rfl alone hflow inputs ((unchecked config w).newToken cancelled cancelAfter).1
  rw [← htoken] at hrun
  unfold runOnce
  dsimp only
  revert hrun
  generalize run _ flow inputs _ = x
  generalize run _ flow inputs _ = x'
  rintro (⟨hresults, hmachines⟩ | -)
  · rw [hv] at hresults
    exact .some ⟨Shift.zero_results hresults, hmachines.world⟩
  · exact .none

end Engine
end FlowEngine

/-!
## Span sinks

A run does not depend on its span sink: whether the sink keeps the spans, drops them or fails at
every call, the run comes to the same result and leaves the same world behind.
-/
namespace FlowEngine

open Execution

namespace World

def withSink (w : World) (sink : SpanSink) : World := { w with sink }

@[simp] theorem collaborator_withSink (w : World) (sink : SpanSink) (route : Route) :
    Machine.collaborator (w.withSink sink) route = Machine.collaborator w route := by
  cases route <;> rfl

@[simp] theorem setCollaborator_withSink (w : World) (sink : SpanSink) (route : Route)
    (c : Collaborator) : Machine.setCollaborator (w.withSink sink) route c =
      (Machine.setCollaborator w route c).withSink sink := by
  cases route with
  | agent =>
      obtain ⟨models, agents, tools, store, old⟩ := w
      cases agents <;> rfl
  | _ => rfl

end World

def Likeness.withSink (sink : SpanSink) : Likeness where
  shift := .zero
  requests _ := True
  transactions := True
  worlds w w' := w' = w.withSink sink
  calls route target inputs := by
    rintro rfl -
    exact ⟨_, _, _, _, rfl, by rw [World.collaborator_withSink]; rfl,
      World.setCollaborator_withSink ..⟩
  finishes route target inputs := by
    rintro rfl -
    rw [World.collaborator_withSink, World.setCollaborator_withSink]
  delays op := by
    rintro rfl
    rfl
  operates request := by
    rintro rfl -
    exact ⟨_, _, _, rfl, rfl, rfl⟩
  stores := by
    rintro w _ - rfl
    exact ⟨rfl, fun store => rfl⟩

/-- With another span sink a run comes to the same result: the same status, outputs, records, errors
and events. It leaves the same store and the same collaborators behind. -/
theorem span_sink_never_matters (config : Config) (world : World) (flow : Flow)
    (inputs : List (String × Json)) (cancelled : Bool) (cancelAfter : Option Nat)
    (sink : SpanSink) :
    Engine.runOnce config (world.withSink sink) flow inputs cancelled cancelAfter =
      (Engine.runOnce config world flow inputs cancelled cancelAfter).map fun x =>
        (x.1, x.2.withSink sink) := by
  have hflow : Admits (.withSink sink) flow := fun _ _ => ⟨fun _ _ => trivial, fun _ _ _ => trivial⟩
  have hworld : (Likeness.withSink sink).worlds world (world.withSink sink) := rfl
  have hrun :=
    Engine.like_runOnce rfl (fun _ => id) hworld config hflow inputs cancelled cancelAfter
  revert hrun
  generalize Engine.runOnce config world flow inputs cancelled cancelAfter = x
  generalize Engine.runOnce config (world.withSink sink) flow inputs cancelled cancelAfter = x'
  rintro (⟨hresult, hworld⟩ | -)
  · exact congrArg some (Prod.ext hresult hworld)
  · rfl

end FlowEngine
