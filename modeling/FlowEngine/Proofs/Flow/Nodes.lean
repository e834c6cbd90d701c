import FlowEngine.Control
import FlowEngine.Flow.Validity
import FlowEngine.Step.Basic

/-!
# Steps and the steps inside them

What holds of a step when it holds of its children holds of every step. The nodes of a step are the
step and the nodes of its children.
-/
namespace FlowEngine

namespace Step

theorem mem_sequenceNodes {n : Step} {body : List Step} :
    n ∈ sequenceNodes body ↔ ∃ c ∈ body, n ∈ c.nodes := by
  induction body with
  | nil => simp [sequenceNodes]
  | cons s rest ih => simp [sequenceNodes, ih]

theorem mem_optionNodes {n : Step} {body : Option (List Step)} :
    n ∈ optionNodes body ↔ ∃ steps ∈ body.toList, n ∈ sequenceNodes steps := by
  cases body <;> simp [optionNodes]

theorem mem_branchNodes {n : Step} {branches : List (Expr × List Step)} :
    n ∈ branchNodes branches ↔ ∃ body ∈ branches.map Prod.snd, n ∈ sequenceNodes body := by
  induction branches with
  | nil => simp [branchNodes]
  | cons b rest ih => simp [branchNodes, ih]

theorem mem_armNodes {n : Step} {arms : List (Pattern × List Step)} :
    n ∈ armNodes arms ↔ ∃ body ∈ arms.map Prod.snd, n ∈ sequenceNodes body := by
  induction arms with
  | nil => simp [armNodes]
  | cons a rest ih => simp [armNodes, ih]

theorem mem_laneNodes {n : Step} {lanes : List (List Step × Option Expr)} :
    n ∈ parallelNodes lanes ↔ ∃ body ∈ lanes.map Prod.fst, n ∈ sequenceNodes body := by
  induction lanes with
  | nil => simp [parallelNodes]
  | cons l rest ih => simp [parallelNodes, ih]

theorem mem_actionNodes {n : Step} (action : Action) :
    n ∈ actionNodes action ↔ ∃ body ∈ action.children, n ∈ sequenceNodes body := by
  cases action <;>
    simp only [actionNodes, Action.children, List.mem_append, mem_branchNodes, mem_armNodes,
      mem_laneNodes, mem_optionNodes, List.mem_cons, List.not_mem_nil, or_and_right, exists_or,
      exists_eq_left, false_and, exists_false, or_false]

theorem mem_nodes {n s : Step} :
    n ∈ s.nodes ↔ n = s ∨ ∃ body ∈ s.children, ∃ c ∈ body, n ∈ c.nodes := by
  obtain ⟨id, action, retry, timeout⟩ := s
  simp only [nodes, List.mem_cons, mem_actionNodes, mem_sequenceNodes, children, Step.action]

theorem sizeOf_snd_lt {α : Type} [SizeOf α] {body : List Step} {pairs : List (α × List Step)}
    (h : body ∈ pairs.map Prod.snd) : sizeOf body < sizeOf pairs := by
  obtain ⟨⟨a, body⟩, hmem, rfl⟩ := List.mem_map.mp h
  have := List.sizeOf_lt_of_mem hmem
  simp only [Prod.mk.sizeOf_spec] at this ⊢
  omega

theorem sizeOf_fst_lt {α : Type} [SizeOf α] {body : List Step} {pairs : List (List Step × α)}
    (h : body ∈ pairs.map Prod.fst) : sizeOf body < sizeOf pairs := by
  obtain ⟨⟨body, a⟩, hmem, rfl⟩ := List.mem_map.mp h
  have := List.sizeOf_lt_of_mem hmem
  simp only [Prod.mk.sizeOf_spec] at this ⊢
  omega

theorem sizeOf_option_lt {body : List Step} {option : Option (List Step)}
    (h : body ∈ option.toList) : sizeOf body < sizeOf option := by
  cases Option.mem_toList.mp h
  simp only [Option.some.sizeOf_spec]
  omega

theorem sizeOf_body_lt {a : Action} {body : List Step} (h : body ∈ a.children) :
    sizeOf body < sizeOf a := by
  cases a with
  | call | record | script | assign => cases h
  | conditional branches otherwise =>
    simp only [Action.conditional.sizeOf_spec]
    obtain h | h := List.mem_append.mp h
    · have := sizeOf_snd_lt h
      omega
    · have := sizeOf_option_lt h
      omega
  | choose subject arms otherwise =>
    simp only [Action.choose.sizeOf_spec]
    obtain h | h := List.mem_append.mp h
    · have := sizeOf_snd_lt h
      omega
    · have := sizeOf_option_lt h
      omega
  | guard | repeatTimes | repeatForEach | forEach =>
    cases List.mem_singleton.mp h
    simp only [Action.guard.sizeOf_spec, Action.repeatTimes.sizeOf_spec,
      Action.repeatForEach.sizeOf_spec, Action.forEach.sizeOf_spec]
    omega
  | parallel branches join =>
    have := sizeOf_fst_lt h
    simp only [Action.parallel.sizeOf_spec]
    omega
  | transaction body onError =>
    simp only [Action.transaction.sizeOf_spec]
    obtain rfl | h := List.mem_cons.mp h
    · omega
    · have := sizeOf_option_lt h
      omega

/-- Induction on steps: what the children of a step pass on to it holds of every step. -/
theorem induction {P : Step → Prop}
    (h : ∀ s : Step, (∀ body ∈ s.children, ∀ c ∈ body, P c) → P s) (s : Step) : P s :=
  h s fun body hb c hc =>
    have := sizeOf_body_lt hb
    have := List.sizeOf_lt_of_mem hc
    induction h c
termination_by sizeOf s
decreasing_by
  obtain ⟨id, action, retry, timeout⟩ := s
  simp only [Step.mk.sizeOf_spec, Step.action] at *
  omega

end Step
end FlowEngine

/-!
## Names that steps bind

The names that an action binds can be read off it. A loop and a choice bind no others, whatever values
they come upon.
-/
namespace FlowEngine

def Action.boundNames : Action → List String
  | .assign target _ _ =>
    match Target.ofText target with
    | .binding name => [name]
    | .field _ => []
  | action => Flow.writtenNames action

namespace Control

theorem name_of_loopBindings {binding : LoopBinding} {item : Json} {bound : List Binding}
    (h : loopBindings binding item = .ok bound) : ∀ b ∈ bound, b.1 ∈ binding.names := by
  have htake (names : List String) (fields : List (String × Json)) :
      ∀ b ∈ loopBindings.takeFields names fields, b.1 ∈ names := by
    induction names generalizing fields with
    | nil => exact fun b hb => nomatch hb
    | cons name rest ih =>
        rw [loopBindings.takeFields, List.forall_mem_cons]
        exact ⟨List.mem_cons_self, fun b hb => List.mem_cons_of_mem _ (ih _ b hb)⟩
  unfold loopBindings at h
  split at h
  · cases h
    exact List.forall_mem_singleton.mpr List.mem_cons_self
  · split at h
    · split at h
      · cases h
        exact fun b hb => (List.of_mem_zip hb).1
      · cases h
    · cases h
      exact htake _ _
    · cases h

theorem Pattern.name_of_accepts? {pattern : Pattern} {subject : Json} {b : Binding}
    (h : Pattern.accepts? subject pattern = some (some b)) :
    pattern = .ok (some b.1) ∨ pattern = .err (some b.1) := by
  cases pattern with
  | literal value =>
      rw [accepts?] at h
      split at h <;> cases h
  | ok bind =>
      rw [accepts?] at h
      split at h
      · obtain ⟨name, rfl, rfl⟩ := Option.map_eq_some_iff.mp (Option.some.inj h)
        exact .inl rfl
      · cases h
  | err bind =>
      rw [accepts?] at h
      split at h
      · obtain ⟨name, rfl, rfl⟩ := Option.map_eq_some_iff.mp (Option.some.inj h)
        exact .inr rfl
      · cases h

theorem exists_pattern_of_selectArm {α : Type} {subject : Json} {arms : List (Pattern × α)}
    {otherwise : Option α} {body : α} {b : Binding}
    (h : selectArm subject arms otherwise = .ok (some (body, some b))) :
    ∃ pattern ∈ arms.map Prod.fst, pattern = .ok (some b.1) ∨ pattern = .err (some b.1) := by
  induction arms with
  | nil =>
      cases otherwise with
      | some body => cases h
      | none =>
          rw [selectArm] at h
          split at h <;> cases h
  | cons arm rest ih =>
      obtain ⟨pattern, body'⟩ := arm
      rw [selectArm] at h
      cases haccepts : Pattern.accepts? subject pattern with
      | some binding =>
          rw [haccepts] at h
          cases h
          exact ⟨_, List.mem_cons_self, Pattern.name_of_accepts? haccepts⟩
      | none =>
          rw [haccepts] at h
          obtain ⟨arm, harm, hname⟩ := ih h
          exact ⟨arm, List.mem_cons_of_mem _ harm, hname⟩

end Control

end FlowEngine
