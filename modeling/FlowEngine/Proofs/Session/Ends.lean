import FlowEngine.Proofs.Machine.Numbers
import FlowEngine.Proofs.Session.Log

/-!
# Ends of branches

A branch ends once, the log says when, and the number of its end is above those of
all branches that have ended before.
-/
namespace FlowEngine

namespace Outline

variable {o o' : Outline} {config : Config} {log : List Occurrence}

/-- A task that has ended after a move had ended before, or it ends in the move. -/
theorem Advances.ended_cases (h : o.Advances config log o') {t : TaskId} {a : t.Result} {k : Nat}
    (ht : o'.task? t = some (.ended a k)) : o.task? t = some (.ended a k) ∨ log = [.ended t] := by
  cases h with
  | @finish u b w running active order =>
      by_cases htu : t = u
      · exact Or.inr (by rw [htu])
      · exact Or.inl ((o.task?_setTask_of_ne _ htu).symm.trans ht)
  | @answer u e next w b before after running active start polls =>
      by_cases htu : t = u
      · subst htu
        cases eq_of_task?_setTask _ _ ht
      · replace ht := (task?_setTask_of_ne _ _ htu).symm.trans ht
        exact Or.inl ((polls.task?_answered t).symm.trans ht)
  | @wait u e next w₁ w₂ before after running active start polls =>
      by_cases htu : t = u
      · subst htu
        cases eq_of_task?_setTask _ _ ht
      · replace ht := (task?_setTask_of_ne _ _ htu).symm.trans ht
        obtain ⟨hm, -, hs, hb | ⟨run, policy, group, bs, rfl, -, hspawn⟩⟩ := polls.tasks
        · exact Or.inl ((task?_of_branches hm hb hs t).symm.trans ht)
        · rcases task?_of_spawn (hspawn ▸ ht) with hold | ⟨i, b, -, rfl, hstate⟩
          · exact Or.inl hold
          · cases hstate
  | submit flow inputs token idle =>
      rcases task?_submit ht with ⟨-, hold⟩ | ⟨rfl, hstate⟩
      · exact Or.inl hold
      · cases hstate
  | errand idle ended errand =>
      cases t with
      | main => cases ht
      | _ => exact Or.inl ht
  | _ => exact Or.inl ht

theorem branchResult?_eq_some {n k : Nat} {r : Except Failure Json} :
    o.branchResult? n = some (r, k) ↔ o.task? (.branch n) = some (.ended r k) := by
  rw [branchResult?, Option.bind_eq_some_iff]
  constructor
  · rintro ⟨state, hstate, hr⟩
    cases state with
    | active p w => cases hr
    | ended r' k' =>
        cases hr
        exact hstate
  · exact fun h => ⟨_, h, rfl⟩

end Outline

namespace System

variable {config : Config} {s s' u : System RunResult} {log more : List Occurrence} {n : Nat}
  {r : Except Failure Json} {k : Nat}

theorem not_restarted_branch (n : Nat) (log : List Occurrence) : ¬ Restarted (.branch n) log :=
  fun h => nomatch h.1

theorem Reaches.branch_ended (h : s.Reaches config log s')
    (hn : s.task? (.branch n) = some (.ended r k)) : s'.task? (.branch n) = some (.ended r k) := by
  induction h with
  | refl => exact hn
  | move _ move ih =>
      rw [← task?_outline] at ih ⊢
      exact (move.advances.ended ih).2.resolve_right (not_restarted_branch n _)

theorem Reaches.ended_of_mem (h : s.Reaches config log s') (hm : .ended (.branch n) ∈ log) :
    ∃ r k, s'.task? (.branch n) = some (.ended r k) := by
  obtain ⟨l₁, l₂, rfl⟩ := List.append_of_mem hm
  obtain ⟨u, v, -, hmove, hv⟩ := h.moment
  obtain ⟨r, hr, -⟩ := hmove.number_of_end
  exact ⟨r, _, hv.branch_ended hr⟩

theorem Reaches.mem_of_ended (h : s.Reaches config log s') (hbefore : ∀ r k,
    s.task? (.branch n) ≠ some (.ended r k)) (hn : s'.task? (.branch n) = some (.ended r k)) :
    .ended (.branch n) ∈ log := by
  induction h with
  | refl => exact absurd hn (hbefore r k)
  | move before move ih =>
      rw [← task?_outline] at hn
      rcases move.advances.ended_cases hn with hsame | rfl
      · rw [task?_outline] at hsame
        exact List.mem_append_left _ (ih hsame)
      · exact List.mem_append_right _ (List.mem_singleton_self _)

end System

variable {config : Config} {log : List Occurrence} {s : System RunResult}

/-- The ends of branches are numbered from below the counter. -/
theorem Session.order_lt_next (h : Session config log s) {n : Nat} {r : Except Failure Json}
    {k : Nat} (hn : s.task? (.branch n) = some (.ended r k)) : k < s.machine.next := by
  obtain ⟨s₀, ⟨world, numbered⟩, hreaches⟩ := h
  induction hreaches with
  | refl => cases hn
  | move before move ih =>
      rw [← System.task?_outline] at hn
      rcases move.advances.ended_cases hn with hsame | rfl
      · rw [System.task?_outline] at hsame
        exact Nat.lt_of_lt_of_le (ih hsame) move.next_le
      · rw [System.task?_outline] at hn
        obtain ⟨r', hr', hlt⟩ := move.number_of_end
        rw [hr'] at hn
        cases hn
        exact hlt

theorem Session.order_of_ends {s₁ : System RunResult} {l₁ l₂ : List Occurrence} {i j kᵢ kⱼ : Nat}
    {rᵢ rⱼ : Except Failure Json} (h : Session config log s)
    (hr : s.Reaches config (l₁ ++ .ended (.branch i) :: l₂) s₁)
    (hi : s₁.task? (.branch i) = some (.ended rᵢ kᵢ))
    (hj : s₁.task? (.branch j) = some (.ended rⱼ kⱼ)) (hm : .ended (.branch j) ∈ l₁) : kⱼ < kᵢ := by
  obtain ⟨u, v, hu, hmove, hv⟩ := hr.moment
  obtain ⟨s₀, hs₀, hreaches⟩ := h
  have hsession : Session config (log ++ l₁) u := ⟨s₀, hs₀, hreaches.trans hu⟩
  obtain ⟨r, hr, -⟩ := hmove.number_of_end
  obtain rfl : kᵢ = u.machine.next := by
    have := hv.branch_ended hr
    rw [hi] at this
    cases this
    rfl
  obtain ⟨r', k', hu'⟩ := hu.ended_of_mem hm
  have := ((System.Reaches.single hmove).trans hv).branch_ended hu'
  rw [hj] at this
  cases this
  exact hsession.order_lt_next hu'

end FlowEngine
