import FlowEngine.Proofs.Run.Closing
import FlowEngine.Proofs.Session.Ends
import FlowEngine.Proofs.Session.Turns

/-!
# The branches of a run

Which branches a run has can be read off the log: those that its joins have started. A
branch that a run has started belongs to it for good, and only the tasks of a run that
was not closed say anything that concerns it.
-/
namespace FlowEngine

open Exec Execution

def Effect.run? : Effect → Option Nat
  | note run _ | request run _ _ | join run _ _ _ | settle run _ | releaseTransaction run _
  | closeRun run _ _ => some run
  | startSpan ctx _ | endSpan ctx _ _ | beginTransaction ctx => some ctx.run
  | _ => none

def startings (log : List Occurrence) : List (Nat × Nat) :=
  log.flatMap fun
    | .poll ⟨_, .join run _ _ _, none, before, after⟩ =>
      (List.range' before.branches.size (after.branches.size - before.branches.size)).map (run, ·)
    | _ => []

theorem startings_append (log more : List Occurrence) :
    startings (log ++ more) = startings log ++ startings more :=
  List.flatMap_append

theorem mem_startings {run number : Nat} {log : List Occurrence} :
    (run, number) ∈ startings log ↔ ∃ t policy group bs before after,
      .poll ⟨t, .join run policy group bs, none, before, after⟩ ∈ log ∧
        before.branches.size ≤ number ∧ number < after.branches.size := by
  constructor
  · intro h
    obtain ⟨x, hx, h⟩ := List.mem_flatMap.mp h
    split at h
    · obtain ⟨n, hn, h⟩ := List.mem_map.mp h
      cases h
      rw [List.mem_range'_1] at hn
      exact ⟨_, _, _, _, _, _, hx, hn.1, by omega⟩
    · cases h
  · rintro ⟨t, policy, group, bs, before, after, hx, hge, hlt⟩
    refine List.mem_flatMap.mpr ⟨_, hx, List.mem_map.mpr ⟨number, ?_, rfl⟩⟩
    rw [List.mem_range'_1]
    omega

namespace Residence

variable {o o' : Outline} {place place' : TaskId → Residence} {config : Config}
  {log more : List Occurrence} {s s' : System RunResult} {run n : Nat} {base : Token}

/-- A task that belongs to a run stays in it until it closes the run. -/
theorem home_of_advances {t : TaskId} {home : Home} (adv : o.Advances config more o')
    (hob : o.Obedient discipline place) (moved : o.Moved discipline more o' place place')
    (hsome : (o.task? t).isSome) (hhome : (place t).home? = some home) (hr : ¬ Restarted t more)
    (hcloses : ∀ run ending outputs result m m',
      .poll ⟨t, .closeRun run ending outputs, some result, m, m'⟩ ∉ more) :
    (place' t).home? = some home := by
  obtain ⟨state, hstate⟩ := Option.isSome_iff_exists.mp hsome
  cases state with
  | ended r k =>
      obtain ⟨x, hpath, hx⟩ := moved.led hsome
      rw [(adv.ended hstate).1, Protocol.Path.nil_iff] at hpath
      rw [hx hr, hpath, hhome]
  | active p w =>
      rcases moved.stays_or_moves adv hstate with hstay | ⟨e, a, before, after, rfl, hmove⟩
      · rw [hstay, hhome]
      · obtain ⟨next, w', active⟩ := adv.active_of_poll
        have hallows : protocol.allows (place t) e := (hob.active active).1
        rw [home?_of_moves hmove, hhome]
        · rintro flow parent rfl
          cases hplace : place t with
          | inside home =>
              rw [hplace] at hallows
              exact hallows
          | drained home =>
              rw [hplace] at hallows
              exact hallows
          | _ =>
              rw [hplace] at hhome
              cases hhome
        · rintro run ending outputs rfl
          exact hcloses _ _ _ _ _ _ (List.mem_singleton_self _)

theorem BranchOf.advances (h : BranchOf o place n run base) (adv : o.Advances config more o')
    (hob : o.Obedient discipline place) (hh : Holds o place)
    (moved : o.Moved discipline more o' place place') : BranchOf o' place' n run base := by
  obtain ⟨hlt, hhome⟩ := h
  have hsome : (o.task? (.branch n)).isSome := by
    simp only [Outline.task?, List.getElem?_eq_getElem hlt, Option.isSome_some]
  obtain ⟨state, hstate⟩ := Option.isSome_iff_exists.mp (adv.isSome_task? hsome)
  refine ⟨(List.getElem?_eq_some_iff.mp hstate).1, ?_⟩
  refine home_of_advances adv hob moved hsome hhome (System.not_restarted_branch n more) ?_
  intro run' ending outputs result m m' hm
  obtain rfl := adv.eq_singleton_of_mem hm
  obtain ⟨next, w, active⟩ := adv.active_of_poll
  have hallows : protocol.allows (place (.branch n)) (.closeRun run' ending outputs) :=
    (hob.active active).1
  cases hplace : place (.branch n) with
  | drained home =>
      have howner := (hh.drained hplace).1
      rw [hplace] at hhome
      cases hhome
      cases howner
  | _ =>
      rw [hplace] at hallows
      exact hallows

theorem Permits.run_eq {home : Home} {e : Effect} (h : Permits home e) (he : e.run? = some run) :
    home.run = run := by
  cases e with
  | settle _ token =>
      cases he
      cases token with
      | none => exact h.1.symm
      | some token => exact h.1.symm
  | join | startSpan | request | beginTransaction =>
      cases he
      exact h.1.symm
  | note | endSpan | releaseTransaction =>
      cases he
      exact Eq.symm h
  | closeRun => exact h.elim
  | _ => cases he

theorem PermitsDrained.run_eq {home : Home} {e : Effect} (h : PermitsDrained home e)
    (he : e.run? = some run) : home.run = run := by
  cases e with
  | settle _ token =>
      cases he
      cases token with
      | none => exact h.1.symm
      | some token => exact h.elim
  | closeRun =>
      cases he
      exact h.1.symm
  | isCancelled | stopDeadline => cases he
  | _ => exact h.elim

/-- Whoever does something that concerns a run belongs to it. -/
theorem home_of_allows {u : Residence} {e : Effect} (h : protocol.allows u e)
    (he : e.run? = some run) : ∃ home, u.home? = some home ∧ home.run = run := by
  cases u with
  | inside home => exact ⟨home, rfl, Permits.run_eq h he⟩
  | drained home => exact ⟨home, rfl, PermitsDrained.run_eq h he⟩
  | outside =>
      cases e with
      | openRun | acquireSlot | awaitRun => cases he
      | _ => exact h.elim
  | closed =>
      cases e with
      | releaseSlot => cases he
      | _ => exact h.elim

structure Housed (config : Config) (log : List Occurrence) (s : System RunResult)
    (place : TaskId → Residence) : Prop where
  session : Session config log s
  obedient : s.outline.Obedient discipline place
  holds : Holds s.outline place
  closed : Closed log s.outline place
  started {run n : Nat} : (run, n) ∈ startings log → ∃ base, BranchOf s.outline place n run base

theorem branchOf_of_started (adv : o.Advances config more o') (hh' : Holds o' place')
    (h : (run, n) ∈ startings more) : ∃ base, BranchOf o' place' n run base := by
  obtain ⟨t, policy, group, bs, m, m', hm, hge, hlt⟩ := mem_startings.mp h
  obtain rfl := adv.eq_singleton_of_mem hm
  obtain ⟨hnone, hsome⟩ : o.task? (.branch n) = none ∧ (o'.task? (.branch n)).isSome := by
    cases adv with
    | wait running active start polls =>
        have hsize : m.branches.size = o.branches.length := by
          rw [← start]
          simp [Machine.outline]
        refine ⟨List.getElem?_eq_none_iff.mpr (hsize ▸ hge), ?_⟩
        refine (Outline.isSome_setTask _ _ _).trans ?_
        simpa [Outline.task?, Machine.outline] using hlt
  obtain ⟨u, run', policy', group', bs', next, w, tasks, before, after, heq, -, hu, hn⟩ :=
    join_of_new adv hnone hsome
  cases heq
  exact ⟨_, (hh'.joined hu hn).1⟩

/-- What every move keeps is kept along with what holds of every session. -/
theorem Housed.along {K : List Occurrence → Outline → (TaskId → Residence) → Prop}
    (step : ∀ {log more : List Occurrence} {o o' : Outline} {place place' : TaskId → Residence},
      o.Advances config more o' → o.Obedient discipline place → Holds o place →
      o'.Obedient discipline place' → Holds o' place' → o.Moved discipline more o' place place' →
      K log o place → K (log ++ more) o' place')
    (h : Housed config log s place) (hr : s.Reaches config more s') (hk : K [] s.outline place) :
    ∃ place', Housed config (log ++ more) s' place' ∧ K more s'.outline place' ∧
      ∀ t, (s.task? t).isSome →
        (s'.task? t).isSome ∧ Led protocol t (place t) more (place' t) := by
  have houses {l more : List Occurrence} {o o' : Outline} {place place' : TaskId → Residence}
      (adv : o.Advances config more o') (hob : o.Obedient discipline place) (hh : Holds o place)
      (hob' : o'.Obedient discipline place') (hh' : Holds o' place')
      (moved : o.Moved discipline more o' place place')
      (hk : Closed (log ++ l) o place ∧ (∀ run n, (run, n) ∈ startings (log ++ l) →
        ∃ base, BranchOf o place n run base) ∧ K l o place) :
      Closed (log ++ (l ++ more)) o' place' ∧ (∀ run n, (run, n) ∈ startings (log ++ (l ++ more)) →
        ∃ base, BranchOf o' place' n run base) ∧ K (l ++ more) o' place' := by
    rw [← List.append_assoc]
    refine ⟨hk.1.step adv hh (fun ht => (hob.active ht).1) hh' moved, fun run n hn => ?_,
      step adv hob hh hob' hh' moved hk.2.2⟩
    rw [startings_append, List.mem_append] at hn
    rcases hn with hn | hn
    · obtain ⟨base, hb⟩ := hk.2.1 run n hn
      exact ⟨base, hb.advances adv hob hh moved⟩
    · exact branchOf_of_started adv hh' hn
  obtain ⟨place', hob, hh, ⟨hclosed, hstarted, hk'⟩, hled⟩ :=
    (sound config).along (K := fun l o place => Closed (log ++ l) o place ∧
      (∀ run n, (run, n) ∈ startings (log ++ l) → ∃ base, BranchOf o place n run base) ∧ K l o place)
      houses hr h.obedient h.holds
      (by rw [List.append_nil]; exact ⟨h.closed, fun _ _ => h.started, hk⟩)
  obtain ⟨s₀, hs₀, hbefore⟩ := h.session
  exact ⟨place', ⟨⟨s₀, hs₀, hbefore.trans hr⟩, hob, hh, hclosed, hstarted _ _⟩, hk', hled⟩

/-- What holds before anything happens and is kept by every move holds in every session. -/
theorem housed_along {K : List Occurrence → Outline → (TaskId → Residence) → Prop}
    (step : ∀ {log more : List Occurrence} {o o' : Outline} {place place' : TaskId → Residence},
      o.Advances config more o' → o.Obedient discipline place → Holds o place →
      o'.Obedient discipline place' → Holds o' place' → o.Moved discipline more o' place place' →
      K log o place → K (log ++ more) o' place')
    (initial : ∀ s₀, System.Initial config s₀ → K [] s₀.outline fun _ => .outside)
    (h : Session config log s) : ∃ place, Housed config log s place ∧ K log s.outline place := by
  obtain ⟨s₀, hs₀, hr⟩ := h
  have hhoused : Housed config [] s₀ fun _ => .outside :=
    ⟨⟨s₀, hs₀, .refl⟩, (sound config).obedient_initial hs₀, holds_initial hs₀, by rintro run ⟨⟩,
      by rintro run n ⟨⟩⟩
  obtain ⟨place, hplace, hk, -⟩ := hhoused.along step hr (initial s₀ hs₀)
  exact ⟨place, hplace, hk⟩

theorem housed_of_session (h : Session config log s) : ∃ place, Housed config log s place := by
  obtain ⟨place, hplace, -⟩ := housed_along (K := fun _ _ _ => True) (fun _ _ _ _ _ _ _ => trivial)
    (fun _ _ => trivial) h
  exact ⟨place, hplace⟩

theorem Housed.mem_of_ended (h : Housed config log s place) (hn : s.outline.Ended n) :
    .ended (.branch n) ∈ log := by
  obtain ⟨s₀, ⟨world, numbered⟩, hr⟩ := h.session
  obtain ⟨⟨r, k⟩, hresult⟩ := Option.isSome_iff_exists.mp hn
  have hended := Outline.branchResult?_eq_some.mp hresult
  rw [System.task?_outline] at hended
  exact hr.mem_of_ended (by rintro r k ⟨⟩) hended

theorem Housed.run_ne_of_closed (h : Housed config log s place) (hclosed : run ∈ closings log)
    {x : Poll} (move : s.Moves config [.poll x] s') : x.effect.run? ≠ some run := by
  intro hrun
  obtain ⟨next, w, active⟩ := move.advances.active_of_poll
  obtain ⟨home, hhome, hsame⟩ := home_of_allows (h.obedient.active active).1 hrun
  exact (h.closed run hclosed).2 ⟨_, _, _, home, active, hhome, hsame⟩

theorem Housed.ended_of_closes (h : Housed config log s place) {t : TaskId} {ending : Ending}
    {outputs : List (String × Json)} {result : RunResult} {m m' : Machine}
    (move : s.Moves config [.poll ⟨t, .closeRun run ending outputs, some result, m, m'⟩] s')
    (hn : (run, n) ∈ startings log) : s.outline.Ended n := by
  obtain ⟨next, w, active⟩ := move.advances.active_of_poll
  obtain ⟨base, hb⟩ := h.started hn
  have hallows : protocol.allows (place t) (.closeRun run ending outputs) :=
    (h.obedient.active active).1
  cases hplace : place t with
  | drained home =>
      rw [hplace] at hallows
      obtain ⟨rfl, -⟩ := hallows
      exact (h.holds.drained hplace).2 n base hb
  | _ =>
      rw [hplace] at hallows
      exact hallows.elim

/-- While the branches of a run have all ended, only the owner of the run can start another. -/
theorem all_ended_of_advances {t : TaskId} {home : Home} (adv : o.Advances config more o')
    (hob : o.Obedient discipline place) (hh : Holds o place) (hh' : Holds o' place')
    (moved : o.Moved discipline more o' place place') (ht : (place t).home? = some home)
    (howner : home.owner = true) (hquiet : ∀ run policy group bs answer m m',
      .poll ⟨t, .join run policy group bs, answer, m, m'⟩ ∉ more)
    (hall : ∀ n base, BranchOf o place n home.run base → o.Ended n) :
    ∀ n base, BranchOf o' place' n home.run base → o'.Ended n := by
  intro n base hb
  cases hs : o.task? (.branch n) with
  | some state =>
      obtain ⟨run', base', hold⟩ := hh.housed (List.getElem?_eq_some_iff.mp hs).1
      obtain ⟨rfl, rfl⟩ := branchOf_unique (hold.advances adv hob hh moved) hb
      obtain ⟨⟨r, k⟩, hresult⟩ := Option.isSome_iff_exists.mp (hall n base' hold)
      obtain ⟨-, hended | hr⟩ := adv.ended (Outline.branchResult?_eq_some.mp hresult)
      · exact Option.isSome_of_eq_some (Outline.branchResult?_eq_some.mpr hended)
      · exact absurd hr (System.not_restarted_branch n more)
  | none =>
      have hsome : (o'.task? (.branch n)).isSome := by
        simp only [Outline.task?, List.getElem?_eq_getElem hb.1, Option.isSome_some]
      obtain ⟨u, run', policy, group, bs, next, w, tasks, m, m', rfl, hu, hu', hn⟩ :=
        join_of_new adv hs hsome
      obtain ⟨hbranch, -, home', huhome, hrun, -⟩ := hh'.joined hu' hn
      obtain ⟨rfl, -⟩ := branchOf_unique hbranch hb
      have hsame : place' u = place u := by
        rcases moved.stays_or_moves adv hu with h | ⟨e, a, b, c, h, -⟩
        · exact h
        · cases h
      rw [hsame] at huhome
      cases u with
      | branch l =>
          obtain ⟨run', base', hl⟩ := hh.housed (List.getElem?_eq_some_iff.mp hu).1
          cases hl.2.symm.trans huhome
          exact absurd (hall l base' (hrun ▸ hl)) (not_ended_of_active hu)
      | _ =>
          obtain rfl := hh.owner huhome ht (hh.rooted (by simp) huhome) howner hrun
          exact absurd (List.mem_singleton_self _) (hquiet _ _ _ _ _ _ _)

/-- When the owner of a run has waited for all branches of the run, they have ended. -/
theorem Housed.settled (h : Housed config log s place) {t : TaskId} {a : Except Failure Nat}
    {m m' : Machine} (move : s.Moves config [.poll ⟨t, .settle run none, some a, m, m'⟩] s') :
    ∃ place' home, Housed config (log ++ [.poll ⟨t, .settle run none, some a, m, m'⟩]) s' place' ∧
      (s'.task? t).isSome ∧ (place' t).home? = some home ∧ home.owner = true ∧ home.run = run ∧
      ∀ n base, BranchOf s'.outline place' n run base → s'.outline.Ended n := by
  obtain ⟨place', hhoused, -, hled⟩ := h.along (K := fun _ _ _ => True)
    (fun _ _ _ _ _ _ _ => trivial) (.single move) trivial
  obtain ⟨next, w, active⟩ := move.advances.active_of_poll
  have hallows : protocol.allows (place t) (.settle run none) := (h.obedient.active active).1
  rw [System.task?_outline] at active
  obtain ⟨hsome, x, hpath, hx⟩ := hled t (Option.isSome_of_eq_some active)
  simp only [deedsOf, if_true] at hpath
  obtain ⟨y, hmove, hpath⟩ := Protocol.Path.cons_iff.mp hpath
  rw [Protocol.Path.nil_iff] at hpath
  replace hx := (hx fun hr => absurd hr.2 (by simp)).trans hpath
  have hplace : ∃ home, y = drained home ∧ home.run = run := by
    cases hu : place t with
    | inside home =>
        rw [hu] at hallows hmove
        exact ⟨home, hmove, hallows.1.symm⟩
    | drained home =>
        rw [hu] at hallows hmove
        exact ⟨home, hmove, hallows.1.symm⟩
    | _ =>
        rw [hu] at hallows
        exact hallows.elim
  obtain ⟨home, rfl, rfl⟩ := hplace
  obtain ⟨howner, hended⟩ := hhoused.holds.drained hx
  exact ⟨place', home, hhoused, hsome, by rw [hx]; rfl, howner, rfl, hended⟩

structure Lingers (t : TaskId) (log : List Occurrence) : Prop where
  joins {run : Nat} {policy : JoinPolicy} {group : Token} {bs : List Branch}
    {answer : Option (Except Failure (List BranchOutcome))} {m m' : Machine} :
    .poll ⟨t, .join run policy group bs, answer, m, m'⟩ ∉ log
  closes {run : Nat} {ending : Ending} {outputs : List (String × Json)} {result : RunResult}
    {m m' : Machine} : .poll ⟨t, .closeRun run ending outputs, some result, m, m'⟩ ∉ log
  restarts : ¬ Restarted t log

/-- The branches of a run stay ended while its owner starts no others. -/
theorem Housed.stay_ended (h : Housed config log s place) {t : TaskId} {home : Home}
    (hsome : (s.task? t).isSome) (hhome : (place t).home? = some home) (howner : home.owner = true)
    (hended : ∀ n base, BranchOf s.outline place n home.run base → s.outline.Ended n)
    (hr : s.Reaches config more s') (hlingers : Lingers t more) :
    ∃ place', Housed config (log ++ more) s' place' ∧
      ∀ n base, BranchOf s'.outline place' n home.run base → s'.outline.Ended n := by
  rw [← System.task?_outline] at hsome
  have step {l more : List Occurrence} {o o' : Outline} {place place' : TaskId → Residence}
      (adv : o.Advances config more o') (hob : o.Obedient discipline place) (hh : Holds o place)
      (_ : o'.Obedient discipline place') (hh' : Holds o' place')
      (moved : o.Moved discipline more o' place place')
      (hk : Lingers t l → (o.task? t).isSome ∧ (place t).home? = some home ∧
        ∀ n base, BranchOf o place n home.run base → o.Ended n) (hlingers : Lingers t (l ++ more)) :
      (o'.task? t).isSome ∧ (place' t).home? = some home ∧
        ∀ n base, BranchOf o' place' n home.run base → o'.Ended n := by
    obtain ⟨hsome, hhome, hended⟩ := hk ⟨fun hm => hlingers.joins (List.mem_append_left _ hm),
      fun hm => hlingers.closes (List.mem_append_left _ hm),
      fun hr => hlingers.restarts (restarted_append.mpr (Or.inl hr))⟩
    refine ⟨adv.isSome_task? hsome, ?_, ?_⟩
    · refine home_of_advances adv hob moved hsome hhome
        (fun hr => hlingers.restarts (restarted_append.mpr (Or.inr hr))) ?_
      exact fun _ _ _ _ _ _ hm => hlingers.closes (List.mem_append_right _ hm)
    · refine all_ended_of_advances adv hob hh hh' moved hhome howner ?_ hended
      exact fun _ _ _ _ _ _ _ hm => hlingers.joins (List.mem_append_right _ hm)
  obtain ⟨place', hhoused, hk, -⟩ := h.along (K := fun l o place => Lingers t l →
    (o.task? t).isSome ∧ (place t).home? = some home ∧
      ∀ n base, BranchOf o place n home.run base → o.Ended n) step hr
    fun _ => ⟨hsome, hhome, hended⟩
  exact ⟨place', hhoused, (hk hlingers).2.2⟩

end Residence
end FlowEngine
