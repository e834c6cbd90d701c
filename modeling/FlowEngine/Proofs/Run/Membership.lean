import FlowEngine.Proofs.Run.Journals

/-!
# Who works for a run

A task works for a run when it has opened it or when a join of the run has started it. As long
as a run is not closed, the task that opened it goes on.
-/
namespace FlowEngine

def Opened (log : List Occurrence) (run : Nat) (t : TaskId) : Prop :=
  ∃ earlier flow parent token m m' later,
    log = earlier ++ .poll ⟨t, .openRun flow parent, some (run, token), m, m'⟩ :: later ∧
      ¬ Restarted t later

theorem Opened.append {log more : List Occurrence} {run : Nat} {t : TaskId} (h : Opened log run t)
    (hr : ¬ Restarted t more) : Opened (log ++ more) run t := by
  obtain ⟨earlier, flow, parent, token, m, m', later, rfl, hlater⟩ := h
  refine ⟨earlier, flow, parent, token, m, m', later ++ more, by simp, fun hboth => ?_⟩
  exact (restarted_append.mp hboth).elim hlater hr

/-- A task works for a run. -/
def Serves (log : List Occurrence) (run : Nat) (t : TaskId) : Prop :=
  Opened log run t ∨ ∃ n, t = .branch n ∧ (run, n) ∈ startings log

namespace Residence

variable {o o' : Outline} {place place' : TaskId → Residence} {config : Config}
  {log more : List Occurrence} {s : System RunResult} {run n : Nat} {base : Token} {t : TaskId}

/-- The owner of every run that was not closed goes on, and those who work for runs are known from
the log. -/
structure Manned (log : List Occurrence) (o : Outline) (place : TaskId → Residence) : Prop where
  owned {run : Nat} : run < o.runs.length → run ∈ closings log ∨ ∃ t p w home,
    o.task? t = some (.active p w) ∧ (place t).home? = some home ∧ home.owner = true ∧ home.run = run
  opened {t : TaskId} {home : Home} : (o.task? t).isSome → (place t).home? = some home →
    home.owner = true → Opened log home.run t
  started {n run : Nat} {base : Token} : BranchOf o place n run base → (run, n) ∈ startings log

theorem started_of_new (adv : o.Advances config more o') (hnone : o.task? (.branch n) = none)
    (hsome : (o'.task? (.branch n)).isSome) : ∃ run, (run, n) ∈ startings more := by
  obtain ⟨t, run, policy, group, bs, next, w, tasks, before, after, rfl, -⟩ :=
    join_of_new adv hnone hsome
  refine ⟨run, mem_startings.mpr ⟨t, policy, group, bs, before, after, List.mem_singleton_self _, ?_⟩⟩
  cases adv with
  | wait running active start polls =>
      have hsize : before.branches.size = o.branches.length := by
        rw [← start]
        simp [Machine.outline]
      refine ⟨hsize ▸ List.getElem?_eq_none_iff.mp hnone, ?_⟩
      have hafter : ((after.outline o.main).task? (.branch n)).isSome :=
        (Outline.isSome_setTask _ _ _).symm.trans hsome
      simpa [Outline.task?, Machine.outline] using hafter

theorem outside_of_opens {u : Residence} {flow : String} {parent : Token}
    (h : protocol.allows u (.openRun flow parent)) : u = outside := by
  cases u with
  | outside => rfl
  | _ => exact h.elim

theorem drained_of_closes {u : Residence} {ending : Ending} {outputs : List (String × Json)}
    (h : protocol.allows u (.closeRun run ending outputs)) : ∃ home, u = drained home ∧ run = home.run := by
  cases u with
  | drained home => exact ⟨home, rfl, h.1⟩
  | _ => exact h.elim

/-- The owner of a run does not end before it has closed it. -/
theorem active_of_owner {home : Home} (hob : o.Obedient discipline place) (hsome : (o.task? t).isSome)
    (hhome : (place t).home? = some home) (howner : home.owner = true) :
    ∃ p w, o.task? t = some (.active p w) := by
  obtain ⟨state, hstate⟩ := Option.isSome_iff_exists.mp hsome
  cases state with
  | active p w => exact ⟨p, w, hstate⟩
  | ended a order =>
      have hfinal := hob.ended hstate home hhome
      rw [howner] at hfinal
      cases hfinal

theorem owner_of_advances {p : Program t.Result} {w : Wait} {home : Home}
    (adv : o.Advances config more o') (hob : o.Obedient discipline place)
    (hob' : o'.Obedient discipline place') (moved : o.Moved discipline more o' place place')
    (ht : o.task? t = some (.active p w)) (hhome : (place t).home? = some home)
    (howner : home.owner = true) : home.run ∈ closings more ∨
      ∃ p w, o'.task? t = some (.active p w) ∧ (place' t).home? = some home := by
  have hsome := Option.isSome_of_eq_some ht
  by_cases hcloses : ∃ run ending outputs result m m',
      .poll ⟨t, .closeRun run ending outputs, some result, m, m'⟩ ∈ more
  · obtain ⟨run, ending, outputs, result, m, m', hm⟩ := hcloses
    refine Or.inl (mem_closings.mpr ⟨t, ending, outputs, result, m, m', ?_⟩)
    obtain rfl := adv.eq_singleton_of_mem hm
    obtain ⟨next, w', active⟩ := adv.active_of_poll
    obtain ⟨home', hplace, rfl⟩ := drained_of_closes (hob.active active).1
    rw [hplace] at hhome
    cases hhome
    exact hm
  · have hstays := home_of_advances adv hob moved hsome hhome (adv.not_restarted ht)
      fun run ending outputs result m m' hm => hcloses ⟨run, ending, outputs, result, m, m', hm⟩
    obtain ⟨p', w', ht'⟩ := active_of_owner hob' (adv.isSome_task? hsome) hstays howner
    exact Or.inr ⟨p', w', ht', hstays⟩

theorem owned_of_opened (adv : o.Advances config more o') (hob : o.Obedient discipline place)
    (hob' : o'.Obedient discipline place') (moved : o.Moved discipline more o' place place')
    (hold : o.runs.length ≤ run) (hrun : run < o'.runs.length) : ∃ t p w home,
      o'.task? t = some (.active p w) ∧ (place' t).home? = some home ∧ home.owner = true ∧
        home.run = run := by
  rcases runs_of_advances adv with hsame |
    ⟨hgrown, t, flow, parent, token, m, m', next, w, rfl, active⟩
  · omega
  · obtain rfl : run = o.runs.length := by omega
    have hsome := Option.isSome_of_eq_some active
    have hmoves := moved.moves hsome
    rw [outside_of_opens (hob.active active).1] at hmoves
    have hhome : (place' t).home? = some ⟨o.runs.length, token, true⟩ := by
      rw [show place' t = inside ⟨o.runs.length, token, true⟩ from hmoves]
      rfl
    obtain ⟨p, w', ht⟩ := active_of_owner hob' (adv.isSome_task? hsome) hhome rfl
    exact ⟨t, p, w', _, ht, hhome, rfl, rfl⟩

theorem Manned.step (hk : Manned log o place) (adv : o.Advances config more o')
    (hob : o.Obedient discipline place) (hh : Holds o place) (hob' : o'.Obedient discipline place')
    (hh' : Holds o' place') (moved : o.Moved discipline more o' place place') :
    Manned (log ++ more) o' place' where
  owned {run} hrun := by
    rw [closings_append, List.mem_append]
    by_cases hlt : run < o.runs.length
    · rcases hk.owned hlt with hclosed | ⟨t, p, w, home, ht, hhome, howner, rfl⟩
      · exact Or.inl (Or.inl hclosed)
      · rcases owner_of_advances adv hob hob' moved ht hhome howner with hcloses | ⟨p', w', ht', hhome'⟩
        · exact Or.inl (Or.inr hcloses)
        · exact Or.inr ⟨t, p', w', home, ht', hhome', howner, rfl⟩
    · exact Or.inr (owned_of_opened adv hob hob' moved (Nat.le_of_not_lt hlt) hrun)
  opened {t home} hsome' hhome howner := by
    have hnot : ¬ Restarted t more := by
      intro hr
      rw [moved.restarted hr] at hhome
      cases hhome
    cases hs : o.task? t with
    | none => exact absurd howner (not_owner_of_entered moved hs hsome' hhome)
    | some state =>
        have hkeeps (hold : (place t).home? = some home) : Opened (log ++ more) home.run t :=
          (hk.opened (Option.isSome_of_eq_some hs) hold howner).append hnot
        cases state with
        | ended a order =>
            rcases moved.of_ended adv hs with hstill | hroot
            · exact hkeeps (hstill ▸ hhome)
            · rw [hroot] at hhome
              cases hhome
        | active p w =>
            rcases home_or_opens adv moved hs hhome with hold | ⟨flow, parent, m, m', rfl⟩
            · exact hkeeps hold
            · exact ⟨log, flow, parent, home.base, m, m', [], rfl, restarted_nil t⟩
  started {n run base} hb := by
    by_cases hn : n < o.branches.length
    · obtain ⟨run', base', hold⟩ := hh.housed hn
      obtain ⟨rfl, -⟩ := branchOf_unique (hold.advances adv hob hh moved) hb
      rw [startings_append]
      exact List.mem_append_left _ (hk.started hold)
    · obtain ⟨run', hstarted⟩ := started_of_new adv (List.getElem?_eq_none (Nat.le_of_not_lt hn))
        (by simp [Outline.task?, hb.1])
      obtain ⟨base', hnew⟩ := branchOf_of_started adv hh' hstarted
      obtain ⟨rfl, -⟩ := branchOf_unique hnew hb
      rw [startings_append]
      exact List.mem_append_right _ hstarted

theorem manned_initial {s₀ : System RunResult} (h : System.Initial config s₀) :
    Manned [] s₀.outline fun _ => .outside := by
  obtain ⟨world, numbered⟩ := h
  exact ⟨fun hrun => absurd hrun (Nat.not_lt_zero _), nofun, fun hb => nomatch hb.2⟩

theorem manned_of_session (h : Session config log s) :
    ∃ place, Housed config log s place ∧ Manned log s.outline place :=
  housed_along (fun adv hob hh hob' hh' moved hk => hk.step adv hob hh hob' hh' moved)
    (fun _ => manned_initial) h

theorem Manned.serves (hk : Manned log o place) (hh : Holds o place) {home : Home}
    (hsome : (o.task? t).isSome) (hhome : (place t).home? = some home) : Serves log home.run t := by
  by_cases howner : home.owner = true
  · exact Or.inl (hk.opened hsome hhome howner)
  · cases t with
    | branch n =>
        obtain ⟨state, hstate⟩ := Option.isSome_iff_exists.mp hsome
        obtain ⟨run, base, hb⟩ := hh.housed (List.getElem?_eq_some_iff.mp hstate).1
        cases hb.2.symm.trans hhome
        exact Or.inr ⟨n, rfl, hk.started hb⟩
    | _ => exact absurd (hh.rooted (by simp) hhome) howner

end Residence

variable {config : Config} {log : List Occurrence} {s s' : System RunResult}

theorem System.Reaches.opens (h : s.Reaches config log s') :
    s.outline.runs.length ≤ s'.outline.runs.length ∧ ∀ t flow parent run token m m',
      .poll ⟨t, .openRun flow parent, some (run, token), m, m'⟩ ∈ log →
        s.outline.runs.length ≤ run ∧ run < s'.outline.runs.length := by
  induction h with
  | refl => exact ⟨Nat.le_refl _, fun _ _ _ _ _ _ _ hm => absurd hm List.not_mem_nil⟩
  | @move log more v w before move ih =>
      obtain ⟨hle, hbefore⟩ := ih
      have hgrows : v.outline.runs.length ≤ w.outline.runs.length := by
        rcases Residence.runs_of_advances move.advances with h | ⟨h, -⟩ <;> omega
      refine ⟨Nat.le_trans hle hgrows, fun t flow parent run token m m' hm => ?_⟩
      rcases List.mem_append.mp hm with hm | hm
      · obtain ⟨hge, hlt⟩ := hbefore t flow parent run token m m' hm
        exact ⟨hge, Nat.lt_of_lt_of_le hlt hgrows⟩
      · obtain rfl := move.advances.eq_singleton_of_mem hm
        obtain ⟨hrun, hjournal⟩ := move.advances.journal?_of_opens
        obtain ⟨r, hr, -⟩ := Option.map_eq_some_iff.mp hjournal
        exact ⟨hrun ▸ hle, (List.getElem?_eq_some_iff.mp hr).1⟩

/-- What happens in a session concerns only runs that were opened. -/
theorem Session.lt_of_concerns {x : Poll} {run : Nat} (h : Session config log s)
    (hx : .poll x ∈ log) (hrun : x.effect.run? = some run) : run < s.outline.runs.length := by
  obtain ⟨s₀, hs₀, hr⟩ := h
  obtain ⟨before, after, rfl⟩ := List.append_of_mem hx
  obtain ⟨v, w, hv, move, hw⟩ := hr.moment
  obtain ⟨place, hhoused⟩ := Residence.housed_of_session ⟨s₀, hs₀, hv⟩
  obtain ⟨next, wait, active⟩ := move.advances.active_of_poll
  obtain ⟨home, hhome, rfl⟩ := Residence.home_of_allows (hhoused.obedient.active active).1 hrun
  exact Nat.lt_of_lt_of_le (hhoused.holds.opened hhome) ((System.Reaches.single move).trans hw).opens.1

theorem Session.serves_of_poll {x : Poll} {run : Nat} (h : Session config log s)
    (move : s.Moves config [.poll x] s') (hrun : x.effect.run? = some run) :
    Serves log run x.task := by
  obtain ⟨place, hhoused, hmanned⟩ := Residence.manned_of_session h
  obtain ⟨next, w, active⟩ := move.advances.active_of_poll
  obtain ⟨home, hhome, rfl⟩ := Residence.home_of_allows (hhoused.obedient.active active).1 hrun
  exact hmanned.serves hhoused.holds (Option.isSome_of_eq_some active) hhome

end FlowEngine
