import FlowEngine.Proofs.Run.Admission
import FlowEngine.Proofs.Run.Membership
import FlowEngine.Proofs.Run.Wakefulness

/-!
# A run is never stuck

A task that is neither awake nor waits for a timer waits for a permit that others hold, or for
a branch that has not ended. Who holds a permit is awake or waits for a timer, and branches do not
wait in a circle. So while a run is not closed, somebody who works for it goes on.
-/
namespace FlowEngine

namespace Machine

theorem isSome_advanceClock? {m : Machine} {x : Timer} (h : x ∈ m.timers) : m.advanceClock?.isSome := by
  cases hdue : m.nextDue? with
  | none =>
      rw [nextDue?, List.min?_eq_none_iff, List.map_eq_nil_iff] at hdue
      rw [hdue] at h
      cases h
  | some due =>
      unfold advanceClock?
      rw [hdue]
      rfl

end Machine

namespace System

variable {config : Config} {log : List Occurrence} {s : System RunResult} {t : TaskId}

/-- A task can go on, or a timer is pending that lets it go on. -/
def Stirs (s : System RunResult) (t : TaskId) : Prop :=
  s.machine.Awake t ∨ ∃ x ∈ s.machine.timers, x.alarm = .wake t

theorem isSome_step? (h : (∃ t, s.machine.Awake t) ∨ ∃ x, x ∈ s.machine.timers) :
    s.step?.isSome := by
  unfold step?
  cases hrunning : s.machine.running with
  | some u => cases u <;> rfl
  | none =>
      dsimp only
      rw [Option.isSome_map, Machine.dispatch?]
      split
      · rfl
      · rename_i hready
        split
        · rfl
        · rename_i hmain
          rcases h with ⟨t, hrun | hmem | ⟨-, hawake⟩⟩ | ⟨x, hx⟩
          · rw [hrunning] at hrun
            cases hrun
          · rw [hready] at hmem
            cases hmem
          · exact absurd hawake hmain
          · exact Machine.isSome_advanceClock? hx

theorem Stirs.isSome_step? (h : s.Stirs t) : s.step?.isSome :=
  System.isSome_step? (h.imp (fun hawake => ⟨t, hawake⟩) fun ⟨x, hx, _⟩ => ⟨x, hx⟩)

theorem stirs_of_timer {e : Effect} {next : e.Answer → Program t.Result} {w : Wait} {n : Nat}
    {deadlines : Nat → Prop} (htimes : s.machine.Times s.timers deadlines)
    (ht : s.task? t = some (.active (.perform e next) w)) (hn : e.timer? w = some n) : s.Stirs t := by
  have htimer : s.timers t = some n := (reading_of_active ht).trans hn
  rcases htimes.timed htimer with ⟨x, hx, hnumber⟩ | hawake
  · exact Or.inr ⟨x, hx, (htimes.own htimer).2 x hx hnumber⟩
  · exact Or.inl hawake

/-- While somebody is in line for a permit of a run, somebody with a request of the run stirs. -/
theorem stirs_of_queued (h : Session config log s) (hvalid : config.validate = .ok ()) {run : Nat}
    (hqueued : s.standings run t = some .queued) : ∃ u token request next w,
      s.task? u = some (.active (.perform (.request run token request) next) w) ∧ s.Stirs u := by
  have hadmits := h.admits
  obtain ⟨g, hg⟩ := Option.isSome_iff_exists.mp (hadmits.opened hqueued)
  obtain ⟨r, hr, rfl⟩ := Option.map_eq_some_iff.mp hg
  have hbooks := hadmits.books hg
  have hpermits : s.machine.maxConcurrency ≠ 0 := by
    rw [h.maxConcurrency]
    intro hzero
    have hnone : config.maxConcurrency = 0 := UInt64.toNat_inj.mp hzero
    rw [Config.validate, if_pos hnone] at hvalid
    cases hvalid
  by_cases hgranted : ∃ u, u ∈ r.gate.granted
  · obtain ⟨u, hu⟩ := hgranted
    obtain ⟨state, hstate, hstanding⟩ :=
      Option.bind_eq_some_iff.mp (hbooks.queued.mp (List.mem_append_right _ hu))
    obtain ⟨token, request, next, w, rfl, -⟩ := TaskState.request_of_standing hstanding
    exact ⟨u, token, request, next, w, hstate, Or.inl (hadmits.granted hg hu)⟩
  · have hnone : r.gate.granted = [] :=
      List.eq_nil_iff_forall_not_mem.mpr fun u hu => hgranted ⟨u, hu⟩
    have hline : t ∈ r.gate.waiting ++ r.gate.granted := hbooks.queued.mpr hqueued
    rw [hnone, List.append_nil] at hline
    have hfree := hbooks.full (List.ne_nil_of_mem hline)
    have hsum := hadmits.sum hr
    rw [hnone, hfree, List.length_nil, Nat.zero_add] at hsum
    obtain ⟨u, hu⟩ := List.exists_mem_of_length_pos (by omega : 0 < (s.inProgress run).length)
    obtain ⟨state, hstate, hstanding⟩ := Option.bind_eq_some_iff.mp ((s.mem_inProgress).mp hu)
    obtain ⟨token, request, next, w, rfl, hcalling⟩ := TaskState.request_of_standing hstanding
    refine ⟨u, token, request, next, w, hstate, ?_⟩
    cases w with
    | call timer outcome => exact stirs_of_timer h.times hstate rfl
    | operation timer => exact stirs_of_timer h.times hstate rfl
    | _ => cases hcalling

end System

namespace Residence

variable {config : Config} {log : List Occurrence} {s : System RunResult} {t : TaskId}
  {place : TaskId → Residence} {run : Nat} {o : Outline}

theorem Holds.branchOf_held (hh : Holds o place) {home : Home} {n : Nat}
    (hhome : (place t).home? = some home) (hn : n ∈ o.held t) :
    ∃ base, BranchOf o place n home.run base := by
  rcases Outline.held_cases hn with ⟨run, policy, group, bs, next, tasks, hs, hmem⟩ |
    ⟨run, token, next, tasks, count, hs, hmem⟩
  · obtain ⟨hb, -, home', hhome', hrun, -⟩ := hh.joined hs hmem
    cases hhome.symm.trans hhome'
    exact ⟨group, hrun ▸ hb⟩
  · obtain ⟨base, home', hb, -, hhome', hrun, -⟩ := hh.settling hs hmem
    cases hhome.symm.trans hhome'
    exact ⟨base, hrun ▸ hb⟩

/-- A task that does what the tasks of a run may do, and is not awake, waits below its token with a
request or for some time to pass, or it waits for a branch that has not ended. -/
theorem waits_of_permits (h : Session config log s) {e : Effect} {next : e.Answer → Program t.Result}
    {w : Wait} {home : Home} (ht : s.task? t = some (.active (.perform e next) w))
    (hpermits : Permits home e ∨ PermitsDrained home e) (hasleep : ¬ s.machine.Awake t) :
    (∃ token, e.token? w = some token ∧ home.base.covers token = true ∧
      ((∃ n, e.timer? w = some n) ∨
        ∃ request, e = .request home.run token request ∧ w = .permit)) ∨
      ∃ n ∈ s.outline.held t, ¬ s.outline.Ended n := by
  have hactive : s.outline.task? t = some (.active (.perform e next) w) :=
    (System.task?_outline t).trans ht
  rcases h.suited t _ w ht with ⟨-, hawake | ⟨next', hp⟩⟩ | ⟨e', next', hp, hsuits⟩
  · exact absurd hawake hasleep
  · cases hp
    exact (hpermits.elim id id).elim
  · cases hp
    cases e with
    | request run token request =>
        obtain ⟨rfl, hcovers⟩ := hpermits.resolve_right id
        refine Or.inl ⟨token, ?_, hcovers, ?_⟩
        all_goals
          cases request with
          | call route target inputs => rcases hsuits with rfl | ⟨timer, outcome, rfl⟩ <;> simp [Effect.token?, Effect.timer?]
          | record operation => rcases hsuits with rfl | ⟨timer, rfl⟩ <;> simp [Effect.token?, Effect.timer?]
    | sleep token span =>
        obtain ⟨timer, rfl⟩ := hsuits
        cases token with
        | none => exact (hpermits.elim id id).elim
        | some token => exact Or.inl ⟨token, rfl, hpermits.resolve_right id, Or.inl ⟨timer, rfl⟩⟩
    | join run policy group bs =>
        obtain ⟨tasks, rfl⟩ := hsuits
        have hjoining : s.outline.Joining t policy tasks := ⟨run, group, bs, next, hactive⟩
        rcases h.attended.awake hjoining with hawake | ⟨hunended, -⟩
        · exact absurd hawake hasleep
        · rw [hjoining.held]
          exact Or.inr hunended
    | settle run token =>
        obtain ⟨n, rest, count, rfl⟩ := hsuits
        rcases h.settling t run token next n rest count ht with hawake | ⟨hunended, -⟩
        · exact absurd hawake hasleep
        · refine Or.inr ⟨n, ?_, hunended⟩
          rw [Outline.held_of_task? hactive]
          exact List.mem_cons_self
    | acquireSlot => exact (hpermits.elim id id).elim
    | awaitRun submission => exact (hpermits.elim id id).elim
    | _ => exact hsuits.elim

/-- A task of a run that is not awake waits below its token with a request or for some time to pass,
or it waits for a branch that has not ended. -/
theorem Housed.waits (h : Housed config log s place) {p : Program t.Result} {w : Wait} {home : Home}
    (ht : s.task? t = some (.active p w)) (hhome : (place t).home? = some home)
    (hasleep : ¬ s.machine.Awake t) :
    (∃ e next token, p = .perform e next ∧ e.token? w = some token ∧
      home.base.covers token = true ∧ ((∃ n, e.timer? w = some n) ∨
        ∃ request, e = .request home.run token request ∧ w = .permit)) ∨
      ∃ n ∈ s.outline.held t, ¬ s.outline.Ended n := by
  cases p with
  | pure a =>
      rcases h.session.suited t _ w ht with ⟨-, hawake | ⟨next, hp⟩⟩ | ⟨e, next, hp, -⟩
      · exact absurd hawake hasleep
      · cases hp
      · cases hp
  | perform e next =>
      have hallows : protocol.allows (place t) e :=
        (h.obedient.active ((System.task?_outline t).trans ht)).1
      have hpermits : Permits home e ∨ PermitsDrained home e := by
        cases hplace : place t with
        | inside home' =>
            rw [hplace] at hallows hhome
            cases hhome
            exact Or.inl hallows
        | drained home' =>
            rw [hplace] at hallows hhome
            cases hhome
            exact Or.inr hallows
        | _ =>
            rw [hplace] at hhome
            cases hhome
      exact (waits_of_permits h.session ht hpermits hasleep).imp_left
        fun ⟨token, hwaits⟩ => ⟨e, next, token, rfl, hwaits⟩

/-- A task of a run that does not stir is in line for a permit of the run, or it waits for a branch
that has not ended. -/
theorem Housed.blocked (h : Housed config log s place) {p : Program t.Result} {w : Wait} {home : Home}
    (ht : s.task? t = some (.active p w)) (hhome : (place t).home? = some home)
    (hstill : ¬ s.Stirs t) :
    s.standings home.run t = some .queued ∨ ∃ n ∈ s.outline.held t, ¬ s.outline.Ended n := by
  refine (h.waits ht hhome fun hawake => hstill (Or.inl hawake)).imp_left ?_
  rintro ⟨e, next, token, rfl, -, -, ⟨n, hn⟩ | ⟨request, rfl, rfl⟩⟩
  · exact absurd (System.stirs_of_timer h.session.times ht hn) hstill
  · rw [System.standings_of_active ht]
    exact TaskState.standing_request home.run token request next .permit

/-- A run is closed when all that belong to it wait for branches that have not ended. -/
theorem Manned.closed_of_waits (hmanned : Manned log s.outline place) (h : Housed config log s place)
    (hrun : run < s.machine.runs.size)
    (hall : ∀ {t : TaskId} {p : Program t.Result} {w : Wait} {home : Home},
      s.task? t = some (.active p w) → (place t).home? = some home → home.run = run →
      ∃ n ∈ s.outline.held t, ¬ s.outline.Ended n) : run ∈ closings log := by
  have hended {n : Nat} {base : Token} (hn : BranchOf s.outline place n run base) :
      s.outline.Ended n := by
    refine h.holds.ended_of_waits (Q := fun _ => True) (fun _ _ h _ => h) (fun _ _ => trivial)
      (fun m above hm _ hunended => ?_) hn trivial
    obtain ⟨p, w, hactive⟩ := (ended_or_active hm.1).resolve_left hunended
    exact hall ((System.task?_outline _).symm.trans hactive) hm.2 rfl
  have hlt : run < s.outline.runs.length := by simpa [System.outline, Machine.outline] using hrun
  refine (hmanned.owned hlt).resolve_right ?_
  rintro ⟨t, p, w, home, ht, hhome, -, rfl⟩
  obtain ⟨n, hn, hunended⟩ := hall ((System.task?_outline t).symm.trans ht) hhome rfl
  obtain ⟨base, hb⟩ := h.holds.branchOf_held hhome hn
  exact hunended (hended hb)

end Residence

/-- A run is never stuck: while it is not closed, a task that works for it can go on or has a timer
that is pending, whatever the flow and the number of permits are. A submitted run begins when it
has got its slot. -/
theorem run_never_stuck {config : Config} {log : List Occurrence} {s : System RunResult} {run : Nat}
    (h : Session config log s) (hvalid : config.validate = .ok ()) (hrun : run < s.machine.runs.size)
    (hopen : run ∉ closings log) : ∃ t p w, Serves log run t ∧
      s.task? t = some (.active p w) ∧ s.Stirs t ∧ s.step?.isSome := by
  obtain ⟨place, hhoused, hmanned⟩ := Residence.manned_of_session h
  by_contra hstuck
  have hstill {t : TaskId} {p : Program t.Result} {w : Wait} {home : Home}
      (ht : s.task? t = some (.active p w)) (hhome : (place t).home? = some home)
      (hrun : home.run = run) : ¬ s.Stirs t := by
    intro hstirs
    have hsome : (s.outline.task? t).isSome := by
      rw [System.task?_outline]
      exact Option.isSome_of_eq_some ht
    have hserves := hmanned.serves hhoused.holds hsome hhome
    exact hstuck ⟨t, p, w, hrun ▸ hserves, ht, hstirs, hstirs.isSome_step?⟩
  refine hopen (hmanned.closed_of_waits hhoused hrun fun {t p w home} ht hhome hrun => ?_)
  refine (hhoused.blocked ht hhome (hstill ht hhome hrun)).resolve_left fun hqueued => ?_
  obtain ⟨u, token, request, next, w', hu, hstirs⟩ := System.stirs_of_queued h hvalid hqueued
  have hobeys := hhoused.obedient.active ((System.task?_outline u).trans hu)
  obtain ⟨home', hhome', hsame⟩ := Residence.home_of_allows hobeys.1 rfl
  exact hstill hu hhome' (hsame.trans hrun) hstirs

/-- While one of two calls waits for the only permit and the join waits for both, the run goes on. -/
theorem run_never_stuck_narrow : ∃ log s t p w, Session Solo.narrow.config log s ∧
    Solo.narrow.config.validate = .ok () ∧ 0 < s.machine.runs.size ∧ 0 ∉ closings log ∧
    s.standings 0 (.branch 1) = some .queued ∧ s.outline.held .main = [0, 1] ∧ Serves log 0 t ∧
    s.task? t = some (.active p w) ∧ s.Stirs t ∧ s.step?.isSome := by
  let mid := Solo.narrow.course 16
  have hmid : Session Solo.narrow.config mid.1 mid.2 := Solo.narrow.session 16 rfl
  have hvalid : Solo.narrow.config.validate = .ok () := by decide +kernel
  have hrun : 0 < mid.2.machine.runs.size := by decide +kernel
  have hopen : 0 ∉ closings mid.1 := by decide +kernel
  obtain ⟨t, p, w, hstirs⟩ := run_never_stuck hmid hvalid hrun hopen
  exact ⟨_, _, t, p, w, hmid, hvalid, hrun, hopen, by decide +kernel, by decide +kernel, hstirs⟩

end FlowEngine
