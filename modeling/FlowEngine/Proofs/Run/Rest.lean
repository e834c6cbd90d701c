import FlowEngine.Proofs.Likeness.Engines
import FlowEngine.Proofs.Machine.Clocks
import FlowEngine.Proofs.Machine.Summoning
import FlowEngine.Proofs.Run.Admission
import FlowEngine.Proofs.Run.Membership
import FlowEngine.Proofs.Run.Repayment
import FlowEngine.Proofs.Run.Uncancelled

/-!
# Machines at rest

When a run has ended that nobody cancelled, nothing of it is left behind that could touch a later
run. All of its branches have ended, nobody is ready to go on or waits under a token, and no timer
is pending. What was cancelled are tokens that were granted in the run.
-/
namespace FlowEngine

open Execution

/-! ## Who the timers belong to -/

variable {config : Config} {log : List Occurrence} {s s' : System RunResult} {t u : TaskId}
  {e : Effect}

/-- A deadline is owed until it is stopped. -/
theorem debts_stay {answer : Option e.Answer} {m m' : Machine} {d : Nat} (h : debts u log d)
    (hstop : e ≠ .stopDeadline d) : debts u (log ++ [.poll ⟨t, e, answer, m, m'⟩]) d := by
  rw [debts_append, List.foldl_cons, List.foldl_nil]
  cases answer with
  | none => exact h
  | some a =>
      simp only [Occurrence.pays]
      split
      · exact Or.inl ⟨h, hstop⟩
      · exact h

namespace System

inductive Owns (log : List Occurrence) (s : System RunResult) (x : Timer) : Prop where
  | task {t : TaskId} (alarm : x.alarm = .wake t) (waits : s.timers t = some x.number)
  | deadline {t : TaskId} {token : Token} (alarm : x.alarm = .cancel token)
      (owed : debts t log x.number)

/-- In a poll that does not stop a timer, it stays with whom it belonged to, unless the task that is
polled waits for it no more. -/
theorem Owns.polled {x : Timer} {next : e.Answer → Program t.Result} {w : Wait}
    {turn : Turn e.Answer} {m m' : Machine} (hs : s.Owns log x) (h : s.Polls t e next w s')
    (hturn : (s.machine.poll t w e).turn = turn) (hstop : e ≠ .stopDeadline x.number)
    (hown : e.timer? w = some x.number → turn.timer? = some x.number) :
    s'.Owns (log ++ [.poll ⟨t, e, turn.answer?, m, m'⟩]) x := by
  cases hs with
  | @task u alarm waits =>
      refine .task alarm ?_
      rw [h.timers, hturn]
      by_cases hut : u = t
      · subst hut
        rw [Function.update_self]
        have hwaits : s.timers u = e.timer? w := reading_of_active h.active
        exact hown (hwaits.symm.trans waits)
      · rwa [Function.update_of_ne hut]
  | deadline alarm owed => exact .deadline alarm (debts_stay owed hstop)

/-- The timers after a poll belong to somebody again: only who waits for a timer stops waiting for
it, and only who owes a deadline pays it. -/
theorem Polls.owns {next : e.Answer → Program t.Result} {w : Wait} (h : s.Polls t e next w s')
    (hs : ∀ x ∈ s.machine.timers, s.Owns log x) : ∀ x ∈ s'.machine.timers,
      s'.Owns (log ++ [.poll ⟨t, e, (s.machine.poll t w e).turn.answer?, s.machine,
        (s.machine.poll t w e).machine⟩]) x := by
  have htimers : s'.machine.timers = (s.machine.poll t w e).machine.timers :=
    Machine.timers_of_shared h.shared
  intro x hx
  rw [htimers] at hx
  by_cases hstop : ∃ d, e = .stopDeadline d
  · obtain ⟨d, rfl⟩ := hstop
    obtain ⟨hx, hne⟩ := List.mem_filter.mp hx
    refine (hs x hx).polled h rfl ?_ nofun
    rintro ⟨⟩
    simp at hne
  · have hnot (d : Nat) : e ≠ .stopDeadline d := fun he => hstop ⟨d, he⟩
    have hwinds := s.machine.winds_poll t w e
    generalize hturn : (s.machine.poll t w e).turn = turn at hwinds ⊢
    generalize hclock : (s.machine.poll t w e).machine.clock = clock at hwinds
    have hlist : (s.machine.poll t w e).machine.timers = clock.2.2 :=
      congrArg (fun c => c.2.2) hclock
    rw [hlist] at hx
    cases hwinds with
    | leaves counted held timed =>
        refine (hs x hx).polled h hturn (hnot _) fun hn => (held _ hn).resolve_right fun hgone => ?_
        exact Bool.false_ne_true
          (hgone.symm.trans (List.any_eq_true.mpr ⟨x, hx, decide_eq_true rfl⟩))
    | stops n owned =>
        obtain ⟨hx, hne⟩ := List.mem_filter.mp hx
        refine (hs x hx).polled h hturn (hnot _) fun hn => ?_
        cases (owned.resolve_right (hnot n)).symm.trans hn
        simp at hne
    | @starts w' span idle timed =>
        rcases List.mem_append.mp hx with hx | hx
        · refine (hs x hx).polled h hturn (hnot _) fun hn => ?_
          cases idle.symm.trans hn
        · rw [List.mem_singleton.mp hx]
          refine .task rfl ?_
          rw [h.timers, Function.update_self, hturn]
          exact timed
    | deadline token limit starts started =>
        rcases List.mem_append.mp hx with hx | hx
        · refine (hs x hx).polled h hturn (hnot _) fun hn => ?_
          rw [starts] at hn
          cases hn
        · rw [List.mem_singleton.mp hx]
          refine .deadline (t := t) rfl ?_
          rw [debts_append, List.foldl_cons, List.foldl_nil]
          simp only [Turn.answer?, Occurrence.pays, if_true]
          exact Or.inr started

theorem owns_of_step (h : s.step? = some s') (hs : ∀ x ∈ s.machine.timers, s.Owns log x) :
    ∀ x ∈ s'.machine.timers, s'.Owns (log ++ s.occurrences) x := by
  have move : s.Moves {} s.occurrences s' := .step h
  rcases move.polled_or_unpolled with ⟨t, e, next, w, polls, hlog⟩ | unpolled
  · rw [hlog]
    exact polls.owns hs
  · have htimers : ∀ x ∈ s'.machine.timers, x ∈ s.machine.timers := by
      intro x hx
      rcases passes_of_step h unpolled.quiet with hsame | hcounted | ⟨hclock, -⟩
      · exact Machine.timers_of_shared hsame ▸ hx
      · exact Machine.timers_of_shared hcounted ▸ hx
      · obtain ⟨due, hdue⟩ := s.machine.advanceClock?_eq hclock
        rw [hdue, (Machine.rings _ _).2.1] at hx
        exact (List.mem_filter.mp hx).1
    intro x hx
    cases hs x (htimers x hx) with
    | task alarm waits =>
        refine .task alarm ?_
        rw [timers, unpolled.reading Effect.timer?_fresh]
        exact waits
    | @deadline t token alarm owed =>
        refine .deadline (t := t) alarm ?_
        rwa [debts_of_others fun x hx => absurd hx (unpolled.quiet x)]

end System

/-! ## Who is ready while the main task has its turn -/

/-- A task that is running after a move was picked in it, or it got an answer and goes on. -/
theorem Outline.Advances.of_running {o o' : Outline} (h : o.Advances config log o')
    (running : o'.running = some t) : o.running = none ∨
      ∃ (e : Effect) (a : e.Answer) (m m' : Machine),
      log = [.poll ⟨t, e, some a, m, m'⟩] := by
  cases h with
  | pick u idle | cancel tokens idle => exact Or.inl idle
  | submit flow inputs token idle | errand idle ended errand => exact Or.inl idle
  | @answer u e next w a before after turn active start polls =>
      rw [setTask_running, polls.tasks.2.1, turn] at running
      cases running
      exact Or.inr ⟨e, a, before, after, rfl⟩
  | _ => cases running

namespace System

def Lively (s : System RunResult) : Prop :=
  ∀ t ∈ s.machine.ready, ∃ p w, s.task? t = some (.active p w)

/-- When nobody has the turn, the main task gets it only if nobody else is in line. -/
theorem ready_of_main_turn (h : s.step? = some s') (idle : s.machine.running = none)
    (hmain : .main ∉ s.machine.ready) (running : s'.machine.running = some .main) :
    s'.machine.ready = [] := by
  unfold step? at h
  rw [idle] at h
  obtain ⟨next, hnext, rfl⟩ := Option.map_eq_some_iff.mp h
  unfold Machine.dispatch? at hnext
  split at hnext
  · rename_i t rest hready
    cases hnext
    cases running
    exact absurd (hready ▸ List.mem_cons_self) hmain
  · rename_i hready
    split at hnext
    · cases hnext
      exact hready
    · obtain ⟨tokens, houtline⟩ := Machine.outline_advanceClock? s.main hnext
      have hsame : next.running = s.machine.running := congrArg Outline.running houtline
      rw [show next.running = some .main from running, idle] at hsame
      cases hsame

/-- While the main task has its turn and everybody in line has not ended, whoever a machine would
call has not ended after a poll of the main task. -/
theorem Polls.summons {next : e.Answer → Program RunResult} {w : Wait}
    (h : s.Polls .main e next w s') (hsession : Session config log s) (hs : s.Lively)
    (hmain : .main ∉ s.machine.ready) :
    s.machine.Summons fun t => ∃ p w, s'.task? t = some (.active p w) := by
  have goes_on {u : TaskId} {p : Program u.Result} {w' : Wait}
      (hu : s.task? u = some (.active p w')) : ∃ p w, s'.task? u = some (.active p w) := by
    by_cases hut : u = .main
    · subst hut
      rw [h.result]
      cases (s.machine.poll .main w e).turn <;> exact ⟨_, _, rfl⟩
    · rcases h.others hut with hsame | ⟨hnone, -⟩
      · exact ⟨p, w', hsame.trans hu⟩
      · cases hnone.symm.trans hu
  refine ⟨fun {u} hu => ⟨fun hmain' => hmain (hmain' ▸ hu), ?_⟩, fun {token u} hu => ?_,
    fun {run g u} hg hu => ?_⟩
  · obtain ⟨p, w', hu⟩ := hs u hu
    exact goes_on hu
  · obtain ⟨e', next', w', hu⟩ := active_of_reading (hsession.watches.listed hu)
    exact goes_on hu
  · have hqueued := (hsession.admits.books hg).queued.mp (List.mem_append_left _ hu)
    obtain ⟨state, hu, hx⟩ := Option.bind_eq_some_iff.mp hqueued
    obtain ⟨token, request, next', w', rfl, -⟩ := TaskState.request_of_standing hx
    exact goes_on hu

/-- Until the main task has had its turn, whoever gets into line has not ended. -/
theorem lively_of_step (h : s.step? = some s') (hsession : Session config log s)
    (hs : s.machine.running = some .main → s.Lively) (hmain : .main ∉ s.machine.ready)
    (hslot : ∀ next w, s.main ≠ .active (.perform .releaseSlot next) w)
    (running : s'.machine.running = some .main) : s'.Lively := by
  have move : s.Moves config s.occurrences s' := .step h
  rcases move.advances.of_running running with idle | ⟨e, a, m, m', hlog⟩
  · intro t ht
    rw [ready_of_main_turn h idle hmain running] at ht
    cases ht
  · rw [hlog] at move
    obtain ⟨-, next, w, polls, hanswer⟩ := move.polled
    have hpolled : (s.machine.poll .main w e).machine.Summons fun t =>
        ∃ p w, s'.task? t = some (.active p w) := by
      refine (polls.summons hsession (hs polls.running) hmain).poll ?_ w ?_ ?_
      · rw [polls.result]
        cases (s.machine.poll .main w e).turn <;> exact ⟨_, _, rfl⟩
      · rintro rfl
        exact absurd (Option.some.inj polls.active) (hslot next w)
      · rintro run policy group bs rfl n hge hlt hw
        have hjoin := s.machine.poll_outline s.main .main w (.join run policy group bs)
        simp only [Outline.Polls] at hjoin
        obtain ⟨-, ⟨-, rfl⟩ | ⟨-, hturn⟩⟩ := hjoin
        · exact absurd hlt (Nat.not_lt.mpr hge)
        · rw [hturn] at hanswer
          cases hanswer
    have hmachine : s'.machine = (s.machine.poll .main w e).machine := by
      unfold step? at h
      rw [polls.running] at h
      simp only [Option.some.inj polls.active, TaskState.step_perform, hanswer] at h
      cases h
      rfl
    intro t ht
    exact (hpolled.ready (hmachine ▸ ht)).2

structure Orderly (log : List Occurrence) (s : System RunResult) : Prop where
  owned {x : Timer} : x ∈ s.machine.timers → s.Owns log x
  main : .main ∉ s.machine.ready
  lively : s.machine.running = some .main → s.Lively

theorem Orderly.course (h : s.Orderly log) (hsession : Session config log s)
    (hslot : ∀ n next w, (s.course n).2.main ≠ .active (.perform .releaseSlot next) w)
    (fuel : Nat) :
    (s.course fuel).2.Orderly (log ++ (s.course fuel).1) := by
  induction fuel generalizing s log with
  | zero => rwa [System.course, List.append_nil]
  | succ fuel ih =>
      cases hstep : s.step? with
      | none =>
          simp only [System.course, hstep]
          rwa [List.append_nil]
      | some s' =>
          have hcourse (n : Nat) :
              s.course (n + 1) = (s.occurrences ++ (s'.course n).1, (s'.course n).2) := by
            rw [System.course, hstep]
          have hnext : s'.Orderly (log ++ s.occurrences) :=
            ⟨fun {x} => owns_of_step hstep (fun x => h.owned) x, main_not_ready hstep h.main,
              lively_of_step hstep hsession h.lively h.main (hslot 0)⟩
          rw [hcourse, ← List.append_assoc]
          refine ih hnext (hsession.reaches (.single (.step hstep))) fun n next w => ?_
          have hlater := hslot (n + 1) next w
          rwa [hcourse] at hlater

/-- A run comes to its result in the turn in which the main task ends. -/
theorem exists_course_of_run {fuel : Nat} {r : RunResult} {m : Machine}
    (h : s.run fuel = some (r, m))
    {p : Program RunResult} {w : Wait} (hactive : s.main = .active p w) : ∃ n w',
      (s.course n).2.machine.running = some .main ∧ (s.course n).2.main = .active (.pure r) w' ∧
        m = { (s.course n).2.machine with
          next := (s.course n).2.machine.next + 1, running := none } := by
  induction fuel generalizing s p w with
  | zero =>
      simp only [run, hactive] at h
      cases h
  | succ fuel ih =>
      simp only [run, hactive] at h
      obtain ⟨s', hstep, hrun⟩ := Option.bind_eq_some_iff.mp h
      cases hmain : s'.main with
      | active p' w' =>
          obtain ⟨n, hn⟩ := ih hrun hmain
          refine ⟨n + 1, ?_⟩
          rw [course, hstep]
          exact hn
      | ended r' order =>
          have hresult : s'.run fuel = some (r', s'.machine) := by
            cases fuel <;> simp only [run, hmain]
          cases hresult.symm.trans hrun
          refine ⟨0, w, ?_⟩
          unfold step? at hstep
          split at hstep
          · rename_i running
            rw [hactive] at hstep
            cases p with
            | pure a =>
                cases hstep
                cases hmain
                exact ⟨running, hactive, rfl⟩
            | perform e next =>
                rw [TaskState.step_perform] at hstep
                cases hstep
                cases hturn : (s.machine.poll .main w e).turn <;>
                  · rw [hturn] at hmain
                    cases hmain
          · cases hstep
            cases hactive.symm.trans hmain
          · cases hstep
            cases hactive.symm.trans hmain
          · obtain ⟨m, -, rfl⟩ := Option.map_eq_some_iff.mp hstep
            cases hactive.symm.trans hmain

end System

/-! ## Sessions -/

/-- What is spent while nobody gets an answer was spent before. -/
theorem Spent.of_quiet {more : List Occurrence} {token : Token} (h : Spent (log ++ more) token)
    (quiet : ∀ t e a m m', .poll ⟨t, e, some a, m, m'⟩ ∉ more) : Spent log token := by
  have answered {e : Effect} {a : e.Answer} (ha : Answered (log ++ more) e a) :
      Answered log e a := by
    refine ha.of_append.resolve_right ?_
    rintro ⟨t, m, m', hm⟩
    exact quiet t e a m m' hm
  rcases h with ⟨d, limit, h⟩ | ⟨run, policy, bs, joined, h⟩
  · exact Or.inl ⟨d, limit, answered h⟩
  · exact Or.inr ⟨run, policy, bs, joined, answered h⟩

theorem Effect.path_of_grants {m : Machine} {me : TaskId} {wait : Wait} {e : Effect} {a : e.Answer}
    {g : Grant} (ha : (m.poll me wait e).turn.answer? = some a) (hg : e.grants a = some g) :
    g.token.path ≠ [] := by
  cases e with
  | childToken token =>
      cases ha
      cases hg
      exact List.cons_ne_nil _ _
  | openRun flow parent =>
      cases ha
      cases hg
      exact List.cons_ne_nil _ _
  | _ => cases hg

namespace Session

/-- Whatever is granted or spent in a session has a number of its own. -/
theorem path_ne_nil (h : Session config log s) :
    (∀ t g, held t log = some g → g.token.path ≠ []) ∧
      ∀ token, Spent log token → token.path ≠ [] := by
  obtain ⟨s₀, hs₀, hreaches⟩ := h
  induction hreaches with
  | refl =>
      refine ⟨nofun, ?_⟩
      rintro token (⟨d, limit, t, m, m', hm⟩ | ⟨run, policy, bs, joined, t, m, m', hm⟩)
      · cases hm
      · cases hm
  | @move log more u v before move ih =>
      obtain ⟨hgranted, hspent⟩ := ih
      have hsession : Session config log u := ⟨s₀, hs₀, before⟩
      have calm (quiet : ∀ t e a m m', .poll ⟨t, e, some a, m, m'⟩ ∉ more) :
          (∀ t g, held t (log ++ more) = some g → g.token.path ≠ []) ∧
            ∀ token, Spent (log ++ more) token → token.path ≠ [] := by
        refine ⟨fun t g hg => ?_, fun token hs => hspent token (hs.of_quiet quiet)⟩
        rw [held_quiet quiet] at hg
        exact hgranted t g hg
      rcases move.polled_or_unpolled with ⟨t, e, next, w, polls, rfl⟩ | unpolled
      · cases ha : (u.machine.poll t w e).turn.answer? with
        | none =>
            rw [ha] at calm
            refine calm fun t' e' a m m' hm => ?_
            cases List.mem_singleton.mp hm
        | some a =>
            refine ⟨fun t' g hg => ?_, fun token hs => ?_⟩
            · rw [held_last] at hg
              split at hg
              · exact Effect.path_of_grants ha hg
              · exact hgranted t' g hg
            · rcases hs.of_last with hold | hcancels
              · exact hspent token hold
              · obtain ⟨g, hg, rfl⟩ := held_of_cancels (hsession.allows polls.active) hcancels
                exact hgranted t g hg
      · exact calm fun t e a m m' => unpolled.quiet _

/-- When nothing was submitted and the main task has come to its end, all others have ended. -/
theorem eq_main_of_active (h : Session config log s) (hnone : s.machine.submissions = #[])
    {r : RunResult} (hmain : s.At .main (.pure r)) {p : Program t.Result} {w : Wait}
    (ht : s.task? t = some (.active p w)) : t = .main := by
  have not_submitted {n : Nat} {state : TaskState RunResult} :
      s.task? (.submission n) ≠ some state := by
    simp [System.task?, hnone]
  obtain ⟨place, hhoused, hmanned⟩ := Residence.manned_of_session h
  cases t with
  | main => rfl
  | submission n => exact absurd ht not_submitted
  | branch n =>
      have hactive := (System.task?_outline _).trans ht
      obtain ⟨run, base, hbranch⟩ := hhoused.holds.housed (List.getElem?_eq_some_iff.mp hactive).1
      rcases hmanned.owned (hhoused.holds.opened hbranch.2) with
        hclosed | ⟨u, q, w', home, hu, hhome, howner, -⟩
      · exact absurd ⟨_, p, w, _, hactive, hbranch.2, rfl⟩ (hhoused.closed run hclosed).2
      · have hfinal : home.owner = false := by
          cases u with
          | main =>
              obtain ⟨w₀, hpure⟩ := hmain
              cases hpure.symm.trans ((System.task?_outline _).symm.trans hu)
              exact hhoused.obedient.active hu home hhome
          | submission k => exact absurd ((System.task?_outline _).symm.trans hu) not_submitted
          | branch k =>
              obtain ⟨run', base', hown⟩ := hhoused.holds.housed (List.getElem?_eq_some_iff.mp hu).1
              cases hown.2.symm.trans hhome
              rfl
        rw [howner] at hfinal
        cases hfinal

/-- When nothing was submitted and the main task has come to its end, nobody waits for an answer. -/
theorem not_performing (h : Session config log s) (hnone : s.machine.submissions = #[])
    {r : RunResult} (hmain : s.At .main (.pure r)) {next : e.Answer → Program t.Result} {w : Wait} :
    s.task? t ≠ some (.active (.perform e next) w) := by
  intro ht
  obtain rfl := h.eq_main_of_active hnone hmain ht
  obtain ⟨w₀, hpure⟩ := hmain
  cases hpure.symm.trans ht

/-- When nothing was submitted and the main task has come to its end, no timer is pending. -/
theorem timers_eq_nil (h : Session config log s) (hnone : s.machine.submissions = #[])
    {r : RunResult} (hmain : s.At .main (.pure r))
    (owned : ∀ x ∈ s.machine.timers, s.Owns log x) : s.machine.timers = [] := by
  have hunowed (t : TaskId) (d : Nat) : ¬ debts t log d := by
    by_cases ht : ∃ p, s.At t p
    · obtain ⟨p, w', ht⟩ := ht
      obtain rfl := h.eq_main_of_active hnone hmain ht
      exact h.solvent.repays hmain d
    · exact h.solvent.paid (fun p hp => ht ⟨p, hp⟩) d
  refine List.eq_nil_iff_forall_not_mem.mpr fun x hx => ?_
  cases owned x hx with
  | task alarm waits =>
      obtain ⟨e, next, w', hactive⟩ := System.active_of_reading waits
      exact h.not_performing hnone hmain hactive
  | deadline alarm owed => exact hunowed _ _ owed

end Session

/-! ## The end of a run -/

def Machine.Past (m : Machine) (token : Token) : Prop := ∃ n ∈ token.path, n < m.next

namespace Machine.Like

variable {v : Likeness} {m m' : Machine} {c : Token} (h : m.Like v m')
include h

theorem past (hc : m.Past c) : m'.Past (v.shift.token c) := by
  obtain ⟨n, hn, hlt⟩ := hc
  exact ⟨v.shift.moved n, List.mem_map_of_mem hn, h.moved_next ▸ v.shift.moved_lt_moved.mpr hlt⟩

theorem lt_of_skips {n : Nat} (hskips : v.shift.skips n = true) : n < m'.next := by
  have hlt := v.shift.lt_of_skips hskips
  have hresumed := h.resumed
  rw [h.next]
  omega

theorem past_of_stale (hc : v.shift.stale c = true) : m'.Past c := by
  obtain ⟨n, hn, hskips⟩ := List.any_eq_true.mp hc
  exact ⟨n, hn, h.lt_of_skips hskips⟩

end Machine.Like

/-- Nobody is ready to go on or waits under a token, and nothing was submitted. What was cancelled,
or will be by a timer, was granted before, and a new run gets the permits that the configuration
names. -/
structure Machine.AtRest (config : Config) (m : Machine) : Prop where
  permits : m.maxConcurrency = config.maxConcurrency.toNat
  ready : m.ready = []
  observers : m.observers = []
  timers {x : Timer} : x ∈ m.timers → x.number < m.next ∧ ∃ c, x.alarm = .cancel c ∧ m.Past c
  submissions : m.submissions = #[]
  cancelled {c : Token} : c ∈ m.cancelled → m.Past c

/-- How far a machine is ahead of a new one on which a run is about to start. Some numbers after
that of the token of the run are left out. -/
def Machine.ahead (m : Machine) (gap : Nat) : Shift where
  time := m.now
  number := m.next
  branches := m.branches.size
  runs := m.runs.size
  resumes := 1
  gap

/-- The token of a run takes one number, and the timer that is to cancel it takes another. -/
theorem Engine.machine_newToken (e : Engine) (cancelAfter : Option Nat) : ∃ next timers,
    (e.newToken false cancelAfter).2.machine = { e.machine with next, timers } ∧
      next = 1 + e.machine.next + cancelAfter.elim 0 fun _ => 1 := by
  cases cancelAfter with
  | none => exact ⟨_, _, rfl, Nat.add_comm ..⟩
  | some span => exact ⟨_, _, rfl, congrArg (· + 1) (Nat.add_comm ..)⟩

namespace Machine.AtRest

variable {v : Likeness} {m m' : Machine}

theorem new (world : World) : (Machine.new config world).AtRest config :=
  ⟨rfl, rfl, rfl, nofun, rfl, nofun⟩

theorem of_like (h : m.AtRest config) (hl : m.Like v m')
    (expected : ∀ token, v.expects token → m'.Past token) : m'.AtRest config where
  permits := hl.maxConcurrency.trans h.permits
  ready := by rw [hl.ready, h.ready]; rfl
  observers := by rw [hl.observers, h.observers]; rfl
  timers {x} hx := by
    cases hskips : v.shift.skips x.number with
    | true =>
        obtain ⟨token, halarm, hexpects⟩ := hl.foreign hx hskips
        exact ⟨hl.lt_of_skips hskips, token, halarm, expected token hexpects⟩
    | false =>
        have hkept : x ∈ m'.timers.filter (fun x => !v.shift.skips x.number) :=
          List.mem_filter.mpr ⟨hx, by rw [hskips]; rfl⟩
        rw [hl.timers] at hkept
        obtain ⟨y, hy, rfl⟩ := List.mem_map.mp hkept
        obtain ⟨hlt, c, halarm, hpast⟩ := h.timers hy
        refine ⟨hl.moved_next ▸ v.shift.moved_lt_moved.mpr hlt, v.shift.token c, ?_, hl.past hpast⟩
        exact congrArg v.shift.alarm halarm
  submissions := hl.submissions.2
  cancelled {c} hc := by
    cases hstale : v.shift.stale c with
    | true => exact hl.past_of_stale hstale
    | false =>
        have hkept : c ∈ m'.cancelled.filter (fun c => !v.shift.stale c) :=
          List.mem_filter.mpr ⟨hc, by rw [hstale]; rfl⟩
        rw [hl.cancelled] at hkept
        obtain ⟨c₀, hc₀, rfl⟩ := List.mem_map.mp hkept
        exact hl.past (h.cancelled hc₀)

/-- When a run is asked for on a machine at rest, its shift skips the numbers of all timers, and
they only cancel. The timer that is to cancel the token of the run has the number after that of the
token. -/
theorem skips_newToken {e : Engine} (h : e.machine.AtRest e.config) (cancelAfter : Option Nat)
    (hshift : v.shift = e.machine.ahead (cancelAfter.elim 0 fun _ => 1)) :
    ∀ x ∈ (e.newToken false cancelAfter).2.machine.timers,
      v.shift.skips x.number = true ∧ ∃ c, x.alarm = .cancel c := by
  have hold : ∀ x ∈ e.machine.timers,
      v.shift.skips x.number = true ∧ ∃ c, x.alarm = .cancel c := by
    intro x hx
    obtain ⟨hlt, c, halarm, -⟩ := h.timers hx
    exact ⟨v.shift.skips_of_lt (hshift ▸ hlt), c, halarm⟩
  cases cancelAfter with
  | none => exact hold
  | some span =>
      intro x hx
      rcases List.mem_append.mp hx with hx | hx
      · exact hold x hx
      · rw [List.mem_singleton.mp hx, hshift]
        refine ⟨?_, _, rfl⟩
        simp [Shift.skips, Machine.ahead]

/-- On a machine at rest a run starts like one on a new machine: the clock is later, and the numbers
go on from where they have got to. -/
theorem like_asked {e : Engine} (h : e.machine.AtRest e.config) (cancelAfter : Option Nat)
    (hshift : v.shift = e.machine.ahead (cancelAfter.elim 0 fun _ => 1)) {w : World}
    (hw : v.worlds w e.machine.world) {flow : Flow}
    (hflow : Execution.Admits v flow) (inputs : List (String × Json))
    (expected : ∀ x ∈ (e.newToken false cancelAfter).2.machine.timers, ∀ c, x.alarm = .cancel c →
      v.expects c) :
    System.Like v v.shift.Results ((Engine.unchecked e.config w).asked flow inputs false none)
      (e.asked flow inputs false cancelAfter) := by
  have htoken : (e.newToken false cancelAfter).1 =
      v.shift.token ((Engine.unchecked e.config w).newToken false none).1 := by
    rw [hshift]
    exact congrArg Token.root (Nat.zero_add _).symm
  have hprogram : Program.Like v v.shift.Results
      (Execution.run e.config flow inputs ((Engine.unchecked e.config w).newToken false none).1)
      (Execution.run e.config flow inputs (e.newToken false cancelAfter).1) :=
    htoken ▸ Execution.like_run hflow inputs _
  have htimers := h.skips_newToken cancelAfter hshift
  obtain ⟨next, timers, hmachine, hnext⟩ := e.machine_newToken cancelAfter
  have hahead : { e.machine with next, timers, mainReady := true, running := none } =
      (e.asked flow inputs false cancelAfter).machine := by
    unfold Engine.asked
    dsimp only
    rw [hmachine]
    rfl
  refine ⟨hahead ▸ ?_, .active .fresh hprogram⟩
  rw [hmachine] at htimers expected
  exact {
    world := hw
    maxConcurrency := h.permits
    now := by rw [hshift]; exact (Nat.zero_add _).symm
    next := by rw [hshift]; exact hnext
    resumed := by rw [hshift]; exact Nat.le_refl 1
    cancelled := List.filter_eq_nil_iff.mpr fun c hc => by
      obtain ⟨n, hn, hlt⟩ := h.cancelled hc
      have hstale : v.shift.stale c = true :=
        List.any_eq_true.mpr ⟨n, hn, v.shift.skips_of_lt (hshift ▸ hlt)⟩
      simp [hstale]
    observers := h.observers
    timers := List.filter_eq_nil_iff.mpr fun x hx => by simp [(htimers x hx).1]
    foreign := fun hx _ => by
      obtain ⟨-, c, halarm⟩ := htimers _ hx
      exact ⟨c, halarm, expected _ hx c halarm⟩
    ready := h.ready
    mainReady := rfl
    running := rfl
    branches := by
      rw [hshift]
      exact .empty _ _
    submissions := ⟨rfl, h.submissions⟩
    runs := by
      rw [hshift]
      exact .empty _ _ }

end Machine.AtRest

namespace Solo

variable {a : Solo}

theorem like (h : a.cancelAfter = none) : System.Like (.withSink a.world.sink)
    (Likeness.withSink a.world.sink).shift.Results a.start a.start := by
  obtain ⟨config, world, flow, inputs, cancelAfter⟩ := a
  cases h
  have hworld : (Likeness.withSink world.sink).worlds world world := rfl
  have hmachine := (Machine.Like.new (v := .withSink world.sink) rfl config hworld).newToken.2
  have hflow : Admits (.withSink world.sink) flow :=
    fun _ _ => ⟨fun _ _ => trivial, fun _ _ _ => trivial⟩
  have hprogram : Program.Like _ _ (Execution.run config flow inputs _) _ :=
    Execution.like_run hflow inputs (Machine.new config world).newToken.1
  rw [show (Likeness.withSink world.sink).shift.token _ = _ from Shift.zero_token _] at hprogram
  exact .start hmachine hprogram

theorem orderly (h : a.cancelAfter = none) : a.start.Orderly [.errand] := by
  obtain ⟨config, world, flow, inputs, cancelAfter⟩ := a
  cases h
  exact ⟨nofun, List.not_mem_nil, nofun⟩

/-- When a run has ended that nobody cancelled, its machine is at rest. -/
theorem at_rest (h : a.cancelAfter = none) (hs : a.world.store.store.snapshots = []) {fuel : Nat}
    {r : RunResult} {m : Machine} (hrun : a.start.run fuel = some (r, m)) :
    m.AtRest a.config ∧ m.timers = [] := by
  obtain ⟨n, w, running, hpure, rfl⟩ := System.exists_course_of_run hrun rfl
  have hspares :
      Session.Spares a.config default ([.errand] ++ (a.start.course n).1) (a.start.course n).2 :=
    (a.spares h hs default).along (System.spares_course default n a.start)
  have hsession := hspares.session
  have hlike := (like h).course fun _ => id
  have horderly := (orderly h).course (a.session 0 hs)
    (fun k next w hslot => (hlike k).main.allows hslot) n
  have hnone := (hlike n).machine.submissions.1
  generalize (a.start.course n).1 = log, (a.start.course n).2 = v at *
  have hmain : v.At .main (.pure r) := ⟨_, congrArg some hpure⟩
  have htimers := hsession.timers_eq_nil hnone hmain fun x => horderly.owned
  refine ⟨?_, htimers⟩
  constructor
  case permits => exact hsession.maxConcurrency
  case ready =>
    refine List.eq_nil_iff_forall_not_mem.mpr fun t ht => ?_
    obtain ⟨p, w', hactive⟩ := horderly.lively running t ht
    exact horderly.main (hsession.eq_main_of_active hnone hmain hactive ▸ ht)
  case observers =>
    refine List.eq_nil_iff_forall_not_mem.mpr fun ⟨token, t⟩ ht => ?_
    obtain ⟨e, next, w', hactive⟩ := System.active_of_reading (hsession.watches.listed ht)
    exact hsession.not_performing hnone hmain hactive
  case timers => exact fun {x} hx => absurd (htimers ▸ hx : x ∈ []) List.not_mem_nil
  case submissions => exact hnone
  case cancelled =>
    intro c hc
    have hall : Token.covers default c = true :=
      List.isSuffixOf_iff_suffix.mpr (List.nil_suffix (l := c.path))
    have hstruck : 0 < v.machine.strikes c :=
      Nat.add_pos_left (List.count_pos_iff.mpr hc) _
    have hspent := hspares.sole.struck hall hstruck
    have hlt := hspares.sole.spent hspent
    have hpath := hsession.path_ne_nil.2 c hspent
    unfold Token.number at hlt
    cases hc' : c.path with
    | nil => exact absurd hc' hpath
    | cons k rest =>
        rw [hc'] at hlt
        exact ⟨k, hc' ▸ List.mem_cons_self, Nat.lt_succ_of_lt hlt⟩

end Solo
end FlowEngine
