import FlowEngine.Proofs.Machine.Waking
import FlowEngine.Proofs.Session.Turns

/-!
# Moves with a poll and moves without one

A move with a poll leaves to the machine what the poll left, but for the task that had its
turn. A move without one ends a task, picks the next one, moves the clock, or hands work over.
-/
namespace FlowEngine

def Turn.state {α : Type} {e : Effect} (next : e.Answer → Program α) : Turn e.Answer → TaskState α
  | .answered a => .active (next a) .fresh
  | .waiting w => .active (.perform e next) w

theorem TaskState.step_perform {α : Type} (me : TaskId) (m : Machine) (w : Wait) (e : Effect)
    (next : e.Answer → Program α) : step me m (.active (.perform e next) w) =
      ((m.poll me w e).turn.state next, (m.poll me w e).turn.answer?.isSome,
        (m.poll me w e).machine) := by
  simp only [step]
  split <;>
    · rename_i hp
      rw [hp]
      rfl

/-- What a move without a poll does to what the tasks of a machine share. -/
inductive Machine.Passes (m : Machine) : Machine → Prop where
  | same {m' : Machine} (shared : m'.shared = m.shared) : Passes m m'
  | counted {m' : Machine} (shared : m'.shared = { m with next := m.next + 1 }.shared) : Passes m m'
  | cancelled (token : Token) : Passes m (m.cancel token)
  | scheduled (span : Nat) (token : Token) : Passes m (m.schedule span (.cancel token)).2
  | clock {m' : Machine} (h : m.advanceClock? = some m') (asleep : ∀ t, ¬ m.Awake t) : Passes m m'

namespace System

variable {config : Config} {s s' : System RunResult} {log : List Occurrence} {t : TaskId}

structure Polls (s : System RunResult) (t : TaskId) (e : Effect)
    (next : e.Answer → Program t.Result) (w : Wait) (s' : System RunResult) : Prop where
  running : s.machine.running = some t
  active : s.task? t = some (.active (.perform e next) w)
  result : s'.task? t = some ((s.machine.poll t w e).turn.state next)
  others {u : TaskId} : u ≠ t → s'.task? u = s.task? u ∨
    s.task? u = none ∧ (∃ n, u = .branch n) ∧
      ∀ state, s'.task? u = some state → ∃ p, state = .active p .fresh
  born {n : Nat} {state : TaskState (Except Failure Json)} : s.task? (.branch n) = none →
    s'.task? (.branch n) = some state → ∃ run policy group bs b,
      e = .join run policy group bs ∧ b ∈ bs ∧ state = .active b.program .fresh
  shared : s'.machine.shared = (s.machine.poll t w e).machine.shared
  awake {u : TaskId} : (s.machine.poll t w e).machine.Awake u →
    u ≠ t ∨ (s.machine.poll t w e).turn.answer?.isSome → s'.machine.Awake u
  reports {n : Nat} {u : TaskId} :
    (s.machine.poll t w e).machine.waiter? n = some u → s'.machine.waiter? n = some u

theorem polls_of_running {e : Effect} {next : e.Answer → Program t.Result} {w : Wait}
    (h : s.step? = some s') (running : s.machine.running = some t)
    (hs : s.task? t = some (.active (.perform e next) w)) : s.Polls t e next w s' := by
  have houtline := step?_outline h running hs (TaskState.step_perform t s.machine w e next)
  obtain ⟨m, waiter, hm, hmachine, hshared, -⟩ := step?_resumes h running hs
  rw [TaskState.step_perform] at hm hmachine hshared
  have hpolls := s.machine.poll_outline s.main t w e
  have hturn : s'.task? t = some ((s.machine.poll t w e).turn.state next) := by
    have hsome := Option.isSome_of_eq_some (hpolls.task? ((task?_outline t).trans hs))
    rw [← task?_outline, houtline]
    split
    · exact Outline.task?_setTask_self _ _ hsome
    · exact Outline.task?_setTask_self _ _ hsome
  have hothers {u : TaskId} (hu : u ≠ t) :
      s'.task? u = ((s.machine.poll t w e).machine.outline s.main).task? u := by
    rw [← task?_outline, houtline]
    split
    · exact Outline.task?_setTask_of_ne _ _ hu
    · exact Outline.task?_setTask_of_ne _ _ hu
  have hborn {n : Nat} {state : TaskState (Except Failure Json)} (hnone : s.task? (.branch n) = none)
      (hn : s'.task? (.branch n) = some state) : ∃ run policy group bs b,
        e = .join run policy group bs ∧ b ∈ bs ∧ state = .active b.program .fresh := by
    have hnt : TaskId.branch n ≠ t := by
      rintro rfl
      rw [hs] at hnone
      cases hnone
    exact hpolls.born ((task?_outline _).trans hnone) ((hothers hnt).symm.trans hn)
  refine ⟨running, hs, hturn, fun {u} hu => ?_, hborn, ?_, fun {u} hawake hcase => ?_,
    fun {n u} hreports => ?_⟩
  · rcases hpolls.task?_or_born u with hsame | ⟨hnone, n, rfl⟩
    · exact Or.inl ((hothers hu).trans (hsame.trans (task?_outline u)))
    · have hnone' := (task?_outline _).symm.trans hnone
      refine Or.inr ⟨hnone', ⟨n, rfl⟩, fun state hstate => ?_⟩
      obtain ⟨_, _, _, _, b, -, -, rfl⟩ := hborn hnone' hstate
      exact ⟨_, rfl⟩
  · rw [hmachine, Machine.shared_resume, hshared]
  · rw [hmachine]
    have hm' := (hm []).awake hawake
    by_cases hut : u = t
    · have hgoes := hcase.resolve_left (not_not_intro hut)
      rw [Machine.resume, if_pos hgoes]
      exact hm'
    · refine Machine.awake_resume _ _ _ _ hm' ?_
      rw [(hm []).running, (s.machine.rouses_poll t w e).running, running]
      exact fun he => hut (Option.some.inj he).symm
  · rw [hmachine, Machine.waiter?_resume]
    exact ((hm []).waiter (Machine.lt_of_waiter? hreports) List.not_mem_nil).trans hreports

/-- A move without a poll. What the tasks share passes on, only tasks that perform no effect
change, and nobody who performs one falls asleep. -/
structure Unpolled (s : System RunResult) (log : List Occurrence) (s' : System RunResult) : Prop where
  quiet (x : Poll) : .poll x ∉ log
  machine : s.machine.Passes s'.machine
  tasks (u : TaskId) : s'.task? u = s.task? u ∨
    (∀ e next w, s.task? u ≠ some (.active (.perform e next) w)) ∧
      ∀ p w, s'.task? u = some (.active p w) → w = .fresh
  awake {u : TaskId} {e : Effect} {next : e.Answer → Program u.Result} {w : Wait} :
    s.task? u = some (.active (.perform e next) w) → s.machine.Awake u → s'.machine.Awake u

end System

/-- Without a poll only tasks that perform no effect change. -/
theorem Outline.Advances.unpolled {o o' : Outline} {config : Config} {log : List Occurrence}
    (h : o.Advances config log o') (quiet : ∀ x, .poll x ∉ log) (u : TaskId) :
    o'.task? u = o.task? u ∨ (∀ e next w, o.task? u ≠ some (.active (.perform e next) w)) ∧
      ∀ p w, o'.task? u = some (.active p w) → w = .fresh := by
  cases h with
  | pick t idle | cancel tokens idle | stop running inactive => exact Or.inl rfl
  | answer running active start polls => exact absurd (List.mem_singleton_self _) (quiet _)
  | wait running active start polls => exact absurd (List.mem_singleton_self _) (quiet _)
  | @finish t a w running active order =>
      by_cases hu : u = t
      · subst hu
        refine Or.inr ⟨fun e next w' hperform => ?_, fun p w' hactive => ?_⟩
        · cases active.symm.trans hperform
        · cases o.eq_of_task?_setTask _ hactive
      · exact Or.inl (o.task?_setTask_of_ne _ hu)
  | submit flow inputs token idle =>
      by_cases hu : u = .submission o.submissions.length
      · subst hu
        refine Or.inr ⟨fun e next w hold => ?_, fun p w hactive => ?_⟩
        · exact Nat.lt_irrefl _ (List.getElem?_eq_some_iff.mp hold).1
        · cases hactive.symm.trans (o.task?_submit_self _)
          rfl
      · exact Or.inl (o.task?_submit_of_ne _ hu)
  | errand idle ended errand =>
      cases u with
      | main =>
          obtain ⟨result, order, hended⟩ := ended
          refine Or.inr ⟨fun e next w hperform => ?_, fun p w hactive => ?_⟩
          · rw [task?, hended] at hperform
            cases hperform
          · cases hactive
            rfl
      | _ => exact Or.inl rfl

namespace System

variable {config : Config} {s s' : System RunResult} {log : List Occurrence} {t : TaskId}

/-- In a step without a poll a task may end, the next one is picked, or the clock moves because nobody
is awake. -/
theorem passes_of_step (h : s.step? = some s') (quiet : ∀ x, .poll x ∉ s.occurrences) :
    s'.machine.shared = s.machine.shared ∨
      s'.machine.shared = { s.machine with next := s.machine.next + 1 }.shared ∨
        s.machine.advanceClock? = some s'.machine ∧ ∀ t, ¬ s.machine.Awake t := by
  cases running : s.machine.running with
  | none =>
      unfold step? at h
      rw [running] at h
      obtain ⟨m, hd, rfl⟩ := Option.map_eq_some_iff.mp h
      unfold Machine.dispatch? at hd
      split at hd
      · cases hd
        exact Or.inl rfl
      · rename_i hready
        split at hd
        · cases hd
          exact Or.inl rfl
        · rename_i hmain
          refine Or.inr (Or.inr ⟨hd, ?_⟩)
          rintro t (hrun | hmem | ⟨-, hawake⟩)
          · rw [running] at hrun
            cases hrun
          · rw [hready] at hmem
            cases hmem
          · exact hmain hawake
  | some u =>
      cases hs : s.task? u with
      | none =>
          rw [step?_of_missing h running hs]
          exact Or.inl rfl
      | some state =>
          obtain ⟨m, waiter, -, hmachine, hshared, -⟩ := step?_resumes h running hs
          rw [hmachine, Machine.shared_resume, hshared]
          cases state with
          | ended a order => exact Or.inl rfl
          | active p w =>
              cases p with
              | pure a => exact Or.inr (Or.inl rfl)
              | perform e next =>
                  refine absurd ?_ (quiet (s.machine.pollOf u w e))
                  simp [occurrences, running, hs]

/-- In a step without a poll no task goes on that did not do so before. -/
theorem active_of_step (h : s.step? = some s') (quiet : ∀ x, .poll x ∉ s.occurrences) {u : TaskId}
    {p : Program u.Result} {w : Wait} (hu : s'.task? u = some (.active p w)) :
    s.task? u = some (.active p w) := by
  rw [← task?_outline] at hu ⊢
  cases running : s.machine.running with
  | none =>
      rcases step?_outline_of_idle h running with ⟨t, ho⟩ | ⟨tokens, ho⟩
      · rwa [ho] at hu
      · rwa [ho] at hu
  | some t =>
      cases hs : s.task? t with
      | none =>
          rw [step?_of_missing h running hs] at hu
          exact hu
      | some state =>
          have ends {a : t.Result} {order : Nat} {goesOn : Bool} {m : Machine}
              (hm : m.outline s.main = s.outline)
              (hstep : state.step t s.machine = (.ended a order, goesOn, m)) :
              s.outline.task? u = some (.active p w) := by
            have ho := step?_outline h running hs hstep
            have hu' : (s.outline.setTask t (.ended a order)).task? u = some (.active p w) := by
              rw [ho, hm] at hu
              cases goesOn <;> exact hu
            by_cases hut : u = t
            · subst hut
              cases Outline.eq_of_task?_setTask _ _ hu'
            · rwa [Outline.task?_setTask_of_ne _ _ hut] at hu'
          cases state with
          | ended a order => exact ends rfl rfl
          | active q v =>
              cases q with
              | pure a => exact ends (m := { s.machine with next := s.machine.next + 1 }) rfl rfl
              | perform e next =>
                  refine absurd ?_ (quiet (s.machine.pollOf t v e))
                  simp [occurrences, running, hs]

theorem submissions_of_step (h : s.step? = some s') :
    s'.outline.submissions.length = s.outline.submissions.length := by
  have hset (o : Outline) (u : TaskId) (state : TaskState u.Result) :
      (o.setTask u state).submissions.length = o.submissions.length := by
    cases u <;> simp [Outline.setTask]
  cases running : s.machine.running with
  | none =>
      rcases step?_outline_of_idle h running with ⟨u, ho⟩ | ⟨tokens, ho⟩
      · rw [ho]
      · rw [ho]
  | some u =>
      cases hs : s.task? u with
      | none =>
          rw [step?_of_missing h running hs]
          rfl
      | some state =>
          rcases hstep : state.step u s.machine with ⟨state', goesOn, m⟩
          have hm : (m.outline s.main).submissions = s.outline.submissions := by
            cases state with
            | ended a order =>
                cases hstep
                rfl
            | active p w =>
                cases p with
                | pure a =>
                    cases hstep
                    rfl
                | perform e next =>
                    rw [TaskState.step_perform] at hstep
                    cases hstep
                    exact (s.machine.poll_outline s.main u w e).tasks.2.2.1
          have ho := step?_outline h running hs hstep
          rw [ho]
          cases goesOn <;> exact (hset _ u state').trans (congrArg List.length hm)

theorem submission_of_step (h : s.step? = some s') {n : Nat} (hnone : s.task? (.submission n) = none) :
    s'.task? (.submission n) = none := by
  rw [← task?_outline] at hnone ⊢
  refine List.getElem?_eq_none ?_
  rw [submissions_of_step h]
  exact List.getElem?_eq_none_iff.mp hnone

/-- In a move without a poll, what the tasks share passes on. -/
theorem Moves.passes_machine (h : s.Moves config log s') (quiet : ∀ x, .poll x ∉ log) :
    s.machine.Passes s'.machine := by
  cases h with
  | step h =>
      rcases passes_of_step h quiet with hsame | hcounted | hclock
      · exact .same hsame
      · exact .counted hcounted
      · exact .clock hclock.1 hclock.2
  | newToken h => exact .counted rfl
  | cancel h token => exact .cancelled token
  | cancelAfter h span token => exact .scheduled span token
  | submit h flow inputs token => exact .same (Machine.shared_wake _ _)
  | start h errand => exact .same rfl

/-- Every move is a poll of the running task or passes without one. -/
theorem Moves.polled_or_unpolled (h : s.Moves config log s') :
    (∃ t e next w, s.Polls t e next w s' ∧ log = [.poll ⟨t, e, (s.machine.poll t w e).turn.answer?,
      s.machine, (s.machine.poll t w e).machine⟩]) ∨ s.Unpolled log s' := by
  by_cases hpoll : ∃ x, .poll x ∈ log
  · obtain ⟨x, hx⟩ := hpoll
    obtain rfl := h.advances.eq_singleton_of_mem hx
    obtain ⟨hstep, t, state, running, hs, hlog⟩ := h.turn nofun
    simp only [occurrences, running, hs] at hlog
    split at hlog
    · rename_i e next w hstate
      cases hstate
      rw [Machine.pollOf_eq] at hlog
      exact Or.inl ⟨t, e, next, w, polls_of_running hstep running hs, hlog.symm⟩
    · cases hlog
    · cases hlog
  · have quiet (x : Poll) : .poll x ∉ log := fun hx => hpoll ⟨x, hx⟩
    refine Or.inr ⟨quiet, h.passes_machine quiet, fun u => ?_, fun {u e next w} hu hawake => ?_⟩
    · rw [← task?_outline, ← task?_outline]
      exact h.advances.unpolled quiet u
    · refine h.awake hawake fun running => ?_
      obtain ⟨m, m', turn, rfl, -⟩ := h.of_running running hu
      exact quiet _ (List.mem_singleton_self _)

/-- A poll in a log is one of a task that had its turn, and it was answered what the machine says. -/
theorem Moves.polled {answer : Option e.Answer} {m m' : Machine}
    (h : s.Moves config [.poll ⟨t, e, answer, m, m'⟩] s') : m = s.machine ∧ ∃ next w,
      s.Polls t e next w s' ∧ (s.machine.poll t w e).turn.answer? = answer := by
  rcases h.polled_or_unpolled with ⟨u, e', next, w, polls, hlog⟩ | hquiet
  · generalize ha : (s.machine.poll u w e').turn.answer? = given at hlog
    cases hlog
    exact ⟨rfl, next, w, polls, ha⟩
  · exact absurd (List.mem_singleton_self _) (hquiet.quiet _)

theorem Moves.polls_of_poll {x : Poll} (h : s.Moves config [.poll x] s') :
    x.before = s.machine ∧ ∃ next w, s.Polls x.task x.effect next w s' := by
  obtain ⟨hm, next, w, polls, -⟩ := h.polled
  exact ⟨hm, next, w, polls⟩

/-- A branch that was not there before the poll of a join is one of its branches, as it begins. -/
theorem Moves.born_of_join {run : Nat} {policy : JoinPolicy} {group : Token} {bs : List Branch}
    {m m' : Machine} {answer : Option (Except Failure (List BranchOutcome))} {n : Nat}
    {state : TaskState (Except Failure Json)}
    (h : s.Moves config [.poll ⟨t, .join run policy group bs, answer, m, m'⟩] s')
    (hnew : m.branches.size ≤ n) (hs' : s'.task? (.branch n) = some state) :
    m = s.machine ∧ (∃ next w, s.task? t = some (.active (.perform (.join run policy group bs) next) w)) ∧
      ∃ b ∈ bs, state = .active b.program .fresh := by
  obtain ⟨rfl, next, w, polls⟩ := h.polls_of_poll
  have hnone : s.task? (.branch n) = none := by
    simp [task?, Array.getElem?_eq_none hnew]
  obtain ⟨_, _, _, _, b, hjoin, hb, hstate⟩ := polls.born hnone hs'
  cases hjoin
  exact ⟨rfl, ⟨next, w, polls.active⟩, b, hb, hstate⟩

theorem Moves.waits_of_poll {p : Program t.Result} {w : Wait} {m m' : Machine}
    (h : s.Moves config [.poll ⟨t, e, none, m, m'⟩] s') (ht : s'.task? t = some (.active p w)) :
    ∃ next w₀, s.Polls t e next w₀ s' ∧ p = .perform e next ∧
      (s.machine.poll t w₀ e).turn = .waiting w := by
  obtain ⟨-, next, w₀, polls, hanswer⟩ := h.polled
  have hresult := polls.result
  cases hturn : (s.machine.poll t w₀ e).turn with
  | answered a =>
      rw [hturn] at hanswer
      cases hanswer
  | waiting w' =>
      rw [hturn] at hresult
      cases ht.symm.trans hresult
      exact ⟨next, w₀, polls, rfl, hturn⟩

end System
end FlowEngine
