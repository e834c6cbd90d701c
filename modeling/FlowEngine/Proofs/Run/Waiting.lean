import FlowEngine.Proofs.Machine.Waking
import FlowEngine.Proofs.Run.Closing
import FlowEngine.Proofs.Run.Joins

/-!
# No join waits in vain

A branch is waited for in one place: by its join, by a task that settles, or among those
that were left to a run. So while a join waits, its branches report to it, and it goes on
unless it has a reason to wait: one of them has not ended, and under the fail-fast policy
none of them has failed.
-/
namespace FlowEngine

namespace Outline

variable {o o₁ o' : Outline} {config : Config} {log : List Occurrence} {t : TaskId} {n : Nat}
  {policy : JoinPolicy} {tasks : List Nat}

def Left (o : Outline) (n : Nat) : Prop := ∃ run, n ∈ o.stragglers run

def Joining (o : Outline) (t : TaskId) (policy : JoinPolicy) (tasks : List Nat) : Prop :=
  ∃ run group bs next,
    o.task? t = some (.active (.perform (.join run policy group bs) next) (.branches tasks))

theorem Joining.held (h : o.Joining t policy tasks) : o.held t = tasks := by
  obtain ⟨run, group, bs, next, ht⟩ := h
  exact held_of_task? ht

/-! ## Who gets a branch to wait for -/

theorem left_of_modifyRun {run : Nat} {f : RunOutline → RunOutline} {more : List Nat}
    (h : (o.modifyRun run f).Left n)
    (hf : ∀ r, ∀ n ∈ (f r).stragglers, n ∈ r.stragglers ∨ n ∈ more) : o.Left n ∨ n ∈ more := by
  obtain ⟨other, hn⟩ := h
  by_cases hr : other = run
  · subst hr
    simp only [stragglers, modifyRun, List.getElem?_modify_eq] at hn
    cases hget : o.runs[other]? with
    | none =>
        rw [hget] at hn
        cases hn
    | some r =>
        rw [hget] at hn
        refine (hf r n hn).imp_left fun hm => ⟨other, ?_⟩
        rwa [stragglers, hget]
  · rw [stragglers_modifyRun_of_ne _ _ hr] at hn
    exact Or.inl ⟨other, hn⟩

/-- A branch is left to a run by the task that waited for it, when it gets an answer. -/
theorem Polls.left {α : Type} {w : Wait} {e : Effect}
    {turn : Turn e.Answer} (h : o.Polls w o₁ e turn) (next : e.Answer → Program α)
    (hn : o₁.Left n) : o.Left n ∨ turn.answer?.isSome ∧ n ∈ (TaskState.active (.perform e next) w).held := by
  cases e with
  | join run policy group bs =>
      simp only [Polls] at h
      split at h
      · rename_i tasks
        cases h with
        | failed fast first =>
            refine (left_of_modifyRun hn fun r m hm => ?_).imp_right fun hm => ⟨rfl, hm⟩
            exact (List.mem_append.mp hm).imp_right fun hm => (List.mem_filter.mp hm).1
        | _ => exact Or.inl hn
      · obtain ⟨rfl, -⟩ := h
        exact Or.inl hn
  | settle run token =>
      have hpending {n : Nat} (hm : n ∈ w.pending) :
          n ∈ (TaskState.active (.perform (.settle run token) next) w).held := by
        cases w with
        | stragglers tasks count => exact hm
        | _ => cases hm
      have hleft {rest : List Nat} (hrest : rest ⊆ o.stragglers run)
          (hn : (o.modifyRun run fun r => { r with stragglers := rest }).Left n) : o.Left n := by
        rcases left_of_modifyRun hn fun r m hm => Or.inr hm with hn | hm
        · exact hn
        · exact ⟨run, hrest hm⟩
      cases h with
      | settled => exact Or.inl (hleft (List.nil_subset _) hn)
      | @interruptedFirst ended rest hi split left endedEnded =>
          refine (left_of_modifyRun hn fun r m hm => List.mem_append.mp hm).imp_right
            fun hm => ⟨rfl, hpending ?_⟩
          rw [split]
          exact List.mem_append_right _ hm
      | @interruptedLater ended rest hi pendingEnded split endedEnded =>
          refine Or.inl (hleft ?_ hn)
          rw [split]
          exact List.subset_append_right _ _
      | waitingFirst => exact Or.inl hn
      | waitingLater => exact Or.inl (hleft (List.nil_subset _) hn)
  | openRun flow parent =>
      obtain ⟨-, rfl⟩ := h
      obtain ⟨run, hn⟩ := hn
      exact Or.inl ⟨run, o.stragglers_open flow run ▸ hn⟩
  | _ =>
      obtain ⟨-, -, -, hsame⟩ := h.calm (by simp) (by simp) (by simp)
      obtain ⟨run, hn⟩ := hn
      exact Or.inl ⟨run, hsame run ▸ hn⟩

/-- A task that waits in a join did so before, or it has just started branches. -/
theorem Advances.joining (h : o.Advances config log o') (hj : o'.Joining t policy tasks) :
    o.Joining t policy tasks ∨ tasks ≠ [] ∧
      (∀ n ∈ tasks, o.task? (.branch n) = none ∧
        ∃ p, o'.task? (.branch n) = some (.active p .fresh)) ∧
      ∃ run group bs next w before after,
        o.task? t = some (.active (.perform (.join run policy group bs) next) w) ∧
        (∀ tasks, w ≠ .branches tasks) ∧ tasks = List.range' o.branches.length bs.length ∧
        log = [.poll ⟨t, .join run policy group bs, none, before, after⟩] := by
  obtain ⟨run, group, bs, next, ht⟩ := hj
  rcases h.wait_cases ht with hsame | hfresh | ⟨e, next', w, before, after, hp, hbefore, hlog, polls, rfl⟩
  · exact Or.inl ⟨run, group, bs, next, hsame⟩
  · cases hfresh
  · cases hp
    by_cases hw : ∃ tasks, w = .branches tasks
    · obtain ⟨tasks', rfl⟩ := hw
      obtain ⟨hsame, -⟩ := polls.keeps_waiting
      cases hsame
      exact Or.inl ⟨run, group, bs, next, hbefore⟩
    · replace hw : ∀ tasks, w ≠ .branches tasks := fun tasks hw' => hw ⟨tasks, hw'⟩
      obtain ⟨hspawn, hbs, htasks⟩ := polls.starts hw
      cases htasks
      refine Or.inr ⟨by simpa using hbs, fun n hn => ?_, run, group, bs, next, w, before, after,
        hbefore, hw, rfl, hlog⟩
      obtain ⟨hge, hlt⟩ := List.mem_range'_1.mp hn
      have hnone : o.task? (.branch n) = none := List.getElem?_eq_none hge
      have hne : TaskId.branch n ≠ t := by
        rintro rfl
        rw [hnone] at hbefore
        cases hbefore
      obtain ⟨i, rfl⟩ := Nat.exists_eq_add_of_le hge
      have hi : i < bs.length := by omega
      refine ⟨hnone, bs[i].program, ?_⟩
      refine (task?_setTask_of_ne _ _ hne).trans ?_
      rw [hspawn]
      exact task?_spawn (List.getElem?_eq_getElem hi)

/-- A task has just begun to wait for a branch that was left to its run. Nothing is left to that run
any more. -/
def Takes (o : Outline) (log : List Occurrence) (o' : Outline) (t : TaskId) (n : Nat) : Prop :=
  ∃ run token next tasks count before after,
    o'.task? t = some (.active (.perform (.settle run token) next) (.stragglers tasks count)) ∧
    n ∈ tasks ∧ n ∈ o.stragglers run ∧ o'.stragglers run = [] ∧
    log = [.poll ⟨t, .settle run token, none, before, after⟩]

/-- What a task waits for after a move: what it waited for before, what was left to a run, or
branches that it has just started. -/
theorem Advances.held (h : o.Advances config log o') (hn : n ∈ o'.held t) :
    n ∈ o.held t ∨ Takes o log o' t n ∨
      o.task? (.branch n) = none ∧ (o'.task? (.branch n)).isSome ∧
        ∃ e before after, log = [.poll ⟨t, e, none, before, after⟩] := by
  rcases held_cases hn with ⟨run, policy, group, bs, next, tasks, ht, hm⟩ |
    ⟨run, token, next, tasks, count, ht, hm⟩
  · rcases h.joining ⟨run, group, bs, next, ht⟩ with hsame |
      ⟨-, hnew, run, group, bs, next, w, before, after, -, -, -, hlog⟩
    · exact Or.inl (hsame.held ▸ hm)
    · obtain ⟨hnone, p, hp⟩ := hnew n hm
      exact Or.inr (Or.inr ⟨hnone, Option.isSome_of_eq_some hp, _, before, after, hlog⟩)
  · rcases h.wait_cases ht with hsame | hfresh | ⟨e, next', w, before, after, hp, hbefore, hlog, polls, ho⟩
    · rw [held_of_task? hsame]
      exact Or.inl hm
    · cases hfresh
    · cases hp
      have hafter : o'.stragglers run = (after.outline o.main).stragglers run := by
        rw [ho]
        exact setTask_stragglers _ _ _
      generalize after.outline o.main = o₁ at polls hafter
      cases polls with
      | @waitingFirst ended rest count hi split endedEnded =>
          refine Or.inl ?_
          have hpending : n ∈ w.pending := split ▸ List.mem_append_right _ hm
          rw [held_of_task? hbefore]
          cases w with
          | stragglers tasks count => exact hpending
          | _ => cases hpending
      | @waitingLater ended rest count hi pendingEnded split endedEnded =>
          refine Or.inr (Or.inl ⟨run, token, next, _, _, before, _, ht, hm, ?_, ?_, hlog⟩)
          · exact split ▸ List.mem_append_right _ hm
          · rw [hafter]
            refine stragglers_modifyRun_self _ (g := fun _ => []) (fun _ => rfl) ?_
            refine Nat.lt_of_not_le fun hle => ?_
            have hmem : n ∈ o.stragglers run := split ▸ List.mem_append_right _ hm
            rw [stragglers, List.getElem?_eq_none hle] at hmem
            cases hmem

/-- What is left to runs after a move was left to one before, or a task waited for it that has
just got an answer. -/
theorem Advances.left (h : o.Advances config log o') (hn : o'.Left n) :
    o.Left n ∨ ∃ t, n ∈ o.held t ∧ ∃ p, o'.task? t = some (.active p .fresh) := by
  cases h with
  | @answer t e next w a before after running active start polls =>
      obtain ⟨run, hn⟩ := hn
      rw [setTask_stragglers] at hn
      refine (polls.left next ⟨run, hn⟩).imp_right fun hheld => ⟨t, ?_, next a, ?_⟩
      · rw [held_of_task? active]
        exact hheld.2
      · exact task?_setTask_self _ _ (Option.isSome_of_eq_some (polls.task? active))
  | @wait t e next w w' before after running active start polls =>
      obtain ⟨run, hn⟩ := hn
      change n ∈ (setTask _ _ _).stragglers run at hn
      rw [setTask_stragglers] at hn
      refine Or.inl ((polls.left next ⟨run, hn⟩).resolve_right ?_)
      rintro ⟨⟨⟩, -⟩
  | @finish t a w running active order =>
      obtain ⟨run, hn⟩ := hn
      change n ∈ (setTask _ _ _).stragglers run at hn
      rw [setTask_stragglers] at hn
      exact Or.inl ⟨run, hn⟩
  | _ => exact Or.inl hn

structure Tended (o : Outline) : Prop where
  held {t : TaskId} {n : Nat} : n ∈ o.held t → (o.task? (.branch n)).isSome
  left {n : Nat} : o.Left n → (o.task? (.branch n)).isSome
  apart {t : TaskId} {n : Nat} : n ∈ o.held t → ¬ o.Left n ∧ ∀ u, n ∈ o.held u → u = t

theorem Takes.left (h : Takes o log o' t n) : o.Left n := by
  obtain ⟨run, token, next, tasks, count, before, after, -, -, hleft, -⟩ := h
  exact ⟨run, hleft⟩

/-- A branch that a task has just begun to wait for is not left to any run any more. -/
theorem Takes.not_left (h : Takes o log o' t n) {place' : TaskId → Residence}
    (hh' : Residence.Holds o' place') : ¬ o'.Left n := by
  obtain ⟨run, token, next, tasks, count, before, after, ht, hn, -, hnone, -⟩ := h
  rintro ⟨other, hm⟩
  obtain ⟨base, home, hb, -⟩ := hh'.settling ht hn
  obtain ⟨base', hb', -⟩ := hh'.left hm
  obtain ⟨rfl, -⟩ := Residence.branchOf_unique hb hb'
  rw [hnone] at hm
  cases hm

theorem Advances.tended (h : o.Advances config log o') {place' : TaskId → Residence}
    (hh' : Residence.Holds o' place') (ho : o.Tended) : o'.Tended where
  held hn := by
    rcases h.held hn with hheld | htakes | ⟨-, hsome, -⟩
    · exact h.isSome_task? (ho.held hheld)
    · exact h.isSome_task? (ho.left htakes.left)
    · exact hsome
  left hn := by
    rcases h.left hn with hleft | ⟨t, hheld, -⟩
    · exact h.isSome_task? (ho.left hleft)
    · exact h.isSome_task? (ho.held hheld)
  apart {t n} hn := by
    rcases h.held hn with hheld | htakes | ⟨hnone, -, e, m, m', hlog⟩
    · obtain ⟨hleft, honly⟩ := ho.apart hheld
      refine ⟨fun hm => ?_, fun u hu => ?_⟩
      · rcases h.left hm with hm | ⟨u, hu, p, hfresh⟩
        · exact hleft hm
        · obtain rfl := honly u hu
          rw [held_of_task? hfresh, TaskState.held_fresh] at hn
          cases hn
      · rcases h.held hu with hu | htakes | ⟨hnone, -⟩
        · exact honly u hu
        · exact absurd htakes.left hleft
        · have hsome := ho.held hheld
          rw [hnone] at hsome
          cases hsome
    · refine ⟨htakes.not_left hh', fun u hu => ?_⟩
      rcases h.held hu with hu | htakes' | ⟨hnone, -⟩
      · exact absurd htakes.left (ho.apart hu).1
      · obtain ⟨run, token, next, tasks, count, m, m', -, -, -, -, hlog⟩ := htakes
        obtain ⟨run', token', next', tasks', count', k, k', -, -, -, -, hlog'⟩ := htakes'
        rw [hlog] at hlog'
        cases hlog'
        rfl
      · have hsome := ho.left htakes.left
        rw [hnone] at hsome
        cases hsome
    · have hmissing : ¬ (o.task? (.branch n)).isSome := by simp [hnone]
      refine ⟨fun hm => ?_, fun u hu => ?_⟩
      · rcases h.left hm with hm | ⟨u, hu, -⟩
        · exact hmissing (ho.left hm)
        · exact hmissing (ho.held hu)
      · rcases h.held hu with hu | htakes | ⟨-, -, e', k, k', hlog'⟩
        · exact absurd (ho.held hu) hmissing
        · exact absurd (ho.left htakes.left) hmissing
        · rw [hlog] at hlog'
          cases hlog'
          rfl

end Outline

theorem Session.tended {config : Config} {log : List Occurrence} {s : System RunResult}
    (h : Session config log s) : s.outline.Tended := by
  obtain ⟨s₀, hs₀, hreaches⟩ := h
  have hinitial : s₀.outline.Tended := by
    obtain ⟨world, numbered⟩ := hs₀
    have hheld (t : TaskId) : (System.outline ⟨.new config world, .ended default 0⟩).held t = [] := by
      cases t <;> rfl
    refine ⟨fun hn => ?_, ?_, fun hn => ?_⟩
    · rw [hheld] at hn
      cases hn
    · rintro n ⟨run, hn⟩
      cases hn
    · rw [hheld] at hn
      cases hn
  have hsound := Residence.sound config
  obtain ⟨place, -, -, htended, -⟩ := hsound.along (K := fun _ o _ => o.Tended)
    (fun adv _ _ _ hh' _ ho => adv.tended hh' ho) hreaches (hsound.obedient_initial hs₀)
    (Residence.holds_initial hs₀) hinitial
  exact htended

/-! ## Who is awake -/

/-- A join has a reason to wait: a branch has not ended, and under the fail-fast policy none has
failed. -/
def Outline.Outstanding (o : Outline) (policy : JoinPolicy) (tasks : List Nat) : Prop :=
  (∃ n ∈ tasks, ¬ o.Ended n) ∧
    (policy = .failFast → ∀ n ∈ tasks, ∀ f k, o.branchResult? n ≠ some (.error f, k))

theorem Outline.Outstanding.of_eq {o o' : Outline} {policy : JoinPolicy} {tasks : List Nat}
    (h : o.Outstanding policy tasks)
    (hsame : ∀ n ∈ tasks, o'.branchResult? n = o.branchResult? n) : o'.Outstanding policy tasks := by
  obtain ⟨⟨n, hn, hunended⟩, hquiet⟩ := h
  refine ⟨⟨n, hn, ?_⟩, fun fast n hn f k => ?_⟩
  · rwa [Ended, hsame n hn]
  · rw [hsame n hn]
    exact hquiet fast n hn f k

/-- A task has nothing to wait for: its effect is answered at once, or starts branches. -/
def Effect.Due : Effect → Wait → Prop
  | .join _ _ _ _, w => ∀ tasks, w ≠ .branches tasks
  | e, _ => ¬ Outline.Waits e

namespace System

variable {config : Config} {s s' : System RunResult} {log : List Occurrence} {t : TaskId}

/-- The result of a branch stays as it is, except in the move in which the branch ends. -/
theorem Moves.branchResult? (h : s.Moves config log s') {n : Nat}
    (hm : .ended (.branch n) ∉ log) : s'.outline.branchResult? n = s.outline.branchResult? n := by
  have hiff {u : System RunResult} {r : Except Failure Json} {k : Nat} :
      u.outline.branchResult? n = some (r, k) ↔ u.task? (.branch n) = some (.ended r k) := by
    rw [Outline.branchResult?_eq_some, task?_outline]
  cases hbefore : s.outline.branchResult? n with
  | some result => exact hiff.mpr ((Reaches.single h).branch_ended (hiff.mp hbefore))
  | none =>
      cases hafter : s'.outline.branchResult? n with
      | none => rfl
      | some result =>
          refine absurd ((Reaches.single h).mem_of_ended (fun r k hr => ?_) (hiff.mp hafter)) hm
          rw [hiff.mpr hr] at hbefore
          cases hbefore

/-- A task with nothing to wait for is awake. The branches of a join that waits report to its task,
which is awake unless it has a reason to wait. -/
structure Attended (s : System RunResult) : Prop where
  due {t : TaskId} {e : Effect} {next : e.Answer → Program t.Result} {w : Wait} :
    s.task? t = some (.active (.perform e next) w) → e.Due w → s.machine.Awake t
  reports {t : TaskId} {policy : JoinPolicy} {tasks : List Nat} {n : Nat} :
    s.outline.Joining t policy tasks → n ∈ tasks → s.machine.waiter? n = some t
  awake {t : TaskId} {policy : JoinPolicy} {tasks : List Nat} :
    s.outline.Joining t policy tasks → s.machine.Awake t ∨ s.outline.Outstanding policy tasks

variable {policy : JoinPolicy} {tasks : List Nat} {n : Nat}

theorem Moves.not_joining {e : Effect} {a : e.Answer} {m m' : Machine}
    (h : s.Moves config [.poll ⟨t, e, some a, m, m'⟩] s') : ¬ s'.outline.Joining t policy tasks := by
  rintro ⟨run, group, bs, next, ht⟩
  obtain ⟨-, next', w, hw, -⟩ := h.polls_of_answer
  rw [task?_outline, h.goes_on ⟨w, hw⟩] at ht
  exact nomatch (TaskState.active.inj (Option.some.inj ht)).2

theorem Moves.still_reports (h : s.Moves config log s') (htended : s.outline.Tended)
    (hjoin : s.outline.Joining t policy tasks) (hjoin' : s'.outline.Joining t policy tasks)
    (hn : n ∈ tasks) (hreports : s.machine.waiter? n = some t) : s'.machine.waiter? n = some t := by
  obtain ⟨hleft, honly⟩ := htended.apart (hjoin.held.symm ▸ hn)
  refine (h.waiter (Machine.lt_of_waiter? hreports) ?_).trans hreports
  intro u e answer m m' next w hlog hu hconcerned
  rw [← task?_outline] at hu
  rcases Machine.concerns_cases hconcerned with
    ⟨tasks', run, policy', group, bs, rfl, rfl, hanswer, hm⟩ | ⟨run, token, rfl, hpending | hrun⟩
  · obtain ⟨joined, rfl⟩ := Option.isSome_iff_exists.mp hanswer
    obtain rfl := honly u (by rwa [Outline.held_of_task? hu])
    subst hlog
    exact h.not_joining hjoin'
  · cases w with
    | stragglers tasks' count =>
        obtain rfl := honly u (by rwa [Outline.held_of_task? hu])
        obtain ⟨run', group, bs, next', ht⟩ := hjoin
        cases ht.symm.trans hu
    | _ => cases hpending
  · refine hleft ⟨run, ?_⟩
    rwa [outline, Machine.stragglers_outline]

theorem Moves.outstanding {e : Effect} {m m' : Machine}
    (h : s.Moves config [.poll ⟨t, e, none, m, m'⟩] s') (hjoin : s'.outline.Joining t policy tasks) :
    s'.outline.Outstanding policy tasks := by
  rcases h.advances.joining hjoin with ⟨run, group, bs, next, ht⟩ | ⟨hsome, hnew, -⟩
  · obtain ⟨next', w, w', hw, -, hpolls⟩ := h.polls_of_wait
    rw [task?_outline] at ht
    cases ht.symm.trans hw
    obtain ⟨-, -, hunended, hquiet⟩ := hpolls.keeps_waiting
    have hreason : s.outline.Outstanding policy tasks := ⟨hunended, hquiet⟩
    exact hreason.of_eq fun n hn => h.branchResult? (by simp)
  · have hunended {n : Nat} (hn : n ∈ tasks) : s'.outline.branchResult? n = none := by
      obtain ⟨-, p, hp⟩ := hnew n hn
      simp only [Outline.task?] at hp
      simp [Outline.branchResult?, hp, TaskState.result?]
    obtain ⟨n, hn⟩ := List.exists_mem_of_ne_nil tasks hsome
    refine ⟨⟨n, hn, ?_⟩, fun _ n hn f k => ?_⟩
    · simp [Outline.Ended, hunended hn]
    · simp [hunended hn]

theorem Moves.still_awake (h : s.Moves config log s') (hs : s.Attended)
    (hjoin : s.outline.Joining t policy tasks) (hjoin' : s'.outline.Joining t policy tasks) :
    s'.machine.Awake t ∨ s'.outline.Outstanding policy tasks := by
  by_cases hrunning : s.machine.running = some t
  · obtain ⟨run, group, bs, next, ht⟩ := hjoin
    rw [task?_outline] at ht
    obtain ⟨m, m', turn, rfl, -, -⟩ := h.of_running hrunning ht
    cases turn with
    | answered joined => exact absurd hjoin' h.not_joining
    | waiting w => exact Or.inr (h.outstanding hjoin')
  · rcases hs.awake hjoin with hawake | hreason
    · exact Or.inl (h.awake hawake hrunning)
    · by_cases hends : ∃ n ∈ tasks, .ended (.branch n) ∈ log
      · obtain ⟨n, hn, hm⟩ := hends
        obtain rfl := h.advances.eq_singleton_of_mem hm
        exact Or.inl (h.wakes (hs.reports hjoin hn))
      · exact Or.inr (hreason.of_eq fun n hn => h.branchResult? fun hm => hends ⟨n, hn, hm⟩)

theorem Moves.due (h : s.Moves config log s') (hs : s.Attended) {e : Effect}
    {next : e.Answer → Program t.Result} {w : Wait}
    (ht : s'.task? t = some (.active (.perform e next) w)) (hdue : e.Due w) : s'.machine.Awake t := by
  have hprogress := h.advances.progress ((task?_outline t).trans ht)
  cases hprogress with
  | same before idle =>
      rw [task?_outline] at before
      exact h.awake (hs.due before hdue) idle
  | answered running => exact Or.inl running
  | told active poll polls result =>
      cases e with
      | join run policy group bs =>
          obtain ⟨tasks, rfl⟩ := polls.wait_of_join
          exact absurd rfl (hdue tasks)
      | _ => exact absurd polls.waits hdue
  | started active first poll new bound =>
      subst poll
      rw [task?_outline] at active
      have hsize : s.outline.branches.length = s.machine.branches.size := by
        simp [outline, Machine.outline]
      rw [hsize] at new bound
      exact (h.reports active first new bound).2
  | begun begins =>
      subst begins
      exact h.awake_main
  | submitted number flow inputs token =>
      exact absurd trivial hdue

theorem Moves.attended (h : s.Moves config log s') (htended : s.outline.Tended) (hs : s.Attended) :
    s'.Attended where
  due ht hdue := h.due hs ht hdue
  reports {t policy tasks n} hjoin hn := by
    rcases h.advances.joining hjoin with hsame |
      ⟨-, -, run, group, bs, next, w, before, after, ht, hw, rfl, rfl⟩
    · exact h.still_reports htended hsame hjoin hn (hs.reports hsame hn)
    · have hsize : s.outline.branches.length = s.machine.branches.size := by
        simp [outline, Machine.outline]
      obtain ⟨hge, hlt⟩ := List.mem_range'_1.mp hn
      rw [hsize] at hge hlt
      exact (h.reports ((task?_outline t).symm.trans ht) hw hge hlt).1
  awake {t policy tasks} hjoin := by
    rcases h.advances.joining hjoin with hsame |
      ⟨-, -, run, group, bs, next, w, before, after, -, -, -, rfl⟩
    · exact h.still_awake hs hsame hjoin
    · exact Or.inr (h.outstanding hjoin)

end System

theorem Session.attended {config : Config} {log : List Occurrence} {s : System RunResult}
    (h : Session config log s) : s.Attended := by
  obtain ⟨s₀, hs₀, hreaches⟩ := h
  induction hreaches with
  | refl =>
      obtain ⟨world, numbered⟩ := hs₀
      have hnone {t : TaskId} {policy : JoinPolicy} {tasks : List Nat} :
          ¬ (System.outline ⟨.new config world, .ended default 0⟩).Joining t policy tasks := by
        rintro ⟨run, group, bs, next, ht⟩
        cases t <;> cases ht
      refine ⟨fun {t e next w} ht _ => ?_, fun hjoin => absurd hjoin hnone,
        fun hjoin => absurd hjoin hnone⟩
      cases t <;> cases ht
  | move hbefore move ih => exact move.attended (Session.tended ⟨s₀, hs₀, hbefore⟩) ih

end FlowEngine
