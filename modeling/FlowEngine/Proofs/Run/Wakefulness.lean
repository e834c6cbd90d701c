import FlowEngine.Proofs.Machine.Heeding
import FlowEngine.Proofs.Run.Deadlines
import FlowEngine.Proofs.Run.Waiting
import FlowEngine.Proofs.Session.Polled

/-!
# Nobody misses what it waits for

In a session a task is awake, or it waits in the way of its effect: under a token that was not
cancelled, for a timer that is pending, or for a branch that has not ended and will tell it.
-/
namespace FlowEngine

/-! ## Reading the tasks that wait -/

section

variable {β : Type} {f : Effect → Wait → Option β}

def TaskState.reading {α : Type} (f : Effect → Wait → Option β) : TaskState α → Option β
  | active (.perform e _) w => f e w
  | _ => none

theorem TaskState.reading_fresh {α : Type} (hf : ∀ e, f e .fresh = none) (p : Program α) :
    (active p .fresh).reading f = none := by
  cases p with
  | pure a => rfl
  | perform e next => exact hf e

namespace System

variable {config : Config} {s s' : System RunResult} {log : List Occurrence} {t : TaskId}

def reading (f : Effect → Wait → Option β) (s : System RunResult) (t : TaskId) : Option β :=
  (s.task? t).bind (TaskState.reading f)

theorem reading_of_active {e : Effect} {next : e.Answer → Program t.Result} {w : Wait}
    (h : s.task? t = some (.active (.perform e next) w)) : s.reading f t = f e w := by
  rw [reading, h]
  rfl

theorem active_of_reading {b : β} (h : s.reading f t = some b) :
    ∃ e next w, s.task? t = some (.active (.perform e next) w) := by
  obtain ⟨state, ht, hb⟩ := Option.bind_eq_some_iff.mp h
  cases state with
  | ended a order => cases hb
  | active p w =>
      cases p with
      | pure a => cases hb
      | perform e next => exact ⟨e, next, w, ht⟩

/-- A poll changes only what is told about the task that is polled. -/
theorem Polls.reading (hf : ∀ e, f e .fresh = none) {e : Effect}
    {next : e.Answer → Program t.Result} {w : Wait} (h : s.Polls t e next w s') :
    s'.reading f = Function.update (s.reading f) t
      (((s.machine.poll t w e).turn.state next).reading f) := by
  funext u
  by_cases hu : u = t
  · subst hu
    rw [Function.update_self, System.reading, h.result]
    rfl
  · rw [Function.update_of_ne hu, System.reading, System.reading]
    rcases h.others hu with hsame | ⟨hnone, -, hfresh⟩
    · rw [hsame]
    · rw [hnone]
      cases hs : s'.task? u with
      | none => rfl
      | some state =>
          obtain ⟨p, rfl⟩ := hfresh state hs
          exact TaskState.reading_fresh hf p

theorem Unpolled.reading (hf : ∀ e, f e .fresh = none) (h : s.Unpolled log s') :
    s'.reading f = s.reading f := by
  funext u
  rw [System.reading, System.reading]
  rcases h.tasks u with hsame | ⟨hidle, hfresh⟩
  · rw [hsame]
  · have hbefore : (s.task? u).bind (TaskState.reading f) = none := by
      cases hs : s.task? u with
      | none => rfl
      | some state =>
          cases state with
          | ended a order => rfl
          | active p w =>
              cases p with
              | pure a => rfl
              | perform e next => exact absurd hs (hidle e next w)
    rw [hbefore]
    cases hs : s'.task? u with
    | none => rfl
    | some state =>
        cases state with
        | ended a order => rfl
        | active p w =>
            obtain rfl := hfresh p w hs
            exact TaskState.reading_fresh hf p

end System
end

namespace System

variable {config : Config} {s s' : System RunResult} {log : List Occurrence} {t : TaskId}

def tokens (s : System RunResult) : TaskId → Option Token := s.reading Effect.token?

def timers (s : System RunResult) : TaskId → Option Nat := s.reading Effect.timer?

theorem Polls.tokens {e : Effect} {next : e.Answer → Program t.Result} {w : Wait}
    (h : s.Polls t e next w s') :
    s'.tokens = Function.update s.tokens t (s.machine.poll t w e).turn.token? := by
  refine (h.reading Effect.token?_fresh).trans (congrArg _ ?_)
  cases (s.machine.poll t w e).turn with
  | answered a => exact TaskState.reading_fresh Effect.token?_fresh (next a)
  | waiting w' => rfl

theorem Polls.timers {e : Effect} {next : e.Answer → Program t.Result} {w : Wait}
    (h : s.Polls t e next w s') :
    s'.timers = Function.update s.timers t (s.machine.poll t w e).turn.timer? := by
  refine (h.reading Effect.timer?_fresh).trans (congrArg _ ?_)
  cases (s.machine.poll t w e).turn with
  | answered a => exact TaskState.reading_fresh Effect.timer?_fresh (next a)
  | waiting w' => rfl

/-! ## How tasks wait -/

/-- A task that is not awake waits in the way of its effect, unless it has still to ask for a slot. -/
def Suited (s : System RunResult) : Prop :=
  ∀ t p w, s.task? t = some (.active p w) →
    w = .fresh ∧ (s.machine.Awake t ∨ ∃ next, p = .perform .acquireSlot next) ∨
      ∃ e next, p = .perform e next ∧ e.Suits w

theorem Suited.suits (h : s.Suited) {e : Effect} {next : e.Answer → Program t.Result} {w : Wait}
    (ht : s.task? t = some (.active (.perform e next) w)) : w = .fresh ∨ e.Suits w := by
  rcases h t _ w ht with ⟨hfresh, -⟩ | ⟨e', next', he, hsuits⟩
  · exact Or.inl hfresh
  · cases he
    exact Or.inr hsuits

theorem Moves.suited (h : s.Moves config log s') (hs : s.Suited) : s'.Suited := by
  intro t p w ht
  have hprogress := h.advances.progress ((task?_outline t).trans ht)
  cases hprogress with
  | same before idle =>
      rw [task?_outline] at before
      refine (hs t p w before).imp_left fun hfresh => ⟨hfresh.1, hfresh.2.imp_left fun hawake => ?_⟩
      exact h.awake hawake idle
  | answered running => exact Or.inl ⟨rfl, Or.inl (Or.inl running)⟩
  | told active poll polls result =>
      subst poll
      obtain ⟨next', w₀, hpolled, hp, hturn⟩ := h.waits_of_poll ht
      cases hp
      exact Or.inr ⟨_, _, rfl, (Machine.rests_poll (hs.suits hpolled.active) hturn).suits⟩
  | started active first poll new bound =>
      subst poll
      rw [task?_outline] at active
      have hsize : s.outline.branches.length = s.machine.branches.size := by
        simp [outline, Machine.outline]
      rw [hsize] at new bound
      exact Or.inl ⟨rfl, Or.inl (h.reports active first new bound).2⟩
  | begun begins =>
      subst begins
      exact Or.inl ⟨rfl, Or.inl h.awake_main⟩
  | submitted number flow inputs token =>
      exact Or.inl ⟨rfl, Or.inr ⟨_, Execution.submitted_eq ..⟩⟩

/-! ## Tasks that settle -/

/-- The branch that a task waits for when it settles has not ended, and it reports to the task,
unless the task is awake. -/
def Settling (s : System RunResult) : Prop :=
  ∀ t run token next n rest count, s.task? t =
    some (.active (.perform (.settle run token) next) (.stragglers (n :: rest) count)) →
      s.machine.Awake t ∨ ¬ s.outline.Ended n ∧ s.machine.waiter? n = some t

theorem lt_of_branch {n : Nat} (h : (s.outline.task? (.branch n)).isSome) :
    n < s.machine.branches.size := by
  obtain ⟨state, hstate⟩ := Option.isSome_iff_exists.mp h
  have hlt := (List.getElem?_eq_some_iff.mp hstate).1
  simpa [outline, Machine.outline] using hlt

/-- A branch that a task waits for reports to the same task as before while others have their turn. -/
theorem Moves.waiter_of_held (h : s.Moves config log s') (htended : s.outline.Tended) {n : Nat}
    (hn : n ∈ s.outline.held t) (idle : s.machine.running ≠ some t) :
    s'.machine.waiter? n = s.machine.waiter? n := by
  obtain ⟨hleft, honly⟩ := htended.apart hn
  refine h.waiter (lt_of_branch (htended.held hn)) fun u e answer m m' next w hlog hu hconcerned => ?_
  have hut : u ≠ t := by
    rintro rfl
    subst hlog
    obtain ⟨-, next', w', polls⟩ := h.polls_of_poll
    exact idle polls.running
  rw [← task?_outline] at hu
  refine hut (honly u ?_)
  rw [Outline.held_of_task? hu]
  rcases Machine.concerns_cases hconcerned with
    ⟨tasks, run, policy, group, bs, rfl, rfl, -, hm⟩ | ⟨run, token, rfl, hm | hm⟩
  · exact hm
  · exact (Residence.held_settle run token next w).symm ▸ hm
  · refine absurd ⟨run, ?_⟩ hleft
    rwa [outline, Machine.stragglers_outline]

theorem Moves.settling (h : s.Moves config log s') (htended : s.outline.Tended) (hs : s.Settling) :
    s'.Settling := by
  intro t run token next n rest count ht
  have hprogress := h.advances.progress ((task?_outline t).trans ht)
  cases hprogress with
  | same before idle =>
      have hheld : n ∈ s.outline.held t := by
        rw [Outline.held_of_task? before]
        exact List.mem_cons_self
      rw [task?_outline] at before
      rcases hs t run token next n rest count before with hawake | ⟨hunended, hreports⟩
      · exact Or.inl (h.awake hawake idle)
      · by_cases hends : .ended (.branch n) ∈ log
        · obtain rfl := h.advances.eq_singleton_of_mem hends
          exact Or.inl (h.wakes hreports)
        · refine Or.inr ⟨?_, (h.waiter_of_held htended hheld idle).trans hreports⟩
          rwa [Outline.Ended, h.branchResult? hends]
  | told active poll polls result =>
      subst poll
      obtain ⟨next', w', hpolled, hp, hturn⟩ := h.waits_of_poll ht
      cases hp
      obtain ⟨k, others, number, hwait, hk, hresult, hreports, -⟩ :=
        Machine.pollSettle_waiting hturn
      cases hwait
      have hactive := (task?_outline t).trans hpolled.active
      have hthere : (s.outline.task? (.branch n)).isSome := by
        rcases List.mem_append.mp hk with hk | hk
        · refine htended.held (t := t) ?_
          rw [Outline.held_of_task? hactive]
          exact (Residence.held_settle run token next w').symm ▸ hk
        · refine htended.left ⟨run, ?_⟩
          rwa [outline, Machine.stragglers_outline]
      refine Or.inr ⟨?_, hpolled.reports (hreports (lt_of_branch hthere))⟩
      rw [Outline.Ended, h.branchResult? (by simp), outline, Machine.branchResult?_outline, hresult]
      simp

/-! ## What wakes them -/

theorem Polls.watches {e : Effect} {next : e.Answer → Program t.Result} {w : Wait}
    (h : s.Polls t e next w s') (hs : s.Suited) (hw : s.machine.Watches s.tokens) :
    s'.machine.Watches s'.tokens := by
  have hpoll := hw.poll (reading_of_active h.active) (hs.suits h.active)
  rw [← h.tokens] at hpoll
  refine hpoll.pass (Machine.alerts_of_shared h.shared) fun u token hu hcancelled hawake => ?_
  refine h.awake hawake (or_iff_not_imp_left.mpr fun hut => ?_)
  obtain rfl := not_not.mp hut
  rw [h.tokens, Function.update_self] at hu
  cases hturn : (s.machine.poll u w e).turn with
  | answered a => rfl
  | waiting w' =>
      rw [hturn] at hu
      have hvalid := (Machine.rests_poll (hs.suits h.active) hturn).valid hu
      rw [hvalid] at hcancelled
      cases hcancelled

theorem Polls.times {e : Effect} {next : e.Answer → Program t.Result} {w : Wait}
    {deadlines deadlines' : Nat → Prop} (h : s.Polls t e next w s') (hs : s.Suited)
    (ht : s.machine.Times s.timers deadlines) (hstop : ∀ d, e = .stopDeadline d → deadlines d)
    (hstart : ∀ d, deadlines' d → deadlines d ∨
      ∃ a, (s.machine.poll t w e).turn.answer? = some a ∧ e.Starts a d) :
    s'.machine.Times s'.timers deadlines' := by
  have hpoll := ht.poll (reading_of_active h.active) hstop
  rw [← h.timers] at hpoll
  have htimers := congrArg (fun a => a.2.2) (Machine.alerts_of_shared h.shared)
  have hnext := Machine.next_of_shared h.shared
  refine (hpoll.pass htimers (Nat.le_of_eq hnext.symm) fun u n hu hfired hawake => ?_).fewer hstart
  refine h.awake hawake (or_iff_not_imp_left.mpr fun hut => ?_)
  obtain rfl := not_not.mp hut
  rw [h.timers, Function.update_self] at hu
  cases hturn : (s.machine.poll u w e).turn with
  | answered a => rfl
  | waiting w' =>
      rw [hturn] at hu
      obtain ⟨x, hx, hn⟩ := (Machine.rests_poll (hs.suits h.active) hturn).pending hu
      exact absurd hn (hfired x hx)

theorem Unpolled.watches (h : s.Unpolled log s') (hw : s.machine.Watches s.tokens) :
    s'.machine.Watches s'.tokens := by
  have htokens : s'.tokens = s.tokens := h.reading Effect.token?_fresh
  have hpass (halerts : s'.machine.alerts = s.machine.alerts) : s'.machine.Watches s.tokens := by
    refine hw.pass halerts fun t token ht _ hawake => ?_
    obtain ⟨e, next, w, hactive⟩ := active_of_reading ht
    exact h.awake hactive hawake
  rw [htokens]
  have hpasses := h.machine
  generalize s'.machine = m at hpasses hpass
  cases hpasses with
  | same shared => exact hpass (Machine.alerts_of_shared shared)
  | counted shared => exact hpass ((Machine.alerts_of_shared shared).trans rfl)
  | cancelled token => exact hw.cancel token
  | scheduled span token => exact hw.of_timers
  | clock hclock => exact hw.advanceClock? hclock

theorem Unpolled.times {deadlines : Nat → Prop} (h : s.Unpolled log s')
    (ht : s.machine.Times s.timers deadlines) : s'.machine.Times s'.timers deadlines := by
  have htimers : s'.timers = s.timers := h.reading Effect.timer?_fresh
  have hpass (halerts : s'.machine.alerts = s.machine.alerts)
      (hnext : s.machine.next ≤ s'.machine.next) : s'.machine.Times s.timers deadlines := by
    refine ht.pass (congrArg (fun a => a.2.2) halerts) hnext fun t n hn _ hawake => ?_
    obtain ⟨e, next, w, hactive⟩ := active_of_reading hn
    exact h.awake hactive hawake
  rw [htimers]
  have hpasses := h.machine
  generalize s'.machine = m at hpasses hpass
  cases hpasses with
  | same shared =>
      exact hpass (Machine.alerts_of_shared shared) (Nat.le_of_eq (Machine.next_of_shared shared).symm)
  | counted shared =>
      refine hpass ((Machine.alerts_of_shared shared).trans rfl) ?_
      rw [Machine.next_of_shared shared]
      exact Nat.le_succ _
  | cancelled token => exact ht.cancel token
  | scheduled span token => exact (ht.startDeadline span token).fewer fun d => Or.inl
  | clock hclock => exact ht.advanceClock? hclock

end System

/-! ## Sessions -/

namespace Session

variable {config : Config} {log : List Occurrence} {s : System RunResult}

theorem suited (h : Session config log s) : s.Suited := by
  obtain ⟨s₀, ⟨world, numbered⟩, hreaches⟩ := h
  induction hreaches with
  | refl =>
      intro t p w ht
      cases t <;> cases ht
  | move before move ih => exact move.suited ih

theorem settling (h : Session config log s) : s.Settling := by
  obtain ⟨s₀, hs₀, hreaches⟩ := h
  induction hreaches with
  | refl =>
      obtain ⟨world, numbered⟩ := hs₀
      intro t run token next n rest count ht
      cases t <;> cases ht
  | move before move ih => exact move.settling (Session.tended ⟨s₀, hs₀, before⟩) ih

/-- In a session the tasks that wait under tokens are listed there. -/
theorem watches (h : Session config log s) : s.machine.Watches s.tokens := by
  obtain ⟨s₀, hs₀, hreaches⟩ := h
  induction hreaches with
  | refl =>
      obtain ⟨world, numbered⟩ := hs₀
      refine ⟨nofun, nofun, fun {token t} ht => ?_⟩
      cases t <;> cases ht
  | @move log more u v before move ih =>
      have hsuited := Session.suited ⟨s₀, hs₀, before⟩
      rcases move.polled_or_unpolled with ⟨t, e, next, w, polls, -⟩ | unpolled
      · exact polls.watches hsuited ih
      · exact unpolled.watches ih

/-- In a session the tasks that wait for timers have one that is pending, unless they are awake. -/
theorem times (h : Session config log s) : s.machine.Times s.timers (Deadlines log) := by
  obtain ⟨s₀, hs₀, hreaches⟩ := h
  induction hreaches with
  | refl =>
      obtain ⟨world, numbered⟩ := hs₀
      refine ⟨nofun, fun {t n} ht => ?_, fun {t n} ht => ?_, ?_⟩
      · cases t <;> cases ht
      · cases t <;> cases ht
      · rintro n ⟨t, e, a, m, m', hm, -⟩
        cases hm
  | @move log more s s' before move ih =>
      have hsession : Session config log s := ⟨s₀, hs₀, before⟩
      rcases move.polled_or_unpolled with ⟨t, e, next, w, polls, rfl⟩ | unpolled
      · refine polls.times hsession.suited ih ?_ ?_
        · exact (hsession.redeems ⟨w, polls.active⟩).1
        · rintro d ⟨t', e', a, m, m', hm, hd⟩
          rcases List.mem_append.mp hm with hm | hm
          · exact Or.inl ⟨t', e', a, m, m', hm, hd⟩
          · generalize (s.machine.poll t w e).turn.answer? = answer at hm
            cases List.mem_singleton.mp hm
            exact Or.inr ⟨a, rfl, hd⟩
      · refine (unpolled.times ih).fewer ?_
        rintro d ⟨t, e, a, m, m', hm, hd⟩
        refine ⟨t, e, a, m, m', (List.mem_append.mp hm).resolve_right (unpolled.quiet _), hd⟩

end Session
end FlowEngine
