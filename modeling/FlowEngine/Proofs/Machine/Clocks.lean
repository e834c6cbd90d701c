import FlowEngine.Proofs.Machine.Heeding
import FlowEngine.Proofs.Machine.Strikes

/-!
# The clock and its timers

A poll does not move the clock. It starts one timer at most, for the task that is polled or for a
deadline, and it stops one at most: the one that the task waits for, or a deadline.
-/
namespace FlowEngine

namespace Machine

def clock (m : Machine) : Nat × Nat × List Timer := (m.now, m.next, m.timers)

theorem clock_of_shared {m m' : Machine} (h : m'.shared = m.shared) : m'.clock = m.clock := by
  change m'.shared.clock = m.shared.clock
  rw [h]

theorem now_of_shared {m m' : Machine} (h : m'.shared = m.shared) : m'.now = m.now :=
  congrArg Prod.fst (clock_of_shared h)

theorem timers_of_shared {m m' : Machine} (h : m'.shared = m.shared) : m'.timers = m.timers :=
  congrArg (fun c => c.2.2) (clock_of_shared h)

variable (m : Machine)

/-! ## What leaves the clock as it is -/

theorem clock_wake (t : TaskId) : (m.wake t).clock = m.clock := clock_of_shared (m.shared_wake t)

theorem clock_wakeIfSome (t : Option TaskId) : (m.wakeIfSome t).clock = m.clock :=
  clock_of_shared (shared_wakeIfSome m t)

theorem outsider_clock : Outsider clock where
  observers _ _ := rfl
  branches _ _ := rfl
  stragglers _ _ _ := rfl
  wake := clock_wake

theorem clock_observe (token : Token) (t : TaskId) : (m.observe token t).clock = m.clock :=
  outsider_clock.observe m token t

theorem clock_cancel (token : Token) : (m.cancel token).clock = m.clock :=
  outsider_clock.cancel (fun _ _ => rfl) m token

theorem clock_ring (alarm : Alarm) : (m.ring alarm).clock = m.clock :=
  outsider_clock.ring (fun _ _ => rfl) m alarm

theorem clock_releasePermit (run : Nat) : (m.releasePermit run).clock = m.clock := by
  unfold releasePermit
  split
  · rfl
  · exact clock_wakeIfSome _ _

theorem clock_withdraw (run : Nat) (me : TaskId) : (m.withdraw run me).clock = m.clock := by
  unfold withdraw
  split
  · rfl
  · exact clock_wakeIfSome _ _

theorem clock_hangUp (request : Request) : (m.hangUp request).clock = m.clock := by
  cases request <;> rfl

theorem clock_mark (run : Nat) (step : String) (status : Option StepStatus) :
    (m.mark run step status).2.clock = m.clock := by
  unfold mark
  split <;> rfl

/-! ## Polls -/

inductive Winds (m : Machine) (me : TaskId) (wait : Wait) (e : Effect) :
    Turn e.Answer → Nat × Nat × List Timer → Prop where
  /-- The timers stay. Whoever has waited for one waits for it still, or it has fired. -/
  | leaves {turn : Turn e.Answer} {next : Nat} (counted : m.next ≤ next)
      (held : ∀ n, e.timer? wait = some n → turn.timer? = some n ∨ m.isPending n = false)
      (timed : ∀ n, turn.timer? = some n → e.timer? wait = some n) :
      Winds m me wait e turn (m.now, next, m.timers)
  | stops {a : e.Answer} (n : Nat) (owned : e.timer? wait = some n ∨ e = .stopDeadline n) :
      Winds m me wait e (.answered a) (m.stopTimer n).clock
  | starts {w : Wait} (span : Nat) (idle : e.timer? wait = none)
    (timed : e.timer? w = some m.next) :
      Winds m me wait e (.waiting w) (m.schedule span (.wake me)).2.clock
  | deadline {a : e.Answer} (token : Token) (limit : Millis)
    (starts : e = .startDeadline token limit)
      (started : e.Starts a m.next) :
      Winds m me wait e (.answered a) (m.schedule limit.toNat (.cancel token)).2.clock

namespace Winds

variable {m} {me : TaskId} {wait : Wait} {e : Effect} {turn : Turn e.Answer} {m' : Machine}

theorem of_eq (h : m'.clock = m.clock)
    (held : ∀ n, e.timer? wait = some n → turn.timer? = some n ∨ m.isPending n = false)
    (timed : ∀ n, turn.timer? = some n → e.timer? wait = some n) :
    Winds m me wait e turn m'.clock :=
  h ▸ .leaves (Nat.le_refl _) held timed

/-- An effect for which nobody waits for timers leaves the clock as it is. -/
theorem of_untimed (he : ∀ w, e.timer? w = none) (h : m'.clock = m.clock) :
    Winds m me wait e turn m'.clock := by
  have hturn : turn.timer? = none := timer?_eq_none he turn
  refine of_eq h (fun n hn => ?_) fun n hn => ?_
  · rw [he] at hn
    cases hn
  · rw [hturn] at hn
    cases hn

end Winds

section

variable {me : TaskId} {run : Nat} {token : Token} {request : Request} {wait : Wait}

theorem winds_answerRequest {m : Machine} (m' : Machine) (h : m'.clock = m.clock)
    (outcome : Outcome)
    (held : ∀ n, (Effect.request run token request).timer? wait = some n → m.isPending n = false) :
    Winds m me wait (.request run token request) (m'.answerRequest me run request outcome).turn
      (m'.answerRequest me run request outcome).machine.clock := by
  refine .of_eq ?_ (fun n hn => Or.inr (held n hn)) nofun
  exact (clock_releasePermit _ run).trans ((m'.clock_hangUp request).trans h)

theorem winds_abandonRequest {timer : Nat}
    (hheld : (Effect.request run token request).timer? wait = some timer) :
    Winds m me wait (.request run token request) (m.abandonRequest me run request timer).turn
      (m.abandonRequest me run request timer).machine.clock := by
  have hclock : (m.abandonRequest me run request timer).machine.clock = (m.stopTimer timer).clock :=
    (clock_releasePermit _ run).trans (clock_hangUp _ request)
  rw [hclock]
  exact .stops timer (Or.inl hheld)

theorem winds_startRequest {m m' : Machine} (h : m'.clock = m.clock)
    (hidle : (Effect.request run token request).timer? wait = none) :
    Winds m me wait (.request run token request) (m'.startRequest me run token request).turn
      (m'.startRequest me run token request).machine.clock := by
  have hnone (n : Nat) (hn : (Effect.request run token request).timer? wait = some n) :
      m.isPending n = false := by
    rw [hidle] at hn
    cases hn
  have hnext : m'.next = m.next := congrArg (fun c => c.2.1) h
  have hscheduled {u : Machine} (hu : u.clock = m.clock) (span : Nat) :
      ((u.schedule span (.wake me)).2.observe token me).clock =
        (m.schedule span (.wake me)).2.clock := by
    rw [clock_observe]
    simp only [clock, Prod.mk.injEq] at hu
    obtain ⟨hnow, hnext, htimers⟩ := hu
    simp only [schedule, clock, hnow, hnext, htimers]
  have hbegins := m'.startRequest_begins me run token request
  generalize m'.startRequest me run token request = polled at hbegins ⊢
  cases hbegins with
  | answers sink outcome => exact winds_answerRequest ((m'.forget me).modifyWorld _) h _ hnone
  | @calls f sink route target inputs call span outcome =>
      have hclock := hscheduled (u := (m'.forget me).modifyWorld f) h span
      rw [Polled.machine, hclock]
      exact .starts _ hidle (congrArg some hnext)
  | operates record span =>
      have hclock := hscheduled (u := m'.forget me) h span
      rw [Polled.machine, hclock]
      exact .starts _ hidle (congrArg some hnext)

theorem winds_pollRequest (me : TaskId) (run : Nat) (token : Token) (request : Request)
    (wait : Wait) :
    Winds m me wait (.request run token request) (m.pollRequest me run token request wait).turn
      (m.pollRequest me run token request wait).machine.clock := by
  have hidle {w : Wait} (first : w.asked = false) :
      (Effect.request run token request).timer? w = none :=
    (Effect.timer?_request run token request w).trans (Wait.awaited?_of_not_asked first)
  have hnone {w : Wait} {p : Nat → Prop} (first : w.asked = false) (n : Nat)
      (hn : (Effect.request run token request).timer? w = some n) : p n := by
    rw [hidle first] at hn
    cases hn
  have hfired {n : Nat} (fired : m.isPending n = false) (k : Nat) (hk : some n = some k) :
      m.isPending k = false := by
    cases hk
    exact fired
  have hpoll := m.pollRequest_requests me run token request wait
  generalize m.pollRequest me run token request wait = polled at hpoll ⊢
  cases hpoll with
  | refused first why => exact .of_eq rfl (hnone first) nofun
  | leaves cancelled =>
      have hclock : ((m.withdraw run me).forget me).clock = m.clock := m.clock_withdraw run me
      exact .of_eq hclock nofun nofun
  | abandoned awaited cancelled =>
      exact m.winds_abandonRequest ((Effect.timer?_request run token request _).trans awaited)
  | starts valid there taken =>
      refine winds_startRequest rfl ?_
      rcases taken with ⟨rfl, -⟩ | ⟨first, -⟩
      · rfl
      · exact hidle first
  | queues first valid there full =>
      exact .of_eq (clock_observe _ token me) (hnone first) nofun
  | queued valid nothing => exact .of_eq rfl nofun nofun
  | waits awaited valid pending => exact .of_eq rfl (fun n hn => Or.inl hn) fun n hn => hn
  | replied valid fired => exact winds_answerRequest m rfl _ (hfired fired)
  | @performed timer operation record valid fired =>
      exact winds_answerRequest (m := m) (m.operate operation).2 rfl _ (hfired fired)
  | unsuited call valid => exact .of_eq rfl (fun n hn => Or.inl hn) fun n hn => hn

end

theorem winds_pollSleep (me : TaskId) (token : Option Token) (span : Nat) (wait : Wait) :
    Winds m me wait (.sleep token span) (m.pollSleep me token span wait).turn
      (m.pollSleep me token span wait).machine.clock := by
  have hnone {w : Wait} {p : Nat → Prop} (first : ∀ timer, w ≠ .timer timer) (n : Nat)
      (hn : (Effect.sleep token span).timer? w = some n) : p n := by
    rw [Effect.timer?_sleep_of_ne first] at hn
    cases hn
  have hpoll := m.pollSleep_sleeps me token span wait
  generalize m.pollSleep me token span wait = polled at hpoll ⊢
  cases hpoll with
  | refused first cut => exact .of_eq rfl (hnone first) nofun
  | interrupted cut => exact .stops _ (Or.inl rfl)
  | instant first valid short => exact .of_eq rfl (hnone first) nofun
  | starts first valid long =>
      have hstarts : Winds m me wait (.sleep token span) (.waiting (.timer m.next)) _ :=
        .starts span (Effect.timer?_sleep_of_ne first) rfl
      cases token with
      | none => exact hstarts
      | some token => rwa [← clock_observe _ token me] at hstarts
  | waits valid pending => exact .of_eq rfl (fun n hn => Or.inl hn) fun n hn => hn
  | woken valid fired =>
      refine .of_eq rfl (fun n hn => Or.inr ?_) nofun
      cases hn
      exact fired

theorem clerical_clock : Clerical fun m m' => m'.clock = m.clock where
  refl _ := rfl
  trans h h' := h'.trans h
  modifyRun _ _ _ _ _ := rfl
  modifyWorld _ _ _ := rfl

/-- Every poll leaves the clock where it is, and what it does to the timers concerns the task that
is polled or a deadline. -/
theorem winds_poll (me : TaskId) (wait : Wait) (e : Effect) :
    Winds m me wait e (m.poll me wait e).turn (m.poll me wait e).machine.clock := by
  cases e with
  | request run token request => exact m.winds_pollRequest me run token request wait
  | sleep token span => exact m.winds_pollSleep me token span wait
  | startDeadline token limit => exact .deadline token limit rfl rfl
  | stopDeadline deadline => exact .stops deadline (Or.inr rfl)
  | childToken token => exact .leaves (Nat.le_succ _) nofun nofun
  | openRun flow parent => exact .leaves (Nat.le_succ _) nofun nofun
  | join run policy group bs =>
      exact .of_untimed (fun _ => rfl)
        (outsider_clock.pollJoin policy (fun _ => clock_cancel) m me run group bs wait)
  | settle run token =>
      exact .of_untimed (fun _ => rfl) (outsider_clock.pollSettle m me run token wait)
  | startSpan ctx step => exact .of_untimed (fun _ => rfl) (m.clock_mark ctx.run step none)
  | endSpan ctx step status =>
      exact .of_untimed (fun _ => rfl) (m.clock_mark ctx.run step (some status))
  | acquireSlot =>
      refine .of_untimed (fun _ => rfl) ?_
      simp only [poll, pollSlot]
      split <;> split <;> rfl
  | releaseSlot => exact .of_untimed (fun _ => rfl) (clock_wakeIfSome _ _)
  | awaitRun submission =>
      refine .of_untimed (fun _ => rfl) ?_
      simp only [poll, pollRun]
      split <;> rfl
  | _ => exact .of_untimed (fun _ => rfl) (clerical_clock.poll m me wait rfl)

theorem now_poll (me : TaskId) (wait : Wait) (e : Effect) :
    (m.poll me wait e).machine.now = m.now := by
  have hwinds := m.winds_poll me wait e
  generalize (m.poll me wait e).turn = turn,
    hclock : (m.poll me wait e).machine.clock = clock at hwinds
  have hnow := congrArg Prod.fst hclock
  cases hwinds <;> exact hnow

/-- A timer that belongs to no task is stopped only as a deadline. -/
theorem mem_timers_poll {m : Machine} {timers : TaskId → Option Nat} {deadlines : Nat → Prop}
    {me : TaskId} {wait : Wait} {e : Effect} {x : Timer} (htimes : m.Times timers deadlines)
    (hwait : timers me = e.timer? wait) (hd : deadlines x.number) (he : e ≠ .stopDeadline x.number)
    (hx : x ∈ m.timers) : x ∈ (m.poll me wait e).machine.timers := by
  have hwinds := m.winds_poll me wait e
  generalize (m.poll me wait e).turn = turn,
    hclock : (m.poll me wait e).machine.clock = clock at hwinds
  have htimers := congrArg (fun c => c.2.2) hclock
  change (m.poll me wait e).machine.timers = clock.2.2 at htimers
  rw [htimers]
  cases hwinds with
  | leaves counted held timed => exact hx
  | stops n owned =>
      refine List.mem_filter.mpr ⟨hx, decide_eq_true ?_⟩
      rintro rfl
      rcases owned with howned | rfl
      · obtain ⟨token, halarm⟩ := (htimes.deadline hd).2 x hx rfl
        cases halarm.symm.trans ((htimes.own (hwait.trans howned)).2 x hx rfl)
      · exact he rfl
  | starts span idle timed => exact List.mem_append_left _ hx
  | deadline token limit starts started => exact List.mem_append_left _ hx

/-- A timer that a task waits for is not stopped by others, nor while the task waits. -/
theorem mem_own_timers_poll {m : Machine} {timers : TaskId → Option Nat} {deadlines : Nat → Prop}
    {me t : TaskId} {wait : Wait} {e : Effect} {x : Timer} (htimes : m.Times timers deadlines)
    (hwait : timers me = e.timer? wait) (hown : timers t = some x.number)
    (hstop : ∀ d, e = .stopDeadline d → deadlines d)
    (hquiet : me = t → (m.poll me wait e).turn.answer? = none) (hx : x ∈ m.timers) :
    x ∈ (m.poll me wait e).machine.timers := by
  have hwinds := m.winds_poll me wait e
  generalize (m.poll me wait e).turn = turn,
    hclock : (m.poll me wait e).machine.clock = clock at hwinds hquiet
  have htimers := congrArg (fun c => c.2.2) hclock
  change (m.poll me wait e).machine.timers = clock.2.2 at htimers
  rw [htimers]
  have halarm : x.alarm = .wake t := (htimes.own hown).2 x hx rfl
  cases hwinds with
  | leaves counted held timed => exact hx
  | stops n owned =>
      refine List.mem_filter.mpr ⟨hx, decide_eq_true ?_⟩
      rintro rfl
      rcases owned with howned | rfl
      · cases halarm.symm.trans ((htimes.own (hwait.trans howned)).2 x hx rfl)
        exact Option.some_ne_none _ (hquiet rfl)
      · obtain ⟨token, hcancels⟩ := (htimes.deadline (hstop _ rfl)).2 x hx rfl
        cases halarm.symm.trans hcancels
  | starts span idle timed => exact List.mem_append_left _ hx
  | deadline token limit starts started => exact List.mem_append_left _ hx

/-! ## The next moment -/

theorem isCancelled_ring {token : Token} (alarm : Alarm)
    (h : m.isCancelled token = true ∨ alarm = .cancel token) :
    (m.ring alarm).isCancelled token = true := by
  cases alarm with
  | wake t =>
      have hsteady := (m.steady_wake t).isCancelled token
      exact hsteady.trans (h.resolve_right nofun)
  | cancel other =>
      rw [ring, isCancelled, cancelled_cancel, Token.isCancelled, List.any_cons, Bool.or_eq_true]
      rcases h with h | h
      · exact Or.inr h
      · cases h
        exact Or.inl (Token.covers_self token)

theorem isCancelled_rings {token : Token} (fired : List Timer)
    (h : m.isCancelled token = true ∨ ∃ x ∈ fired, x.alarm = .cancel token) :
    (fired.foldl (fun m x => m.ring x.alarm) m).isCancelled token = true := by
  induction fired generalizing m with
  | nil => exact h.resolve_right (by simp)
  | cons x rest ih =>
      refine ih (m.ring x.alarm) ?_
      rcases h with h | ⟨y, hy, halarm⟩
      · exact Or.inl (m.isCancelled_ring x.alarm (Or.inl h))
      · rcases List.mem_cons.mp hy with rfl | hy
        · exact Or.inl (m.isCancelled_ring y.alarm (Or.inr halarm))
        · exact Or.inr ⟨y, hy, halarm⟩

theorem now_rings (fired : List Timer) :
    (fired.foldl (fun m x => m.ring x.alarm) m).now = m.now := by
  induction fired generalizing m with
  | nil => rfl
  | cons x rest ih => exact (ih (m.ring x.alarm)).trans (congrArg Prod.fst (m.clock_ring x.alarm))

/-- The clock moves to the time of the first timer. Later timers stay, and a deadline that has come
cancels its token. -/
theorem advanceClock?_cases {m m' : Machine} (h : m.advanceClock? = some m') {x : Timer}
    (hx : x ∈ m.timers) : m'.now ≤ x.due ∧ (x ∈ m'.timers ∨ m'.now = x.due ∧
      ∀ token, x.alarm = .cancel token → m'.isCancelled token = true) := by
  unfold advanceClock? at h
  obtain ⟨due, hdue, h⟩ := Option.bind_eq_some_iff.mp h
  have hle : due ≤ x.due := (List.min?_eq_some_iff.mp hdue).2 _ (List.mem_map_of_mem hx)
  rw [List.partition_eq_filter_filter] at h
  obtain rfl := Option.some.inj h
  refine ⟨Nat.le_trans (Nat.le_of_eq (now_rings _ _)) hle, ?_⟩
  by_cases hcome : x.due = due
  · refine Or.inr ⟨(now_rings _ _).trans hcome.symm, fun token halarm => isCancelled_rings _ _ ?_⟩
    exact Or.inr ⟨x, List.mem_filter.mpr ⟨hx, decide_eq_true hcome⟩, halarm⟩
  · rw [(rings _ _).2.1]
    exact Or.inl (List.mem_filter.mpr ⟨hx, by simpa using hcome⟩)

/-- The timers that are left when the clock has moved are for other times. -/
theorem due_ne_of_advanceClock? {m m' : Machine} (h : m.advanceClock? = some m') {x : Timer}
    (hx : x ∈ m'.timers) : x.due ≠ m'.now := by
  unfold advanceClock? at h
  obtain ⟨due, hdue, h⟩ := Option.bind_eq_some_iff.mp h
  rw [List.partition_eq_filter_filter] at h
  obtain rfl := Option.some.inj h
  rw [(rings _ _).2.1] at hx
  rw [now_rings]
  simpa using (List.mem_filter.mp hx).2

end Machine
end FlowEngine
