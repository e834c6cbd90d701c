import FlowEngine.Proofs.Run.Timeliness

/-!
# Waiting for time

A task that waits for a span of time goes on exactly when the span is over: the timer that it starts
is stopped by nobody else, and when it fires the task is awake, so that the clock stays until the
task has had its turn. Only a cancellation ends the wait before.
-/
namespace FlowEngine

/-- The timer with a number fires at a time: it is pending until then, and no time passes after it. -/
structure Machine.FiresAt (m : Machine) (n due : Nat) : Prop where
  on {x : Timer} : x ∈ m.timers → x.number = n → x.due = due
  pending : m.isPending n = true → m.now ≤ due
  fired : m.isPending n = false → m.now = due

theorem Machine.FiresAt.le {m : Machine} {n due : Nat} (h : m.FiresAt n due) : m.now ≤ due := by
  cases hpending : m.isPending n with
  | true => exact h.pending hpending
  | false => exact Nat.le_of_eq (h.fired hpending)

namespace Machine

variable {m : Machine} {t : TaskId} {token : Option Token} {span : Nat}

/-- A wait for time that is interrupted ends at once, and so does one for no time. Any other one
begins with a timer. -/
theorem poll_sleep_fresh (h : (m.poll t .fresh (.sleep token span)).turn.answer? = none) :
    (m.poll t .fresh (.sleep token span)).turn = .waiting (.timer m.next) ∧
      (m.poll t .fresh (.sleep token span)).machine.clock = (m.schedule span (.wake t)).2.clock := by
  have hpoll : m.Sleeps t token span .fresh (m.poll t .fresh (.sleep token span)) :=
    m.pollSleep_sleeps t token span .fresh
  generalize m.poll t .fresh (.sleep token span) = polled at hpoll h ⊢
  cases hpoll with
  | refused | instant => cases h
  | starts first valid long =>
      refine ⟨rfl, ?_⟩
      cases token with
      | none => rfl
      | some token => exact clock_observe _ token t

theorem poll_sleep_timer {n : Nat}
    (h : (m.poll t (.timer n) (.sleep token span)).turn.answer? = none) :
    (m.poll t (.timer n) (.sleep token span)).turn = .waiting (.timer n) := by
  have hpoll : m.Sleeps t token span (.timer n) (m.poll t (.timer n) (.sleep token span)) :=
    m.pollSleep_sleeps t token span (.timer n)
  generalize m.poll t (.timer n) (.sleep token span) = polled at hpoll h ⊢
  cases hpoll with
  | refused | interrupted | instant | woken => cases h
  | starts first => exact absurd rfl (first n)
  | waits => rfl

/-- A wait for time is answered by whether nothing interrupts it. If nothing does, it was for no time
or its timer has fired. -/
theorem poll_sleep_answered {w : Wait} {answer : Bool}
    (h : (m.poll t w (.sleep token span)).turn.answer? = some answer) :
    answer = !m.interrupts token ∧ (m.poll t w (.sleep token span)).machine.cancelled = m.cancelled ∧
      (answer = true → (∀ n, w = .timer n → m.isPending n = false) ∧ (w = .fresh → span = 0)) := by
  have hpoll : m.Sleeps t token span w (m.poll t w (.sleep token span)) :=
    m.pollSleep_sleeps t token span w
  generalize m.poll t w (.sleep token span) = polled at hpoll h ⊢
  cases hpoll with
  | starts | waits => cases h
  | refused first cut | interrupted cut =>
      cases h
      exact ⟨by rw [cut]; rfl, rfl, nofun⟩
  | instant first valid short =>
      cases h
      exact ⟨by rw [valid]; rfl, rfl, fun _ => ⟨fun n hn => absurd hn (first n), fun _ => short⟩⟩
  | woken valid fired =>
      cases h
      refine ⟨by rw [valid]; rfl, rfl, fun _ => ⟨?_, nofun⟩⟩
      rintro k ⟨⟩
      exact fired

end Machine

/-- A task that does nothing in a poll of its own gets no answer. -/
theorem unanswered_of_quiet {t : TaskId} {e : Effect} {answer : Option e.Answer} {m m' : Machine}
    (h : deedsOf t [.poll ⟨t, e, answer, m, m'⟩] = []) : answer = none := by
  cases answer with
  | none => rfl
  | some a => simp [deedsOf] at h

namespace System

variable {config : Config} {log more : List Occurrence} {s s' : System RunResult} {t : TaskId}
  {token : Option Token} {span : Nat}

/-- A timer that a task waits for stays while the task gets no answer, unless the clock moves. -/
theorem Moves.mem_own_timers (h : s.Moves config more s') (hsession : Session config log s)
    {x : Timer} (hx : x ∈ s.machine.timers) (hown : s.timers t = some x.number)
    (hquiet : deedsOf t more = []) :
    x ∈ s'.machine.timers ∨ s.machine.advanceClock? = some s'.machine := by
  rcases h.polled_or_unpolled with ⟨u, e, next, w, polls, rfl⟩ | unpolled
  · rw [Machine.timers_of_shared polls.shared]
    refine Or.inl (Machine.mem_own_timers_poll hsession.times (reading_of_active polls.active) hown
      (hsession.redeems ⟨w, polls.active⟩).1 ?_ hx)
    rintro rfl
    exact unanswered_of_quiet hquiet
  · exact (unpolled.mem_timers hx).imp_right And.left

theorem Moves.firesAt {n due : Nat} (h : s.Moves config more s') (hsession : Session config log s)
    (hown : s.timers t = some n) (hquiet : deedsOf t more = []) (hfires : s.machine.FiresAt n due) :
    s'.machine.FiresAt n due := by
  have hlt : n < s.machine.next := (hsession.times.own hown).1
  have hold {x : Timer} (hx : x ∈ s'.machine.timers) (hn : x.number = n) : x ∈ s.machine.timers :=
    (h.timer hx).resolve_right (by omega)
  refine ⟨fun hx hn => hfires.on (hold hx hn) hn, fun hpending => ?_, fun hgone => ?_⟩
  · obtain ⟨x, hx, hn⟩ := Machine.exists_of_isPending hpending
    have hxs := hold hx hn
    rcases h.now with hnow | ⟨hclock, -⟩
    · exact Nat.le_trans (Nat.le_of_eq hnow) hfires.le
    · exact Nat.le_trans (Machine.advanceClock?_cases hclock hxs).1 (Nat.le_of_eq (hfires.on hxs hn))
  · have hnot {x : Timer} (hn : x.number = n) : x ∉ s'.machine.timers := fun hx => by
      have hpending : s'.machine.isPending n = true := List.any_eq_true.mpr ⟨x, hx, decide_eq_true hn⟩
      rw [hgone] at hpending
      cases hpending
    cases hpending : s.machine.isPending n with
    | true =>
        obtain ⟨x, hx, rfl⟩ := Machine.exists_of_isPending hpending
        rcases h.mem_own_timers hsession hx hown hquiet with hstays | hclock
        · exact absurd hstays (hnot rfl)
        · obtain ⟨-, hstays | ⟨hnow, -⟩⟩ := Machine.advanceClock?_cases hclock hx
          · exact absurd hstays (hnot rfl)
          · exact hnow.trans (hfires.on hx rfl)
    | false =>
        have hawake : s.machine.Awake t := by
          refine (hsession.times.timed hown).resolve_left ?_
          rintro ⟨x, hx, hn⟩
          have hthere : s.machine.isPending n = true :=
            List.any_eq_true.mpr ⟨x, hx, decide_eq_true hn⟩
          rw [hpending] at hthere
          cases hthere
        rcases h.now with hnow | ⟨-, hasleep⟩
        · exact hnow.trans (hfires.fired hpending)
        · exact absurd hawake (hasleep t)

end System

namespace Session

variable {config : Config} {before log : List Occurrence} {u w w' : System RunResult} {t : TaskId}
  {token : Option Token} {span : Nat} {next : Bool → Program t.Result}

/-- A task that has come to a wait waits for a timer that fires when the wait is over. -/
theorem sleeps (hs : Session config before u) (running : u.machine.running = some t)
    (hu : u.task? t = some (.active (.perform (.sleep token span) next) .fresh))
    (hr : u.Reaches config log w) (hquiet : deedsOf t log = []) :
    w = u ∨ ∃ n, w.task? t = some (.active (.perform (.sleep token span) next) (.timer n)) ∧
      w.machine.FiresAt n (u.machine.now + span) := by
  induction hr with
  | refl => exact Or.inl rfl
  | @move l more v v' before' move ih =>
      obtain ⟨hl, hmore⟩ := before'.unanswered ⟨_, hu⟩ hquiet
      have hsession := hs.reaches before'
      rcases ih hl with rfl | ⟨n, hv, hfires⟩
      · obtain ⟨t', e, next', w₀, polls, rfl⟩ | unpolled := move.polled_or_unpolled
        · obtain rfl := Option.some.inj (polls.running.symm.trans running)
          cases hu.symm.trans polls.active
          obtain ⟨hturn, hclock⟩ := Machine.poll_sleep_fresh (unanswered_of_quiet hmore)
          have hresult := polls.result
          rw [hturn] at hresult
          refine Or.inr ⟨v.machine.next, hresult, ?_⟩
          have hshared := (Machine.clock_of_shared polls.shared).trans hclock
          have htimers : v'.machine.timers = v.machine.timers ++
              [⟨v.machine.next, v.machine.now + span, .wake t'⟩] := congrArg (fun c => c.2.2) hshared
          have hnow : v'.machine.now = v.machine.now := congrArg Prod.fst hshared
          refine ⟨fun {x} hx hn => ?_, fun _ => hnow ▸ Nat.le_add_right _ _, fun hgone => ?_⟩
          · rw [htimers, List.mem_append, List.mem_singleton] at hx
            rcases hx with hx | rfl
            · exact absurd hn (Nat.ne_of_lt (hs.times.numbered hx))
            · rfl
          · have hpending : v'.machine.isPending v.machine.next = true := by
              simp [Machine.isPending, htimers]
            rw [hgone] at hpending
            cases hpending
        · obtain ⟨m, m', turn, rfl, -⟩ := move.of_running running hu
          exact absurd (List.mem_singleton_self _) (unpolled.quiet _)
      · refine Or.inr ⟨n, ?_, move.firesAt hsession (System.reading_of_active hv) hmore hfires⟩
        obtain ⟨t', e, next', w₀, polls, rfl⟩ | unpolled := move.polled_or_unpolled
        · by_cases ht : t = t'
          · subst ht
            cases hv.symm.trans polls.active
            have hresult := polls.result
            rwa [Machine.poll_sleep_timer (unanswered_of_quiet hmore)] at hresult
          · refine ((polls.others ht).resolve_right ?_).trans hv
            rintro ⟨hnone, -⟩
            cases hv.symm.trans hnone
        · exact ((unpolled.tasks t).resolve_right fun h => h.1 _ _ _ hv).trans hv

/-- While a task waits for time, the wait is not longer than it is to be. -/
theorem now_le_of_sleeping (hs : Session config before u) (running : u.machine.running = some t)
    (hu : u.task? t = some (.active (.perform (.sleep token span) next) .fresh))
    (hr : u.Reaches config log w) (hquiet : deedsOf t log = []) :
    w.machine.now ≤ u.machine.now + span := by
  rcases hs.sleeps running hu hr hquiet with rfl | ⟨n, -, hfires⟩
  · exact Nat.le_add_right _ _
  · exact hfires.le

/-- A wait for time that is over has lasted for the whole span, and nothing has interrupted it. One
that is interrupted has not lasted longer. -/
theorem slept (hs : Session config before u) (running : u.machine.running = some t)
    (hu : u.task? t = some (.active (.perform (.sleep token span) next) .fresh))
    (hr : u.Reaches config log w) (hquiet : deedsOf t log = []) {answer : Bool} {m m' : Machine}
    (move : w.Moves config [.poll ⟨t, .sleep token span, some answer, m, m'⟩] w') :
    answer = (!w'.machine.interrupts token) ∧ w'.machine.now ≤ u.machine.now + span ∧
      (answer = true → w'.machine.now = u.machine.now + span) := by
  obtain ⟨-, next', w₀, polls, ha⟩ := move.polled
  obtain ⟨hanswer, hcancelled, htime⟩ := Machine.poll_sleep_answered ha
  have hinterrupts : w'.machine.interrupts token = w.machine.interrupts token := by
    have hsame : w'.machine.cancelled = w.machine.cancelled :=
      (congrArg Machine.cancelled polls.shared).trans hcancelled
    cases token with
    | none => rfl
    | some T => exact congrArg T.isCancelled hsame
  have hnow : w'.machine.now = w.machine.now :=
    (congrArg Prod.fst (Machine.clock_of_shared polls.shared)).trans (w.machine.now_poll _ _ _)
  rw [hinterrupts, hnow]
  refine ⟨hanswer, ?_⟩
  rcases hs.sleeps running hu hr hquiet with rfl | ⟨n, hw, hfires⟩
  · cases hu.symm.trans polls.active
    refine ⟨Nat.le_add_right _ _, fun hover => ?_⟩
    rw [(htime hover).2 rfl, Nat.add_zero]
  · cases hw.symm.trans polls.active
    exact ⟨hfires.le, fun hover => hfires.fired ((htime hover).1 n rfl)⟩

end Session
end FlowEngine
