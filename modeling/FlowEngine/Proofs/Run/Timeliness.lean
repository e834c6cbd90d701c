import FlowEngine.Proofs.Machine.Clocks
import FlowEngine.Proofs.Run.Cancellation
import FlowEngine.Proofs.Run.Lifetime
import FlowEngine.Proofs.Run.Progress
import FlowEngine.Proofs.Run.Repayment
import FlowEngine.Proofs.Run.Sparing
import FlowEngine.Proofs.Run.Uncancelled

/-!
# The deadline of a run

While the deadline of a run is not taken back, the clock does not pass it: when it fires, all that
belongs to the run is awake, so that no time passes before the run has wound up its steps. The end
of the run takes the deadline back before it starts the handler of the flow, which has no deadline.
-/
namespace FlowEngine

open Exec Execution

namespace Residence

variable {config : Config} {log more : List Occurrence} {s s' : System RunResult} {o o' : Outline}
  {place place' : TaskId → Residence} {t : TaskId}

/-! ## Below the token of a run -/

def Roofed (log : List Occurrence) (o : Outline) (place : TaskId → Residence) : Prop :=
  ∀ {t : TaskId} {p : Program t.Result} {w : Wait} {home : Home},
    o.task? t = some (.active p w) → (place t).home? = some home →
    ∃ u flow parent token m m',
      .poll ⟨u, .openRun flow parent, some (home.run, token), m, m'⟩ ∈ log ∧
      token.covers home.base = true

theorem Roofed.step (h : Roofed log o place) (adv : o.Advances config more o')
    (hh' : Holds o' place')
    (moved : o.Moved discipline more o' place place') : Roofed (log ++ more) o' place' := by
  intro t p w home ht hhome
  cases hails_of_advances adv hh' moved ht hhome with
  | stayed active same =>
      obtain ⟨u, flow, parent, token, m, m', hm, hcovers⟩ := h active same
      exact ⟨u, flow, parent, token, m, m', List.mem_append_left _ hm, hcovers⟩
  | started active home? run below =>
      obtain ⟨u, flow, parent, token, m, m', hm, hcovers⟩ := h active home?
      rw [run] at hm
      exact ⟨u, flow, parent, token, m, m', List.mem_append_left _ hm,
        Token.covers_trans hcovers below⟩
  | @opened flow parent m m' opens new =>
      refine ⟨t, flow, parent, home.base, m, m', ?_, Token.covers_self _⟩
      rw [opens]
      exact List.mem_append_right _ (List.mem_singleton_self _)

theorem roofed_of_session (h : Session config log s) :
    ∃ place, Housed config log s place ∧ Manned log s.outline place ∧ Roofed log s.outline place :=
  housed_along (K := fun log o place => Manned log o place ∧ Roofed log o place)
    (fun adv hob hh hob' hh' moved hk =>
      ⟨hk.1.step adv hob hh hob' hh' moved, Roofed.step hk.2 adv hh' moved⟩)
    (fun _ hs₀ => ⟨manned_initial hs₀, fun _ hhome => nomatch hhome⟩) h

theorem awake_of_token (h : Session config log s) {e : Effect} {next : e.Answer → Program t.Result}
    {w : Wait} {token : Token} (ht : s.task? t = some (.active (.perform e next) w))
    (htoken : e.token? w = some token) (hcancelled : s.machine.isCancelled token = true) :
    s.machine.Awake t := by
  have htokens : s.tokens t = some token := (System.reading_of_active ht).trans htoken
  rcases h.watches.watched htokens with hlisted | ⟨-, hawake⟩
  · rw [h.watches.valid hlisted] at hcancelled
    cases hcancelled
  · exact hawake

/-- A task in a cancelled scope that is not awake waits for a branch that has not ended. -/
theorem Housed.heeds (h : Housed config log s place) {T : Token}
    (hT : s.machine.isCancelled T = true)
    {p : Program t.Result} {w : Wait} {home : Home} (ht : s.task? t = some (.active p w))
    (hhome : (place t).home? = some home) (hbelow : T.covers home.base = true)
    (hasleep : ¬ s.machine.Awake t) : ∃ n ∈ s.outline.held t, ¬ s.outline.Ended n := by
  refine (h.waits ht hhome hasleep).resolve_left ?_
  rintro ⟨e, next, token, rfl, htoken, hcovers, -⟩
  exact hasleep (awake_of_token h.session ht htoken
    (Token.isCancelled_of_covers (Token.covers_trans hbelow hcovers) hT))

theorem paid_of_closed {α : Type} {q : Program α} {final : Residence → α → Prop} {owed : Nat → Prop}
    (hobeys : q.Obeys protocol final closed) (hrepays : q.Repays (fun _ => False) owed) (d : Nat) :
    ¬ owed d := by
  induction q generalizing owed with
  | pure a => exact hrepays d
  | perform e next ih =>
      cases e with
      | releaseSlot =>
          intro hd
          exact ih () (hobeys.2 () closed rfl) (hrepays ()) (Or.inl ⟨hd, nofun⟩)
      | _ => exact hobeys.1.elim

end Residence

/-! ## The clock and a deadline -/

inductive Machine.Ticks (m : Machine) (d : Nat) (token : Token) (due : Nat) : Prop where
  | pending {x : Timer} (listed : x ∈ m.timers) (number : x.number = d)
      (alarm : x.alarm = .cancel token) (on : x.due = due) (early : m.now ≤ due)
  | passed (cancelled : m.isCancelled token = true) (now : m.now = due)

namespace Machine.Ticks

variable {m : Machine} {d due : Nat} {token : Token}

theorem le (h : m.Ticks d token due) : m.now ≤ due := by
  cases h with
  | pending listed number alarm on early => exact early
  | passed cancelled now => exact Nat.le_of_eq now

theorem passed_of_not_pending (h : m.Ticks d token due) (hd : m.isPending d = false) :
    m.isCancelled token = true ∧ m.now = due := by
  cases h with
  | @pending x listed number alarm on early =>
      have hpending : m.isPending d = true :=
        List.any_eq_true.mpr ⟨x, listed, decide_eq_true number⟩
      rw [hd] at hpending
      cases hpending
  | passed cancelled now => exact ⟨cancelled, now⟩

end Machine.Ticks

namespace System

variable {config : Config} {log more : List Occurrence} {s s' : System RunResult} {d due : Nat}
  {token : Token}

/-- A move leaves the clock where it is, unless nobody is awake. -/
theorem Moves.now (h : s.Moves config more s') : s'.machine.now = s.machine.now ∨
    s.machine.advanceClock? = some s'.machine ∧ ∀ t, ¬ s.machine.Awake t := by
  rcases h.polled_or_unpolled with ⟨t, e, next, w, polls, -⟩ | unpolled
  · exact Or.inl ((Machine.now_of_shared polls.shared).trans (s.machine.now_poll t w e))
  · have hpasses := unpolled.machine
    generalize s'.machine = m at hpasses
    cases hpasses with
    | same shared => exact Or.inl (Machine.now_of_shared shared)
    | counted shared => exact Or.inl ((Machine.now_of_shared shared).trans rfl)
    | cancelled token => exact Or.inl (congrArg Prod.fst (s.machine.clock_cancel token))
    | scheduled span token => exact Or.inl rfl
    | clock hclock hasleep => exact Or.inr ⟨hclock, hasleep⟩

/-- A running task that does not have to wait goes on at once. -/
theorem Reaches.at_once {t : TaskId} {e : Effect} {next : e.Answer → Program t.Result}
    (h : s.Reaches config log s') (hat : s.ComesTo t (.perform e next)) (he : ¬ Outline.Waits e) :
    s' = s ∧ log = [] ∨ ∃ a m' later u, log = .poll ⟨t, e, some a, s.machine, m'⟩ :: later ∧
      s.Moves config [.poll ⟨t, e, some a, s.machine, m'⟩] u ∧ u.machine.now = s.machine.now ∧
      u.ComesTo t (next a) ∧ u.Reaches config later s' := by
  cases log with
  | nil => exact Or.inl ⟨h.eq_of_running hat.running hat.at, rfl⟩
  | cons x later =>
      obtain ⟨v, u, hv, move, hu⟩ := Reaches.moment (l := []) h
      obtain rfl := hv.eq_of_running hat.running hat.at
      obtain ⟨m, m', turn, hx, -, hpolls⟩ := move.of_running hat.running hat.active
      obtain rfl := (List.cons.inj hx).1
      obtain rfl := move.polls_of_poll.1
      cases turn with
      | waiting w => exact absurd hpolls.waits he
      | answered a =>
          refine Or.inr ⟨a, m', later, u, rfl, move, ?_,
            ⟨move.running_of_answer, move.goes_on hat.at⟩, hu⟩
          exact move.now.resolve_right fun hclock => hclock.2 t (Or.inl hat.running)

/-- Without a poll a timer stays, unless the clock goes on while nobody is awake. -/
theorem Unpolled.mem_timers (h : s.Unpolled more s') {x : Timer} (hx : x ∈ s.machine.timers) :
    x ∈ s'.machine.timers ∨
      s.machine.advanceClock? = some s'.machine ∧ ∀ t, ¬ s.machine.Awake t := by
  have hpasses := h.machine
  generalize s'.machine = m at hpasses
  cases hpasses with
  | same shared => exact Or.inl (Machine.timers_of_shared shared ▸ hx)
  | counted shared => exact Or.inl (Machine.timers_of_shared shared ▸ hx)
  | cancelled token => exact Or.inl (s.machine.timers_cancel token ▸ hx)
  | scheduled span token => exact Or.inl (List.mem_append_left _ hx)
  | clock hclock hasleep => exact Or.inr ⟨hclock, hasleep⟩

/-- A deadline that nobody stops stays, unless the clock moves. -/
theorem Moves.mem_timers (h : s.Moves config more s') (hsession : Session config log s) {x : Timer}
    (hx : x ∈ s.machine.timers) (hd : Deadlines log x.number)
    (hstop : ∀ t passed m m', .poll ⟨t, .stopDeadline x.number, some passed, m, m'⟩ ∉ more) :
    x ∈ s'.machine.timers ∨
      s.machine.advanceClock? = some s'.machine ∧ ∀ t, ¬ s.machine.Awake t := by
  rcases h.polled_or_unpolled with ⟨t, e, next, w, polls, rfl⟩ | unpolled
  · rw [Machine.timers_of_shared polls.shared]
    refine Or.inl (Machine.mem_timers_poll hsession.times (reading_of_active polls.active) hd ?_ hx)
    rintro rfl
    exact hstop _ _ _ _ (List.mem_singleton_self _)
  · exact unpolled.mem_timers hx

/-- A deadline that nobody stops goes off while nobody is awake, and nothing else happens then. -/
theorem Moves.fires (h : s.Moves config more s') (hsession : Session config log s)
    (hd : Deadlines log d)
    (hstop : ∀ t passed m m', .poll ⟨t, .stopDeadline d, some passed, m, m'⟩ ∉ more)
    (hpending : s.machine.isPending d = true) (hgone : s'.machine.isPending d = false) :
    more = [] ∧ ∀ t, ¬ s.machine.Awake t := by
  obtain ⟨x, hx, rfl⟩ := Machine.exists_of_isPending hpending
  have hfired : x ∉ s'.machine.timers := fun hx => by
    rw [Machine.isPending, List.any_eq_false] at hgone
    exact hgone x hx (decide_eq_true rfl)
  obtain ⟨-, hasleep⟩ := (h.mem_timers hsession hx hd hstop).resolve_left hfired
  refine ⟨?_, hasleep⟩
  cases h with
  | step hstep =>
      have hrunning : s.machine.running = none := by
        cases hrunning : s.machine.running with
        | none => rfl
        | some t => exact absurd (Or.inl hrunning) (hasleep t)
      rw [occurrences, hrunning]
  | start hidle errand => exact absurd hx hfired
  | _ => rfl

/-- A timer that is pending was so before, or it has a new number. -/
theorem Moves.timer (h : s.Moves config more s') {x : Timer} (hx : x ∈ s'.machine.timers) :
    x ∈ s.machine.timers ∨ s.machine.next ≤ x.number := by
  rcases h.polled_or_unpolled with ⟨t, e, next, w, polls, -⟩ | unpolled
  · rw [Machine.timers_of_shared polls.shared] at hx
    exact (Machine.Strains.poll (T := default) s.machine t w e).timer hx
  · have hpasses := unpolled.machine
    generalize s'.machine = m at hpasses hx
    cases hpasses with
    | same shared => exact Or.inl (Machine.timers_of_shared shared ▸ hx)
    | counted shared => exact Or.inl (Machine.timers_of_shared shared ▸ hx)
    | cancelled token => exact Or.inl (s.machine.timers_cancel token ▸ hx)
    | scheduled span token => exact (Machine.Strains.schedule (T := default) _ span token).timer hx
    | clock hclock _ => exact (Machine.Strains.advanceClock? (T := default) hclock).timer hx

/-- While nobody stops a deadline and somebody is awake once it has passed, the clock stays. -/
theorem Moves.ticks (h : s.Moves config more s') (hsession : Session config log s)
    (hd : Deadlines log d)
    (hstop : ∀ t passed m m', .poll ⟨t, .stopDeadline d, some passed, m, m'⟩ ∉ more)
    (hawake : s.machine.isCancelled token = true → ∃ t, s.machine.Awake t)
    (hticks : s.machine.Ticks d token due) : s'.machine.Ticks d token due := by
  cases hticks with
  | @pending x listed number alarm on early =>
      subst number on
      rcases h.mem_timers hsession listed hd hstop with hstays | ⟨hclock, -⟩
      · refine .pending hstays rfl alarm rfl ?_
        rcases h.now with hnow | ⟨hclock, -⟩
        · exact Nat.le_trans (Nat.le_of_eq hnow) early
        · exact (Machine.advanceClock?_cases hclock listed).1
      · obtain ⟨hle, hstays | ⟨hnow, hcancels⟩⟩ := Machine.advanceClock?_cases hclock listed
        · exact .pending hstays rfl alarm rfl hle
        · exact .passed (hcancels token alarm) hnow
  | passed cancelled now =>
      rcases h.now with hnow | ⟨-, hasleep⟩
      · exact .passed ((Reaches.single h).isCancelled cancelled) (hnow.trans now)
      · obtain ⟨t, ht⟩ := hawake cancelled
        exact absurd ht (hasleep t)

theorem Moves.passed_of_stops {t : TaskId} {passed : Bool} {m m' : Machine}
    (h : s.Moves config [.poll ⟨t, .stopDeadline d, some passed, m, m'⟩] s') :
    passed = !s.machine.isPending d := by
  obtain ⟨-, next, w, -, ha⟩ := h.polled
  exact (Option.some.inj ha).symm

/-- A deadline that is not pending does not become so. -/
theorem Reaches.not_pending (h : s.Reaches config more s') (hd : d < s.machine.next)
    (hgone : s.machine.isPending d = false) : s'.machine.isPending d = false := by
  suffices hboth : d < s'.machine.next ∧ s'.machine.isPending d = false from hboth.2
  induction h with
  | refl => exact ⟨hd, hgone⟩
  | @move more l v w before move ih =>
      obtain ⟨hlt, hnot⟩ := ih
      refine ⟨Nat.lt_of_lt_of_le hlt move.next_le, ?_⟩
      rw [← Bool.not_eq_true] at hnot ⊢
      intro hpending
      obtain ⟨x, hx, rfl⟩ := Machine.exists_of_isPending hpending
      have hold := (move.timer hx).resolve_right (Nat.not_le.mpr hlt)
      exact hnot (List.any_eq_true.mpr ⟨x, hold, decide_eq_true rfl⟩)

end System

theorem System.Moves.number_of_start {config : Config} {s s' : System RunResult} {t : TaskId}
    {e : Effect} {a : e.Answer} {m m' : Machine} {d : Nat}
    (move : s.Moves config [.poll ⟨t, e, some a, m, m'⟩] s') (hd : e.Starts a d) :
    d = s.machine.next := by
  obtain ⟨-, next, w, -, ha⟩ := move.polled
  cases e with
  | startDeadline token limit =>
      cases ha
      exact hd.symm
  | _ => exact hd.elim

/-- A deadline is started by one task only. -/
theorem Session.starter {config : Config} {log : List Occurrence} {s : System RunResult}
    (h : Session config log s) {t t' : TaskId} {d : Nat} (ht : DeadlinesOf t log d)
    (ht' : DeadlinesOf t' log d) : t = t' := by
  obtain ⟨s₀, hs₀, hr⟩ := h
  induction hr with
  | refl =>
      obtain ⟨e, a, m, m', hm, -⟩ := ht
      cases hm
  | @move log more v w before move ih =>
      have hnew {t : TaskId} {e : Effect} {a : e.Answer} {m m' : Machine}
          (hm : .poll ⟨t, e, some a, m, m'⟩ ∈ more) (hd : e.Starts a d) : ¬ Deadlines log d := by
        intro hold
        obtain rfl := move.advances.eq_singleton_of_mem hm
        have hlt := ((Session.times ⟨s₀, hs₀, before⟩).deadline hold).1
        exact absurd (move.number_of_start hd) (Nat.ne_of_lt hlt)
      obtain ⟨e, a, m, m', hm, hd⟩ := ht
      obtain ⟨e', a', n, n', hm', hd'⟩ := ht'
      rcases List.mem_append.mp hm with hold | hnow
      · rcases List.mem_append.mp hm' with hold' | hnow'
        · exact ih ⟨e, a, m, m', hold, hd⟩ ⟨e', a', n, n', hold', hd'⟩
        · exact absurd ⟨t, e, a, m, m', hold, hd⟩ (hnew hnow' hd')
      · rcases List.mem_append.mp hm' with hold' | hnow'
        · exact absurd ⟨t', e', a', n, n', hold', hd'⟩ (hnew hnow hd)
        · obtain rfl := move.advances.eq_singleton_of_mem hnow
          cases List.mem_singleton.mp hnow'
          rfl

/-- A deadline that has just been started is pending, and no other timer has its number. -/
theorem Session.deadline_of_start {config : Config} {log : List Occurrence}
    {s s' : System RunResult} (h : Session config log s) {t : TaskId} {token : Token}
    {limit : Millis} {d : Nat} {m m' : Machine}
    (move : s.Moves config [.poll ⟨t, .startDeadline token limit, some d, m, m'⟩] s') :
    s'.machine.Ticks d token (s.machine.now + limit.toNat) ∧ s'.machine.isPending d = true ∧
      d < s'.machine.next ∧
      ∀ x ∈ s'.machine.timers, x.number = d → x.due = s.machine.now + limit.toNat := by
  obtain ⟨-, next, w, polls, ha⟩ := move.polled
  cases ha
  have hclock := Machine.clock_of_shared polls.shared
  have hnow : s'.machine.now = s.machine.now := congrArg Prod.fst hclock
  have hnext : s'.machine.next = s.machine.next + 1 := congrArg (fun c => c.2.1) hclock
  have htimers : s'.machine.timers = s.machine.timers ++
      [⟨s.machine.next, s.machine.now + limit.toNat, .cancel token⟩] :=
    congrArg (fun c => c.2.2) hclock
  have hlisted : (⟨s.machine.next, s.machine.now + limit.toNat, .cancel token⟩ : Timer) ∈
      s'.machine.timers := htimers ▸ List.mem_append_right _ (List.mem_singleton_self _)
  refine ⟨.pending hlisted rfl rfl rfl (by omega), List.any_eq_true.mpr ⟨_, hlisted,
    decide_eq_true rfl⟩, Nat.lt_of_lt_of_eq (Nat.lt_succ_self _) hnext.symm,
    fun x hx hnumber => ?_⟩
  rw [htimers] at hx
  rcases List.mem_append.mp hx with hx | hx
  · exact absurd hnumber (Nat.ne_of_lt (h.times.numbered hx))
  · rw [List.mem_singleton.mp hx]

theorem Session.stopper {config : Config} {log more : List Occurrence} {s s' : System RunResult}
    (h : Session config log s) {t t' : TaskId} {d : Nat} (hown : DeadlinesOf t log d)
    (move : s.Moves config more s') {passed : Bool} {m m' : Machine}
    (hm : .poll ⟨t', .stopDeadline d, some passed, m, m'⟩ ∈ more) : t' = t := by
  obtain rfl := move.advances.eq_singleton_of_mem hm
  obtain ⟨-, next, w, polls⟩ := move.polls_of_poll
  exact (h.starter hown ((h.redeems_own ⟨w, polls.active⟩).1 d rfl)).symm

/-- While somebody is awake once it has passed, the clock stays with a deadline until the task that
started it stops it. -/
theorem Session.ticks {config : Config} {log l : List Occurrence} {s v : System RunResult}
    {t : TaskId} {token : Token} {d due : Nat} (h : Session config log v)
    (hown : DeadlinesOf t log d) (hticks : v.machine.Ticks d token due)
    (hawake : ∀ l s, v.Reaches config l s →
      (∀ passed v₁ v₂, .poll ⟨t, .stopDeadline d, some passed, v₁, v₂⟩ ∉ l) →
      s.machine.isCancelled token = true → ∃ u, s.machine.Awake u)
    (hv : v.Reaches config l s) :
    s.machine.Ticks d token due ∧
        (∀ passed v₁ v₂, .poll ⟨t, .stopDeadline d, some passed, v₁, v₂⟩ ∉ l) ∨
      ∃ l₁ passed v₁ v₂ later, l = l₁ ++ .poll ⟨t, .stopDeadline d, some passed, v₁, v₂⟩ :: later ∧
        v₁.Ticks d token due ∧ passed = !v₁.isPending d := by
  induction hv with
  | refl => exact Or.inl ⟨hticks, fun _ _ _ => List.not_mem_nil⟩
  | @move l more v' w before move ih =>
      rcases ih with ⟨hnow, hrunning⟩ | ⟨l₁, passed, v₁, v₂, later, rfl, hstopped⟩
      · have hsession := h.reaches before
        have hown : DeadlinesOf t (log ++ l) d := hown.append l
        by_cases hstops : ∃ t' passed v₁ v₂, .poll ⟨t', .stopDeadline d, some passed, v₁, v₂⟩ ∈ more
        · obtain ⟨t', passed, v₁, v₂, hm⟩ := hstops
          obtain rfl := hsession.stopper hown move hm
          obtain rfl := move.advances.eq_singleton_of_mem hm
          obtain rfl := move.polls_of_poll.1
          exact Or.inr ⟨l, passed, v'.machine, v₂, [], rfl, hnow, move.passed_of_stops⟩
        · refine Or.inl ⟨move.ticks hsession ⟨t, hown⟩ (fun t' passed v₁ v₂ hm => ?_)
            (hawake l v' before hrunning) hnow, fun passed v₁ v₂ hm => ?_⟩
          · exact hstops ⟨t', passed, v₁, v₂, hm⟩
          · rcases List.mem_append.mp hm with hm | hm
            · exact hrunning passed v₁ v₂ hm
            · exact hstops ⟨t, passed, v₁, v₂, hm⟩
      · exact Or.inr ⟨l₁, passed, v₁, v₂, later ++ more, by simp, hstopped⟩

namespace Session.Commences

variable {config : Config} {flow : Flow} {earlier l : List Occurrence} {s u : System RunResult}
  {t : TaskId} {ctx : Context} {inputs : List (String × Json)}
  (h : Session.Commences config flow earlier u t ctx inputs)
include h

theorem awake_of_cancelled (hr : u.Reaches config l s) (hopen : ctx.run ∉ closings l)
    (hT : s.machine.isCancelled ctx.token = true) : ∃ t', s.machine.Awake t' := by
  obtain ⟨place, hhoused, hmanned, hroofed⟩ := Residence.roofed_of_session (h.session.reaches hr)
  by_contra hasleep
  have hrun : ctx.run < s.machine.runs.size := by
    obtain ⟨k, s₀, parent, m, m', -, -, hmove⟩ := h.opening
    have hlt :=
      (((System.Reaches.single hmove).trans hr).opens.2 _ _ _ _ _ _ _ List.mem_cons_self).2
    simpa [System.outline, Machine.outline] using hlt
  have hclosed : ctx.run ∈ closings (earlier ++ l) := by
    refine hmanned.closed_of_waits hhoused hrun fun {t p w home} ht hhome hsame => ?_
    obtain ⟨t', flow', parent, token, m, m', hm, hcovers⟩ :=
      hroofed ((System.task?_outline t).trans ht) hhome
    rw [hsame] at hm
    obtain ⟨-, rfl⟩ := h.opens_once hr hm
    exact hhoused.heeds hT ht hhome hcovers fun hawake => hasleep ⟨t, hawake⟩
  rw [closings_append, List.mem_append] at hclosed
  obtain ⟨t', ending, outputs, result, m, m', hm⟩ := mem_closings.mp (hclosed.resolve_right hopen)
  exact h.fresh hm rfl

/-- A deadline that the run started is taken back by the time that the run is closed. -/
theorem stopped_of_closed {token : Token} {limit : Millis} {d : Nat} {m m' : Machine}
    (hr : u.Reaches config (.poll ⟨t, .startDeadline token limit, some d, m, m'⟩ :: l) s)
    (hclosed : ctx.run ∈ closings l) :
    ∃ passed v v', .poll ⟨t, .stopDeadline d, some passed, v, v'⟩ ∈ l := by
  by_contra hnever
  obtain ⟨t₁, ending, outputs, result, a, b, hm⟩ := mem_closings.mp hclosed
  obtain ⟨l₁, l₂, rfl⟩ := List.append_of_mem hm
  rw [← List.cons_append] at hr
  obtain ⟨w, w', hw, hclose, -⟩ := hr.moment
  have hsession := h.session.reaches hw
  obtain ⟨place, hhoused, hmanned⟩ := Residence.manned_of_session hsession
  obtain ⟨next, wait, active⟩ := hclose.advances.active_of_poll
  have hsome := Option.isSome_of_eq_some active
  obtain ⟨home, hplace, hrun⟩ := Residence.drained_of_closes (hhoused.obedient.active active).1
  have hhome : (place t₁).home? = some home := by
    rw [hplace]
    rfl
  have hopened := hmanned.opened hsome hhome (hhoused.holds.drained hplace).1
  rw [← hrun] at hopened
  obtain rfl := h.opener hw hopened
  obtain ⟨place', hob', -, moved⟩ :=
    (Residence.sound config).advances hclose.advances hhoused.obedient hhoused.holds
  have hmoves := moved.moves hsome
  rw [hplace] at hmoves
  have hat := hclose.goes_on ⟨wait, (System.task?_outline _).symm.trans active⟩
  have hobeys := hob'.active ((System.task?_outline _).trans hat)
  rw [show place' t₁ = .closed from hmoves] at hobeys
  have hrepays := (hsession.reaches (.single hclose)).solvent.repays ⟨_, hat⟩
  refine Residence.paid_of_closed hobeys hrepays d ?_
  rw [List.append_assoc, List.cons_append]
  refine debts_of_started (by exact rfl) earlier fun passed v v' hv => ?_
  rcases List.mem_append.mp hv with hv | hv
  · exact hnever ⟨passed, v, v', List.mem_append_left _ hv⟩
  · cases List.mem_singleton.mp hv

theorem starts_deadline {limit : Millis} (hlimit : config.runTimeout = some limit)
    (hr : u.Reaches config l s) :
    s = u ∨ ∃ (d : Nat) (m' : Machine) (later : List Occurrence) (v : System RunResult),
      l = .poll ⟨t, .startDeadline ctx.token limit, some d, u.machine, m'⟩ :: later ∧
      u.Moves config [.poll ⟨t, .startDeadline ctx.token limit, some d, u.machine, m'⟩] v ∧
      v.Reaches config later s ∧
      v.machine.Ticks d ctx.token (u.machine.now + limit.toNat) := by
  obtain ⟨k, hbegins⟩ := h.begins
  obtain ⟨next, hprogram⟩ : ∃ next, (afterOpening config flow inputs (ctx.run, ctx.token)).bind k =
      .perform (.startDeadline ctx.token limit) next := by
    unfold afterOpening
    rw [hlimit]
    exact ⟨_, rfl⟩
  rw [hprogram] at hbegins
  obtain ⟨l₀, s₀, parent, m₀, m₀', -, -, hopens⟩ := h.opening
  rcases hr.at_once ⟨hopens.running_of_answer, hbegins⟩ id with ⟨rfl, -⟩ |
    ⟨d, m', later, v, rfl, move, -, -, hv⟩
  · exact Or.inl rfl
  · exact Or.inr ⟨d, m', later, v, rfl, move, hv, (h.session.deadline_of_start move).1⟩

/-- Until the deadline of the run is taken back, the clock stays with it. -/
theorem ticks {limit : Millis} {d : Nat} {m m' : Machine} {v : System RunResult}
    (hstart : u.Moves config [.poll ⟨t, .startDeadline ctx.token limit, some d, m, m'⟩] v)
    (hv : v.Reaches config l s) {due : Nat} (hticks : v.machine.Ticks d ctx.token due) :
    s.machine.Ticks d ctx.token due ∧
        (∀ passed v₁ v₂, .poll ⟨t, .stopDeadline d, some passed, v₁, v₂⟩ ∉ l) ∨
          ∃ l₁ passed v₁ v₂ later,
            l = l₁ ++ .poll ⟨t, .stopDeadline d, some passed, v₁, v₂⟩ :: later ∧
            v₁.Ticks d ctx.token due ∧ passed = !v₁.isPending d := by
  have hown : DeadlinesOf t
      (earlier ++ [.poll ⟨t, .startDeadline ctx.token limit, some d, m, m'⟩]) d :=
    ⟨_, _, m, m', List.mem_append_right _ (List.mem_singleton_self _), rfl⟩
  refine (h.session.reaches (.single hstart)).ticks hown hticks (fun l s hl hrunning hT => ?_) hv
  have hreaches := (System.Reaches.single hstart).trans hl
  refine h.awake_of_cancelled hreaches (fun hclosed => ?_) hT
  obtain ⟨passed, v₁, v₂, hm⟩ := h.stopped_of_closed hreaches hclosed
  exact hrunning passed v₁ v₂ hm

end Session.Commences

/-- How a run stands to its deadline. -/
structure Timely (config : Config) (flow : Flow) (limit : Millis) (t : TaskId) (ctx : Context)
    (d due : Nat) (later : List Occurrence) (s : System RunResult) : Prop where
  /-- The clock does not pass the deadline before the end of the run takes it back. If it has passed
  by then, no time has gone by since, and the run is cancelled. -/
  clock : s.machine.now ≤ due ∨ ∃ passed m m',
    .poll ⟨t, .stopDeadline d, some passed, m, m'⟩ ∈ later ∧ m.now ≤ due ∧
      (passed = true → m.now = due ∧ m.isCancelled ctx.token = true)
  /-- When the deadline has passed and was not taken back, the run is cancelled and it is still the
  instant of the deadline. -/
  passed : (∀ passed m m', .poll ⟨t, .stopDeadline d, some passed, m, m'⟩ ∉ later) →
    s.machine.isPending d = false →
      s.machine.now = due ∧ s.machine.isCancelled ctx.token = true
  /-- From then on the run ends cancelled if its steps fail, with the failure of the deadline. -/
  ends {more rest : List Occurrence} {s' u : System RunResult} {f : Failure} {sc : Scope}
    {result : RunResult} : (∀ passed m m', .poll ⟨t, .stopDeadline d, some passed, m, m'⟩ ∉ later) →
      s.machine.isPending d = false → s.Passes config more s' u rest →
      (conclude config flow ctx (some d) (.error f, sc)).Yields (deedsOf t rest) result →
        result.status = .cancelled ∧
          result.error = some { runDeadlinePassed limit with stepId := f.stepId }

/-- A run with a deadline starts it as soon as it is opened, and keeps it as long as it is not taken
back. -/
theorem deadline_holds {config : Config} {flow : Flow} {earlier l : List Occurrence}
    {u s : System RunResult} {t : TaskId} {ctx : Context} {inputs : List (String × Json)}
    {limit : Millis} (h : Session.Commences config flow earlier u t ctx inputs)
    (hlimit : config.runTimeout = some limit) (hr : u.Reaches config l s) :
    s = u ∨ ∃ (d : Nat) (m' : Machine) (later : List Occurrence),
      l = .poll ⟨t, .startDeadline ctx.token limit, some d, u.machine, m'⟩ :: later ∧
        Timely config flow limit t ctx d (u.machine.now + limit.toNat) later s := by
  obtain hsame | ⟨d, m', later, v, rfl, hstart, hv, hticks⟩ := h.starts_deadline hlimit hr
  · exact Or.inl hsame
  have hcourse := h.ticks hstart hv hticks
  have hpassed (hrunning : ∀ passed v₁ v₂, .poll ⟨t, .stopDeadline d, some passed, v₁, v₂⟩ ∉ later)
      (hgone : s.machine.isPending d = false) :
      s.machine.isCancelled ctx.token = true ∧ s.machine.now = u.machine.now + limit.toNat := by
    obtain ⟨hnow, -⟩ | ⟨l₁, passed, v₁, v₂, l₂, rfl, -⟩ := hcourse
    · exact hnow.passed_of_not_pending hgone
    · exact absurd (List.mem_append_right _ List.mem_cons_self) (hrunning passed v₁ v₂)
  refine Or.inr ⟨d, m', later, rfl, ?clock, fun hrunning hgone => (hpassed hrunning hgone).symm,
    ?ends⟩
  case clock =>
    obtain ⟨hnow, -⟩ | ⟨l₁, passed, v₁, v₂, l₂, rfl, hnow, rfl⟩ := hcourse
    · exact Or.inl hnow.le
    · refine Or.inr ⟨_, v₁, v₂, List.mem_append_right _ List.mem_cons_self, hnow.le,
        fun hgone => ?_⟩
      rw [Bool.not_eq_eq_eq_not, Bool.not_true] at hgone
      exact (hnow.passed_of_not_pending hgone).symm
  case ends =>
    intro more rest s' w f sc result hrunning hgone hp hyields
    have hsession := h.session.reaches hr
    obtain ⟨hstatus, timedOut, herror, hstops⟩ := hsession.cancelled_of_yields
      (hpassed hrunning hgone).1 hp (Token.covers_self _) hyields
    obtain ⟨n, n', hm⟩ := hstops d rfl
    obtain ⟨past, -, hw, hrest⟩ := hp
    obtain ⟨l₁, v₁, v₂, hv₁, move⟩ := hrest.moment_of_mem hm
    have hlt : d < s.machine.next := (hsession.times.deadline
      ⟨t, _, _, _, _, List.mem_append_right _ List.mem_cons_self, rfl⟩).1
    have htimedOut : timedOut = true := by
      rw [move.passed_of_stops, (hw.trans hv₁).not_pending hlt hgone]
      rfl
    refine ⟨hstatus, herror.trans ?_⟩
    rw [htimedOut, hlimit]
    rfl

namespace Solo

def mended : Solo where
  config := { runTimeout := some 200 }
  world := quietWorld [("slow", .delayed 500 .echo), ("broken", .failure .stepExecution "no")]
  flow :=
    { name := "orders"
      description := none
      steps := [calls "pay" "broken"]
      onError := some [calls "mend" "slow"] }

def overdue : Solo where
  config := { runTimeout := some 200 }
  world := quietWorld [("slow", .delayed 500 .echo)]
  flow :=
    { name := "orders"
      description := none
      steps := [calls "ship" "slow"]
      onError := some [calls "mend" "slow"] }

end Solo

/-- The handler of the flow still waits for a tool when the run has lasted longer than it may, and
the run does not end cancelled. -/
theorem handler_outlasts_deadline : ∃ earlier log more s s' result order,
    Session.Commences Solo.mended.config Solo.mended.flow earlier Solo.mended.opened .main
      ⟨0, Solo.mended.token, none⟩ [] ∧
    Solo.mended.config.runTimeout = some 200 ∧ Solo.mended.opened.Reaches Solo.mended.config log s ∧
    Solo.mended.opened.machine.now + 200 < s.machine.now ∧ s.standings 0 .main = some .calling ∧
    s.Reaches Solo.mended.config more s' ∧ s'.main = .ended result order ∧
    result.status = .erroredHandled := by
  obtain ⟨earlier, hcommences⟩ := Solo.commences (a := Solo.mended) rfl rfl
  let s : System RunResult := (Solo.mended.opened.course 16).2
  have hend : ((s.course 20).2.main.result?.any fun x => x.1.status = .erroredHandled) = true := by
    decide +kernel
  cases hmain : (s.course 20).2.main with
  | active p w =>
      rw [hmain] at hend
      cases hend
  | ended result order =>
      rw [hmain] at hend
      exact ⟨earlier, _, _, s, _, result, order, hcommences, rfl, System.reaches_course 16 _,
        by decide +kernel, by decide +kernel, System.reaches_course 20 s, hmain,
          of_decide_eq_true hend⟩

theorem deadline_holds_overdue : ∃ earlier later s m, Session.Commences Solo.overdue.config
      Solo.overdue.flow earlier Solo.overdue.opened .main ⟨0, Solo.overdue.token, none⟩ [] ∧
    Solo.overdue.opened.Reaches Solo.overdue.config
      (.poll
        ⟨.main, .startDeadline Solo.overdue.token 200, some (2 : Nat),
          Solo.overdue.opened.machine, m⟩ ::
        later) s ∧
    s.machine.isPending 2 = false ∧ s.standings 0 .main = some .calling ∧
    Timely Solo.overdue.config Solo.overdue.flow 200 .main ⟨0, Solo.overdue.token, none⟩ 2 200
      later s := by
  obtain ⟨earlier, hcommences⟩ := Solo.commences (a := Solo.overdue) rfl rfl
  have hr : Solo.overdue.opened.Reaches Solo.overdue.config (Solo.overdue.opened.course 6).1
    (Solo.overdue.opened.course 6).2 := System.reaches_course 6 _
  have hlog : ((Solo.overdue.opened.course 6).1.filterMap
      (Occurrence.deadline? Solo.overdue.token)).head? = some 2 := by
    decide +kernel
  obtain hsame | ⟨d, m, later, hl, htimely⟩ := deadline_holds hcommences rfl hr
  · have htime :
        (Solo.overdue.opened.course 6).2.machine.now ≠ Solo.overdue.opened.machine.now := by
      decide +kernel
    exact absurd (congrArg (fun s => s.machine.now) hsame) htime
  · obtain rfl : d = 2 := by
      have hstarts : Occurrence.deadline? Solo.overdue.token (.poll ⟨.main,
          .startDeadline Solo.overdue.token 200, some d, Solo.overdue.opened.machine, m⟩) =
            some d := by
        simp [Occurrence.deadline?]
      rw [hl, List.filterMap_cons_some hstarts] at hlog
      exact Option.some.inj hlog
    exact ⟨earlier, later, _, m, hcommences, hl ▸ hr, by decide +kernel, by decide +kernel, htimely⟩

end FlowEngine
