import FlowEngine.Proofs.Run.Interruption
import FlowEngine.Proofs.Run.Retrying
import FlowEngine.Proofs.Run.Termination

/-!
# The deadline of an attempt

An attempt of a step with a limit starts a deadline and stops it when it has ended. While it lasts,
the clock does not pass the deadline: when it goes off, everything that the attempt waits for is
interrupted, so that the attempt fails at once. The failure is a timeout of the step, unless the scope
around it was cancelled as well or a rollback inside of it was refused.
-/
namespace FlowEngine

open Exec Execution

namespace System

variable {config : Config} {log : List Occurrence} {s s' : System RunResult} {t : TaskId}

/-- A deadline that was started before its time is not pending any more when the time has come. -/
theorem Reaches.before_due (h : s.Reaches config log s') {d due : Nat} (hd : d < s.machine.next)
    (hdue : ∀ x ∈ s.machine.timers, x.number = d → x.due = due) (hlt : s.machine.now < due)
    (hpending : s'.machine.isPending d = true) : s'.machine.now < due := by
  obtain ⟨x, hx, rfl⟩ := Machine.exists_of_isPending hpending
  suffices hall : x.number < s'.machine.next ∧
      ∀ y ∈ s'.machine.timers, y.number = x.number → y.due = due ∧ s'.machine.now < due from
    (hall.2 x hx rfl).2
  clear hx hpending
  induction h with
  | refl => exact ⟨hd, fun y hy hnumber => ⟨hdue y hy hnumber, hlt⟩⟩
  | @move log more u v before move ih =>
      obtain ⟨hnext, hall⟩ := ih
      refine ⟨Nat.lt_of_lt_of_le hnext move.next_le, fun y hy hnumber => ?_⟩
      have hold := (move.timer hy).resolve_right (by omega)
      obtain ⟨rfl, hearly⟩ := hall y hold hnumber
      refine ⟨rfl, ?_⟩
      rcases move.now with hnow | ⟨hclock, -⟩
      · omega
      · have hle := (Machine.advanceClock?_cases hclock hold).1
        have hne := Machine.due_ne_of_advanceClock? hclock hy
        omega

/-- A task that asks whether a token is cancelled is told what holds then. -/
theorem Moves.looks {token : Token} {cancelled : Bool} {m m' : Machine}
    (h : s.Moves config [.poll ⟨t, .isCancelled token, some cancelled, m, m'⟩] s') :
    cancelled = s'.machine.isCancelled token := by
  obtain ⟨-, next, w, polls, ha⟩ := h.polled
  cases ha
  have hsame : s'.machine.cancelled = s.machine.cancelled :=
    congrArg (fun a => a.2.1) (Machine.alerts_of_shared polls.shared)
  rw [Machine.isCancelled, Machine.isCancelled, hsame]

/-- While a task is inside of a part of its program, the main task does not begin anew. -/
theorem Reaches.not_restarted {p : Program t.Result} (h : s.Reaches config log s') (hat : s.At t p)
    {e : Effect} {next : e.Answer → Program t.Result}
    (inside : p.Follows (deedsOf t log) (.perform e next)) : ¬ Restarted t log := by
  obtain ⟨q, hq, ⟨-, hnot⟩ | ⟨a, rfl, -⟩⟩ := h.follows hat
  · exact hnot
  · cases hq.unique inside

end System

def Step.expiry (step : Step) (limit : Millis) : Failure :=
  (deadlinePassed step.id limit).toFailure.atStep step.id

section

variable {config : Config} {t : TaskId} {ctx : Context} {step : Step} {limit : Millis}
  {k : Except Failure Reached × Scope → Program t.Result} {scope : Scope} {token : Token} {d : Nat}
  {before log l : List Occurrence} {s v w s' : System RunResult}

def Step.act (step : Step) (ctx : Context) (token : Token) : Exec Reached :=
  step.action.run step.id { ctx with token }

def Step.finish (step : Step) (ctx : Context) (limit : Millis) (d : Nat)
    (p : Except Failure Reached × Scope) : Program (Except Failure Reached × Scope) :=
  .perform (.stopDeadline d) fun passed => afterDeadline ctx step.id limit passed p

theorem Step.attempt_on (hlimit : step.limit ctx = some limit) : (step.attempt ctx).on scope =
    .perform (.childToken ctx.token) fun token => .perform (.startDeadline token limit) fun d =>
      ((step.act ctx token).on scope).bind (step.finish ctx limit d) := by
  rw [attempt, hlimit, withDeadline_on]
  rfl

def Step.armed (ctx : Context) (limit : Millis) (token : Token) (d : Nat) : List Deed :=
  [⟨.childToken ctx.token, token⟩, ⟨.startDeadline token limit, d⟩]

structure Step.Started (config : Config) (t : TaskId) (ctx : Context) (step : Step) (limit : Millis)
    (k : Except Failure Reached × Scope → Program t.Result) (scope : Scope)
    (before : List Occurrence) (s : System RunResult) (token : Token) (d : Nat)
    (log : List Occurrence) (v : System RunResult) : Prop where
  session : Session config before s
  reaches : s.Reaches config log v
  deeds : deedsOf t log = armed ctx limit token d
  kept : ¬ Restarted t log
  own : DeadlinesOf t log d
  now : v.machine.now = s.machine.now
  ticks : v.machine.Ticks d token (s.machine.now + limit.toNat)
  pending : v.machine.isPending d = true
  numbered : d < v.machine.next
  due {x : Timer} : x ∈ v.machine.timers → x.number = d → x.due = s.machine.now + limit.toNat
  comes : v.ComesTo t ((((step.act ctx token).on scope).bind (step.finish ctx limit d)).bind k)

/-- A task that comes to an attempt with a limit starts its deadline at once. -/
theorem Session.starts_attempt (hs : Session config before s)
    (hat : s.ComesTo t (((step.attempt ctx).on scope).bind k)) (hlimit : step.limit ctx = some limit)
    (hr : s.Reaches config log s') :
    s'.machine.now = s.machine.now ∧ s'.machine.Awake t ∧
      (∃ e next, ((step.attempt ctx).on scope).Follows (deedsOf t log) (.perform e next)) ∨
    ∃ token d l v later, log = l ++ later ∧
      step.Started config t ctx limit k scope before s token d l v ∧ v.Reaches config later s' := by
  rw [Step.attempt_on hlimit] at hat ⊢
  rcases hr.at_once hat id with ⟨rfl, rfl⟩ | ⟨token, m₁, log, u, rfl, hu, hnow, hat', hr'⟩
  · exact Or.inl ⟨rfl, Or.inl hat.running, _, _, .start _⟩
  rcases hr'.at_once hat' id with ⟨rfl, rfl⟩ | ⟨d, m₂, later, v, rfl, hv, hnow', hat'', hlater⟩
  · refine Or.inl ⟨hnow, Or.inl hat'.running, .startDeadline token limit,
      fun d => ((step.act ctx token).on scope).bind (step.finish ctx limit d), ?_⟩
    simp only [deedsOf, if_true]
    exact .deed (.start _)
  refine Or.inr ⟨token, d, [_, _], v, later, rfl, ?_, hlater⟩
  obtain ⟨hticks, hpending, hnumbered, hdue⟩ :=
    (hs.reaches (.single hu)).deadline_of_start hv
  rw [hnow] at hticks hdue
  exact {
    session := hs
    reaches := (System.Reaches.single hu).move hv
    deeds := by simp [deedsOf, Step.armed]
    kept := by simp [Restarted]
    own := ⟨_, _, _, _, List.mem_cons_of_mem _ (List.mem_singleton_self _), rfl⟩
    now := hnow'.trans hnow
    ticks := hticks
    pending := hpending
    numbered := hnumbered
    due := hdue _
    comes := hat'' }

namespace Step.Started

variable (h : step.Started config t ctx limit k scope before s token d log v)
include h

/-- A task that has started the deadline of an attempt is at what the attempt does, or has come to
the end of that. -/
theorem through (hl : v.Reaches config l s') :
    (∃ e next, ((step.act ctx token).on scope).Follows (deedsOf t l) (.perform e next) ∧
        s'.At t ((Program.perform e next).bind fun p => (step.finish ctx limit d p).bind k)) ∨
      ∃ p log₁ log₂ u, l = log₁ ++ log₂ ∧ v.Reaches config log₁ u ∧
        ((step.act ctx token).on scope).Follows (deedsOf t log₁) (.pure p) ∧
        u.ComesTo t ((step.finish ctx limit d p).bind k) ∧ u.Reaches config log₂ s' := by
  have hat := h.comes
  rw [Program.bind_assoc] at hat
  rcases hl.through hat with ⟨e, next, inside, hat', -⟩ |
    ⟨p, log₁, log₂, u, hlog, hu, -, hends, hcomes, hu'⟩
  · exact Or.inl ⟨e, next, inside, hat'⟩
  · exact Or.inr ⟨p, log₁, log₂, u, hlog, hu, hends, hcomes, hu'⟩

omit h in
theorem obeys : ((step.act ctx token).on scope).Obeys (Halting.protocol ⟨ctx.run, token, false⟩)
    (fun u p => Halting.Ends u p.1) .going :=
  Halting.compositional.action step { ctx with token } ⟨rfl, Token.covers_self token⟩ scope

/-- While the deadline is not stopped, somebody is awake once its token is cancelled. -/
theorem awake (hl : v.Reaches config l s')
    (hrunning : ∀ passed v₁ v₂, .poll ⟨t, .stopDeadline d, some passed, v₁, v₂⟩ ∉ l)
    (hT : s'.machine.isCancelled token = true) : ∃ u, s'.machine.Awake u := by
  rcases h.through hl with ⟨e, next, inside, w, hw⟩ | ⟨p, log₁, log₂, u, rfl, hu, hends, hcomes, hu'⟩
  · have hpermits := (obeys.follow inside (hl.path_going _ t)).1
    exact Residence.awake_of_inside ((h.session.reaches h.reaches).reaches hl) hw hpermits hT
  · rcases hu'.at_once hcomes not_false with ⟨rfl, -⟩ | ⟨passed, m, later, w, rfl, -⟩
    · exact ⟨t, Or.inl hcomes.running⟩
    · exact absurd (List.mem_append_right _ List.mem_cons_self) (hrunning passed _ m)

theorem not_restarted (hl : v.Reaches config l w) {p : Except Failure Reached × Scope}
    (hends : ((step.act ctx token).on scope).Follows (deedsOf t l) (.pure p)) : ¬ Restarted t l := by
  have hcomes := h.comes
  rw [Program.bind_assoc] at hcomes
  exact hl.not_restarted hcomes.at (hends.bind fun p => (step.finish ctx limit d p).bind k)

/-- What the attempt does stops other deadlines only. -/
theorem not_stops (hl : v.Reaches config l s') {q : Program (Except Failure Reached × Scope)}
    (hq : ((step.act ctx token).on scope).Follows (deedsOf t l) q) (hr : ¬ Restarted t l)
    (passed : Bool) (v₁ v₂ : Machine) : .poll ⟨t, .stopDeadline d, some passed, v₁, v₂⟩ ∉ l := by
  intro hm
  obtain ⟨l₁, l₂, rfl⟩ := List.append_of_mem hm
  rw [deedsOf_append fun h => hr (restarted_append.mpr (Or.inl h))] at hq
  obtain ⟨p, hp, hrest⟩ := Program.Follows.append_iff.mp hq
  simp only [deedsOf, if_true] at hrest
  cases hrest with
  | deed tail =>
      have hredeems : ((step.act ctx token).on scope).Redeems fun _ => False :=
        Redeems.effectwise.compositional.action step { ctx with token } _ scope
      have hknown := hredeems.follow hp (fun _ => False.elim) fun x hx d hd =>
        show ∃ x ∈ deedsOf t l₁, x.effect.Starts x.answer d from ⟨x, hx, hd⟩
      obtain ⟨x, hx, hd⟩ := hknown.1 d rfl
      obtain ⟨m, m', hm⟩ := mem_of_deed hx
      obtain ⟨l₃, y, z, hy, move⟩ := hl.moment_of_mem (List.mem_append_left _ hm)
      have hlt := h.numbered
      have hle := hy.next_le
      have hnumber := move.number_of_start hd
      omega

theorem owned : DeadlinesOf t (before ++ log) d := by
  obtain ⟨e, a, m, m', hm, hd⟩ := h.own
  exact ⟨e, a, m, m', List.mem_append_right _ hm, hd⟩

/-- Until what the attempt does has ended, the clock stays with the deadline. -/
theorem ticking (hl : v.Reaches config l s')
    (hrunning : ∀ passed v₁ v₂, .poll ⟨t, .stopDeadline d, some passed, v₁, v₂⟩ ∉ l) :
    s'.machine.Ticks d token (s.machine.now + limit.toNat) := by
  have hsession := h.session.reaches h.reaches
  rcases hsession.ticks h.owned h.ticks (fun _ _ => h.awake) hl with ⟨hticks, -⟩ |
    ⟨l₁, passed, v₁, v₂, later, rfl, -⟩
  · exact hticks
  · exact absurd (List.mem_append_right _ List.mem_cons_self) (hrunning passed v₁ v₂)

/-- When the deadline goes off while nobody has stopped it, nobody is awake. -/
theorem fires (hl : v.Reaches config l s')
    (hrunning : ∀ passed v₁ v₂, .poll ⟨t, .stopDeadline d, some passed, v₁, v₂⟩ ∉ l)
    (hgone : s'.machine.isPending d = false) : ∃ l₁ l₂ x x', l = l₁ ++ l₂ ∧ v.Reaches config l₁ x ∧
      x.Moves config [] x' ∧ (∀ u, ¬ x.machine.Awake u) ∧ x'.machine.isPending d = false ∧
      x'.Reaches config l₂ s' := by
  induction hl with
  | refl =>
      rw [h.pending] at hgone
      cases hgone
  | @move l more y z hy move ih =>
      have hbefore (passed : Bool) (v₁ v₂ : Machine) :
          .poll ⟨t, .stopDeadline d, some passed, v₁, v₂⟩ ∉ l :=
        fun hm => hrunning passed v₁ v₂ (List.mem_append_left _ hm)
      cases hpending : y.machine.isPending d with
      | false =>
          obtain ⟨l₁, l₂, x, x', rfl, hx, hmove, asleep, hfired, hx'⟩ := ih hbefore hpending
          exact ⟨l₁, l₂ ++ more, x, x', List.append_assoc _ _ _, hx, hmove, asleep, hfired,
            hx'.move move⟩
      | true =>
          have hsession := (h.session.reaches h.reaches).reaches hy
          have hown := h.owned.append l
          obtain ⟨rfl, asleep⟩ := move.fires hsession ⟨t, hown⟩ (fun u passed v₁ v₂ hm => by
            rw [hsession.stopper hown move hm] at hm
            exact hrunning passed v₁ v₂ (List.mem_append_right _ hm)) hpending hgone
          exact ⟨l, [], y, z, rfl, hy, move, asleep, hgone, .refl⟩

/-- If the deadline has gone off by the time that what the attempt does has ended, that has failed. -/
theorem fails (hl : v.Reaches config l w) {p : Except Failure Reached × Scope}
    (hends : ((step.act ctx token).on scope).Follows (deedsOf t l) (.pure p))
    (hgone : w.machine.isPending d = false) :
    ∃ f, p.1 = .error f ∧ (f.isCancellation = true ∨ RollbackRefused l t) := by
  have hs := h.session.reaches h.reaches
  have hcomes := h.comes
  rw [Program.bind_assoc] at hcomes
  have hr := h.not_restarted hl hends
  have hrunning := h.not_stops hl hends hr
  obtain ⟨l₁, l₂, x, x', rfl, hx, hmove, asleep, hfired, hx'⟩ := h.fires hl hrunning hgone
  have hearlier (passed : Bool) (v₁ v₂ : Machine) :
      .poll ⟨t, .stopDeadline d, some passed, v₁, v₂⟩ ∉ l₁ :=
    fun hm => hrunning passed v₁ v₂ (List.mem_append_left _ hm)
  have hT : x'.machine.isCancelled token = true := by
    have hticks := h.ticking (hx.move hmove) (by rwa [List.append_nil])
    exact (hticks.passed_of_not_pending hfired).1
  rcases h.through hx with ⟨e, next, inside, -⟩ | ⟨p', log₁, log₂, u, rfl, hu, -, hat', hu'⟩
  · obtain ⟨hatx, crew, hcrew⟩ := Crew.exists_of_reaches hcomes obeys hx inside
    have hp := obeys.follow inside (hx.path_going _ t)
    rw [deedsOf_append fun h => hr (restarted_append.mpr (Or.inl h))] at hends
    obtain ⟨q, hq, hrest⟩ := Program.Follows.append_iff.mp hends
    rw [hq.unique inside] at hrest
    exact hcrew.fails hs hx asleep hmove hT hx' hatx hp hrest
  · rcases hu'.at_once hat' not_false with ⟨rfl, -⟩ | ⟨passed, m, later, y, rfl, -⟩
    · exact absurd (Or.inl hat'.running) (asleep t)
    · exact absurd (List.mem_append_right _ List.mem_cons_self) (hearlier passed _ m)

end Step.Started

def Step.Overdue (ctx : Context) (limit : Millis) (deeds : List Deed) : Prop :=
  ∃ token d rest, deeds = armed ctx limit token d ++ rest ∧ ⟨.stopDeadline d, true⟩ ∈ rest

structure Step.InTime (config : Config) (t : TaskId) (ctx : Context) (step : Step) (limit : Millis)
    (scope : Scope) (s : System RunResult) (log : List Occurrence) (u : System RunResult)
    (r : Except Failure Reached) (final : Scope) : Prop where
  attempted : step.Attempted config t ctx scope s log u r final
  time : u.machine.now ≤ s.machine.now + limit.toNat
  /-- If it had not ended before, it fails then. The failure is a timeout of the step, unless the scope
  around the attempt was cancelled or a rollback inside of it was refused. -/
  expired : 0 < limit.toNat ∧ u.machine.now = s.machine.now + limit.toNat ∨
      Overdue ctx limit (deedsOf t log) →
    u.machine.now = s.machine.now + limit.toNat ∧ ∃ f, r = .error f ∧
      (f = step.expiry limit ∨ u.machine.isCancelled ctx.token = true ∨ RollbackRefused log t)
  /-- Nothing that it waited for is at work any more: the branches that were started in it, at whatever
  depth, have ended or belong to a fail-fast join that left them behind. -/
  settled {n : Nat} : Nested log t n →
    (∃ result order, u.task? (.branch n) = some (.ended result order)) ∨
      ∃ m, Abandoned log m ∧ (m = n ∨ Nested log (.branch m) n)

/-- A task has made an attempt of a step in time, and goes on with its result. -/
inductive Step.Ended (config : Config) (t : TaskId) (ctx : Context) (step : Step) (limit : Millis)
    (k : Except Failure Reached × Scope → Program t.Result) (scope : Scope) (s : System RunResult) :
    List Occurrence → System RunResult → Prop where
  | intro {log more : List Occurrence} {u s' : System RunResult} {r : Except Failure Reached}
      {final : Scope} (inTime : step.InTime config t ctx limit scope s log u r final)
      (comes : u.ComesTo t (k (r, final))) (after : u.Reaches config more s') :
      Ended config t ctx step limit k scope s (log ++ more) s'

/-- A task makes an attempt of a step, and its time is not over. Somebody goes on, or the clock does. -/
structure Step.Working (config : Config) (t : TaskId) (ctx : Context) (step : Step) (limit : Millis)
    (scope : Scope) (s : System RunResult) (log : List Occurrence) (s' : System RunResult) : Prop where
  reaches : s.Reaches config log s'
  inside : ∃ e next, ((step.attempt ctx).on scope).Follows (deedsOf t log) (.perform e next)
  time : s'.machine.now ≤ s.machine.now + limit.toNat
  goes : s'.step?.isSome

/-- Whatever is nested in a task that has just got an answer has ended or was abandoned. -/
theorem Session.settled_of_prompt (hs : Session config before s) (hr : s.Reaches config log w)
    (hprompt : Prompt t log) (hnot : ¬ Restarted t log) {n : Nat} (hn : Nested log t n) :
    (∃ result order, w.task? (.branch n) = some (.ended result order)) ∨
      ∃ m, Abandoned log m ∧ (m = n ∨ Nested log (.branch m) n) := by
  have hpast : PassesJoins log t := by
    rcases hprompt with rfl | ⟨l, e, answer, m, m', rfl⟩
    · intro l₁ l₂ run policy group bs m m' hlog
      simp at hlog
    · exact .of_answer fun h => hnot (restarted_append.mpr (Or.inl h))
  exact (hn.settled hs hr hpast).imp_left hr.ended_of_mem

namespace Step.Started

variable (h : step.Started config t ctx limit k scope before s token d log v)
include h

theorem deeds_append (l : List Occurrence) :
    deedsOf t (log ++ l) = armed ctx limit token d ++ deedsOf t l := by
  rw [deedsOf_append h.kept, h.deeds]

omit h in
/-- The attempt goes on from where its deadline was started. -/
theorem follows (hlimit : step.limit ctx = some limit) {deeds : List Deed}
    {q : Program (Except Failure Reached × Scope)}
    (hq : (((step.act ctx token).on scope).bind (step.finish ctx limit d)).Follows deeds q) :
    ((step.attempt ctx).on scope).Follows (armed ctx limit token d ++ deeds) q := by
  rw [Step.attempt_on hlimit]
  exact .deed (.deed hq)

/-- Until it has stopped the deadline, the attempt goes on in time. -/
theorem working (hlimit : step.limit ctx = some limit) (hl : v.Reaches config l s') {e : Effect}
    {next : e.Answer → Program (Except Failure Reached × Scope)}
    (hq : (((step.act ctx token).on scope).bind (step.finish ctx limit d)).Follows (deedsOf t l)
      (.perform e next))
    (hrunning : ∀ passed v₁ v₂, .poll ⟨t, .stopDeadline d, some passed, v₁, v₂⟩ ∉ l) :
    step.Working config t ctx limit scope s (log ++ l) s' := by
  have hticks := h.ticking hl hrunning
  refine ⟨h.reaches.trans hl, ⟨e, next, h.deeds_append l ▸ follows hlimit hq⟩, hticks.le, ?_⟩
  refine System.isSome_step? ?_
  cases hticks with
  | pending listed number alarm on early => exact Or.inr ⟨_, listed⟩
  | passed cancelled now => exact Or.inl (h.awake hl hrunning cancelled)

/-- If the deadline of the attempt had passed when it was stopped, that is what the task was told. -/
theorem overdue {p : Except Failure Reached × Scope} (hl : v.Reaches config l w)
    (hends : ((step.act ctx token).on scope).Follows (deedsOf t l) (.pure p)) {passed : Bool}
    {looks : List Deed} (hlooks : ⟨.stopDeadline d, true⟩ ∉ looks)
    (hover : Overdue ctx limit
      (armed ctx limit token d ++ (deedsOf t l ++ ⟨.stopDeadline d, passed⟩ :: looks))) :
    passed = true := by
  obtain ⟨token', d', rest, hdeeds, hm⟩ := hover
  cases hdeeds
  rcases List.mem_append.mp hm with hm | hm
  · obtain ⟨m, m', hm⟩ := mem_of_deed hm
    exact absurd hm (h.not_stops hl hends (h.not_restarted hl hends) true m m')
  · rcases List.mem_cons.mp hm with hsame | hm
    · cases hsame
      rfl
    · exact absurd hm hlooks

/-- An attempt that ends as soon as it has stopped its deadline ends in time. -/
theorem inTime (passed : Bool) (looks : List Deed) (r : Except Failure Reached) (final : Scope)
    (hlimit : step.limit ctx = some limit) {p : Except Failure Reached × Scope}
    (hl : v.Reaches config l w)
    (hends : ((step.act ctx token).on scope).Follows (deedsOf t l) (.pure p))
    {tail : List Occurrence} {u : System RunResult} (hu : w.Reaches config tail u)
    (hnow : u.machine.now = w.machine.now)
    (htail : deedsOf t tail = ⟨.stopDeadline d, passed⟩ :: looks)
    (hpassed : passed = !w.machine.isPending d) (hlooks : ⟨.stopDeadline d, true⟩ ∉ looks)
    (hprompt : ∃ l e answer m m', tail = l ++ [.poll ⟨t, e, some answer, m, m'⟩])
    (hnot : ¬ Restarted t tail)
    (hfinish : (step.finish ctx limit d p).Follows (deedsOf t tail) (.pure (r, final)))
    (hr : ∀ f, p.1 = .error f → r = .error (if passed && f.isCancellation &&
      !u.machine.isCancelled ctx.token then step.expiry limit else f)) :
    step.InTime config t ctx limit scope s (log ++ (l ++ tail)) u r final := by
  have hkept := h.not_restarted hl hends
  have hdeeds : deedsOf t (log ++ (l ++ tail)) =
      armed ctx limit token d ++ (deedsOf t l ++ ⟨.stopDeadline d, passed⟩ :: looks) := by
    rw [h.deeds_append, deedsOf_append hkept, htail]
  have hticks := h.ticking hl (h.not_stops hl hends hkept)
  have hreaches := h.reaches.trans (hl.trans hu)
  have hprompt' : Prompt t (log ++ (l ++ tail)) := by
    obtain ⟨l', e, answer, m, m', rfl⟩ := hprompt
    exact Or.inr ⟨log ++ (l ++ l'), e, answer, m, m', by simp⟩
  refine ⟨⟨hreaches, hprompt', ?program⟩, hnow ▸ hticks.le, fun hlate => ?expired,
    fun hn => h.session.settled_of_prompt hreaches hprompt' ?_ hn⟩
  case program =>
    rw [h.deeds_append, deedsOf_append hkept]
    exact follows hlimit ((hends.bind _).append hfinish)
  case expired =>
    have htrue : passed = true := by
      rcases hlate with ⟨hlimit, hdue⟩ | hover
      · rw [hpassed, Bool.not_eq_true', ← Bool.not_eq_true]
        intro hpending
        have hstart := h.now
        have := hl.before_due h.numbered (fun x => h.due) (by omega) hpending
        omega
      · rw [hdeeds] at hover
        exact h.overdue hl hends hlooks hover
    subst htrue
    have hgone : w.machine.isPending d = false := by simpa using hpassed.symm
    obtain ⟨f, hf, hfailed⟩ := h.fails hl hends hgone
    refine ⟨hnow.trans (hticks.passed_of_not_pending hgone).2, _, hr f hf, ?_⟩
    have hmono : l ⊆ log ++ (l ++ tail) := fun x hx => by simp [hx]
    rcases hfailed with hcancelled | hrefused
    · cases houter : u.machine.isCancelled ctx.token with
      | true => exact Or.inr (Or.inl rfl)
      | false => exact Or.inl (by simp [hcancelled])
    · exact Or.inr (Or.inr (hrefused.mono hmono))
  case _ =>
    rw [restarted_append, restarted_append]
    rintro (hr | hr | hr)
    · exact h.kept hr
    · exact hkept hr
    · exact hnot hr

/-- From the start of its deadline on, the attempt goes on in time, or it has ended in time. -/
theorem course (hlimit : step.limit ctx = some limit) (hl : v.Reaches config l s') :
    step.Working config t ctx limit scope s (log ++ l) s' ∨
      step.Ended config t ctx limit k scope s (log ++ l) s' := by
  rcases h.through hl with ⟨e, next, inside, hat⟩ | ⟨p, l, l₂, w, rfl, hw, hends, hcomes, hs'⟩
  · refine Or.inl (h.working hlimit hl (inside.bind _) (h.not_stops hl inside ?_))
    have hcomes := h.comes
    rw [Program.bind_assoc] at hcomes
    exact hl.not_restarted hcomes.at (inside.bind _)
  have hkept := h.not_restarted hw hends
  have hrunning := h.not_stops hw hends hkept
  rcases hs'.at_once hcomes not_false with ⟨rfl, rfl⟩ |
    ⟨(passed : Bool), m, later, w₁, rfl, move, hnow, hcomes₁, hlater⟩
  · rw [List.append_nil] at hl ⊢
    exact Or.inl (h.working hlimit hl (hends.bind _) hrunning)
  have hpassed := move.passed_of_stops
  obtain ⟨r, final⟩ := p
  cases r with
  | ok reached =>
      have hin := h.inTime passed [] (.ok reached) final hlimit hw hends (.single move) hnow
        (by simp [deedsOf]) hpassed List.not_mem_nil ⟨[], _, _, _, _, rfl⟩ (by simp [Restarted])
        (by simpa [deedsOf] using .deed (.start _)) (by rintro f ⟨⟩)
      have hended := Step.Ended.intro hin hcomes₁ hlater
      simp only [List.append_assoc, List.singleton_append] at hended
      exact Or.inr hended
  | error f =>
      rcases hlater.at_once hcomes₁ not_false with ⟨rfl, rfl⟩ |
        ⟨(outer : Bool), m', later, w₂, rfl, look, hnow₁, hcomes₂, hlater₂⟩
      · refine Or.inl ⟨h.reaches.trans hl, ⟨.isCancelled ctx.token, fun (outer : Bool) => .pure (.error
            (if passed && f.isCancellation && !outer then step.expiry limit else f), final), ?_⟩,
          hnow ▸ (h.ticking hw hrunning).le,
          System.isSome_step? (Or.inl ⟨t, Or.inl hcomes₁.running⟩)⟩
        rw [h.deeds_append, deedsOf_append hkept]
        refine follows hlimit ((hends.bind _).append ?_)
        simp only [deedsOf, if_true]
        exact .deed (.start _)
      · have hlooks : (⟨.stopDeadline d, true⟩ : Deed) ∉ [⟨.isCancelled ctx.token, outer⟩] := by
          intro hm
          cases List.mem_singleton.mp hm
        have hin := h.inTime passed [⟨.isCancelled ctx.token, outer⟩] _ final hlimit hw hends
          ((System.Reaches.single move).move look) (hnow₁.trans hnow) (by simp [deedsOf]) hpassed
          hlooks ⟨[_], _, _, _, _, rfl⟩ (by simp [Restarted])
          (by simpa [deedsOf] using .deed (.deed (.start _))) ?_
        · have hended := Step.Ended.intro hin hcomes₂ hlater₂
          simp only [List.append_assoc, List.cons_append, List.nil_append] at hended
          exact Or.inr hended
        · rintro _ ⟨⟩
          rw [look.looks]
          rfl

end Step.Started

/-- An attempt of a step with a limit goes on in time until it has ended in time. -/
theorem Session.attempt_course (hs : Session config before s)
    (hat : s.ComesTo t (((step.attempt ctx).on scope).bind k)) (hlimit : step.limit ctx = some limit)
    (hr : s.Reaches config log s') : step.Working config t ctx limit scope s log s' ∨
      step.Ended config t ctx limit k scope s log s' := by
  rcases hs.starts_attempt hat hlimit hr with ⟨hnow, hawake, inside⟩ |
    ⟨token, d, l, v, later, rfl, hstarted, hlater⟩
  · exact Or.inl ⟨hr, inside, by omega, System.isSome_step? (Or.inl ⟨t, hawake⟩)⟩
  · exact hstarted.course hlimit hlater

/-- A task that comes to a step in a scope that stays as it is makes its first attempt at once. -/
theorem System.Reaches.attempts {j : Except Failure Reached × Scope → Program t.Result}
    (h : s.Reaches config log s') (hat : s.ComesTo t (((step.run ctx).on scope).bind j))
    (hcalm : s'.machine.isCancelled ctx.token = false) (hlater : s'.machine.now ≠ s.machine.now) :
    ∃ l later u k, log = l ++ later ∧ s.Reaches config l u ∧ u.machine.now = s.machine.now ∧
      u.ComesTo t (((step.attempt ctx).on scope).bind k) ∧ u.Reaches config later s' := by
  rw [Step.run_eq, node_on] at hat
  rcases h.at_once hat id with ⟨rfl, -⟩ | ⟨(cancelled : Bool), m, later, v, rfl, hv, hnow, hat', h'⟩
  · exact absurd rfl hlater
  cases cancelled with
  | true =>
      rw [h'.isCancelled hv.looks.symm] at hcalm
      cases hcalm
  | false =>
      rcases h'.at_once hat' id with ⟨rfl, -⟩ | ⟨opened, m', later, u, rfl, hu, hnow', hat'', h''⟩
      · exact absurd hnow hlater
      · rw [attempts_on, Program.bind_assoc, Program.bind_assoc] at hat''
        exact ⟨[_, _], later, u, _, rfl, (System.Reaches.single hv).move hu, hnow'.trans hnow, hat'', h''⟩

end

namespace Solo

/-- Two branches call tools that are slow, one of them inside of a transaction that has created a row.
The step around them may take less time than either. -/
def fork : Step :=
  .mk "fork" (.parallel
    [([.mk "block" (.transaction [creates "order" "orders", calls "ship" "slow"] none) none none], none),
      ([calls "pay" "slow"], none)] .waitAll) none (some 100)

def hurried : Solo where
  world := quietWorld [("slow", .delayed 500 .echo)]
  flow := { name := "hurried", description := none, steps := [fork], onError := none }

end Solo

end FlowEngine
