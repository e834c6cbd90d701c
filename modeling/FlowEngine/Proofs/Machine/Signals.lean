import FlowEngine.Proofs.Machine.Waking
import Mathlib.Logic.Function.Basic

/-!
# What wakes a task that waits

A task that waits is woken when the token is cancelled that it waits under, or when its timer
fires. As long as it waits and was not woken, it is listed under its token, the token is not
cancelled, and its timer is pending. Every poll keeps these books, because a task stops no
timer but its own and the deadlines that were started.
-/
namespace FlowEngine

def Effect.token? : Effect → Wait → Option Token
  | .request _ token _, .permit => some token
  | .request _ token _, .call _ _ => some token
  | .request _ token _, .operation _ => some token
  | .sleep token _, .timer _ => token
  | .settle _ token, .stragglers _ _ => token
  | _, _ => none

def Effect.timer? : Effect → Wait → Option Nat
  | .request _ _ _, .call timer _ => some timer
  | .request _ _ _, .operation timer => some timer
  | .sleep _ _, .timer timer => some timer
  | _, _ => none

def Effect.Starts : (e : Effect) → e.Answer → Nat → Prop
  | .startDeadline _ _, started, deadline => started = deadline
  | _, _, _ => False

@[simp] theorem Effect.token?_fresh (e : Effect) : e.token? .fresh = none := by
  cases e <;> rfl

@[simp] theorem Effect.timer?_fresh (e : Effect) : e.timer? .fresh = none := by
  cases e <;> rfl

theorem Effect.token?_request (run : Nat) (token : Token) (request : Request) (w : Wait) :
    (Effect.request run token request).token? w = if w.asked then some token else none := by
  cases w <;> rfl

theorem Effect.timer?_request (run : Nat) (token : Token) (request : Request) (w : Wait) :
    (Effect.request run token request).timer? w = w.awaited? := by
  cases w <;> rfl

theorem Effect.timer?_sleep_of_ne {token : Option Token} {span : Nat} {w : Wait}
    (h : ∀ timer, w ≠ .timer timer) : (Effect.sleep token span).timer? w = none := by
  cases w with
  | timer n => exact absurd rfl (h n)
  | _ => rfl

theorem Effect.token?_sleep_of_ne {token : Option Token} {span : Nat} {w : Wait}
    (h : ∀ timer, w ≠ .timer timer) : (Effect.sleep token span).token? w = none := by
  cases w with
  | timer n => exact absurd rfl (h n)
  | _ => rfl

namespace Turn

def token? {e : Effect} : Turn e.Answer → Option Token
  | answered _ => none
  | waiting w => e.token? w

def timer? {e : Effect} : Turn e.Answer → Option Nat
  | answered _ => none
  | waiting w => e.timer? w

end Turn

namespace Machine

def alerts (m : Machine) : List (Token × TaskId) × List Token × List Timer :=
  (m.observers, m.cancelled, m.timers)

theorem alerts_of_shared {m m' : Machine} (h : m'.shared = m.shared) : m'.alerts = m.alerts := by
  change m'.shared.alerts = m.shared.alerts
  rw [h]

theorem next_of_shared {m m' : Machine} (h : m'.shared = m.shared) : m'.next = m.next := by
  change m'.shared.next = m.shared.next
  rw [h]

structure Steady (m m' : Machine) : Prop where
  alerts : m'.alerts = m.alerts
  next : m.next ≤ m'.next
  awake {t : TaskId} : m.Awake t → m'.Awake t

namespace Steady

variable {m m' m'' : Machine}

theorem refl (m : Machine) : Steady m m := ⟨rfl, Nat.le_refl _, id⟩

theorem trans (h : Steady m m') (h' : Steady m' m'') : Steady m m'' :=
  ⟨h'.alerts.trans h.alerts, Nat.le_trans h.next h'.next, fun ht => h'.awake (h.awake ht)⟩

theorem observers (h : Steady m m') : m'.observers = m.observers := congrArg Prod.fst h.alerts

theorem cancelled (h : Steady m m') : m'.cancelled = m.cancelled :=
  congrArg (fun a => a.2.1) h.alerts

theorem timers (h : Steady m m') : m'.timers = m.timers := congrArg (fun a => a.2.2) h.alerts

theorem isCancelled (h : Steady m m') (token : Token) : m'.isCancelled token = m.isCancelled token := by
  rw [Machine.isCancelled, h.cancelled, Machine.isCancelled]

end Steady

variable (m : Machine)

theorem steady_wake (t : TaskId) : Steady m (m.wake t) := by
  refine ⟨?_, Nat.le_of_eq (m.next_wake t).symm, (m.rouses_wake [] t).awake⟩
  unfold wake
  split
  · rfl
  · split <;> rfl

theorem steady_wakeIfSome (t : Option TaskId) : Steady m (m.wakeIfSome t) := by
  cases t with
  | none => exact .refl m
  | some t => exact m.steady_wake t

theorem steady_setWaiter (waiter : Option TaskId) (number : Nat) :
    Steady m (m.setWaiter waiter number) :=
  ⟨rfl, Nat.le_refl _, (m.rouses_setWaiter (List.mem_singleton_self number) waiter).awake⟩

theorem steady_setWaiters (waiter : Option TaskId) (numbers : List Nat) :
    Steady m (m.setWaiters waiter numbers) := by
  induction numbers generalizing m with
  | nil => exact .refl m
  | cons number rest ih => exact (m.steady_setWaiter waiter number).trans (ih _)

theorem steady_spawn (programs : List (Program (Except Failure Json))) :
    Steady m (m.spawn programs).2 := by
  induction programs generalizing m with
  | nil => exact .refl m
  | cons p rest ih =>
      refine Steady.trans ?_ (ih _)
      refine Steady.trans ?_ (steady_wake _ (.branch m.branches.size))
      exact ⟨rfl, Nat.le_refl _, id⟩

theorem steady_setGate (run : Nat) (gate : Gate TaskId) : Steady m (m.setGate run gate) :=
  ⟨rfl, Nat.le_refl _, id⟩

theorem steady_releasePermit (run : Nat) : Steady m (m.releasePermit run) := by
  unfold releasePermit
  split
  · exact .refl m
  · rename_i r hr
    rcases r.gate.release with ⟨gate, next⟩
    exact (m.steady_setGate run gate).trans (steady_wakeIfSome _ next)

theorem steady_withdraw (run : Nat) (t : TaskId) : Steady m (m.withdraw run t) := by
  unfold withdraw
  split
  · exact .refl m
  · rename_i r hr
    rcases r.gate.withdraw t with ⟨gate, next⟩
    exact (m.steady_setGate run gate).trans (steady_wakeIfSome _ next)

theorem steady_hangUp (request : Request) : Steady m (m.hangUp request) := by
  cases request <;> exact ⟨rfl, Nat.le_refl _, id⟩

theorem steady_mark (run : Nat) (step : String) (status : Option StepStatus) :
    Steady m (m.mark run step status).2 := by
  unfold mark
  split
  · exact ⟨rfl, Nat.le_refl _, id⟩
  · exact .refl m
  · exact .refl m

/-! ## Tokens -/

/-- The tasks that wait under tokens are listed there. A task is taken off the list only when its
token is cancelled, and then it is awake. -/
structure Watches (m : Machine) (tokens : TaskId → Option Token) : Prop where
  listed {token : Token} {t : TaskId} : (token, t) ∈ m.observers → tokens t = some token
  valid {token : Token} {t : TaskId} : (token, t) ∈ m.observers → m.isCancelled token = false
  watched {token : Token} {t : TaskId} : tokens t = some token →
    (token, t) ∈ m.observers ∨ m.isCancelled token = true ∧ m.Awake t

namespace Watches

variable {m m' : Machine} {tokens : TaskId → Option Token} {me : TaskId} {token : Token}

/-- What tasks are woken by is the same, and those stay awake whose tokens were cancelled. -/
theorem pass (h : m.Watches tokens) (halerts : m'.alerts = m.alerts)
    (hawake : ∀ t token, tokens t = some token → m.isCancelled token = true → m.Awake t → m'.Awake t) :
    m'.Watches tokens := by
  have hobservers : m'.observers = m.observers := congrArg Prod.fst halerts
  have hcancelled (token : Token) : m'.isCancelled token = m.isCancelled token :=
    congrArg (fun a : _ × List Token × _ => token.isCancelled a.2.1) halerts
  refine ⟨fun ht => h.listed (hobservers ▸ ht), fun ht => ?_, fun {token t} ht => ?_⟩
  · rw [hcancelled]
    exact h.valid (hobservers ▸ ht)
  · rw [hobservers, hcancelled]
    exact (h.watched ht).imp_right fun hc => ⟨hc.1, hawake t token ht hc.1 hc.2⟩

theorem steady (h : m.Watches tokens) (hm : Steady m m') : m'.Watches tokens :=
  h.pass hm.alerts fun _ _ _ _ => hm.awake

/-- Whoever waits under a token that is not cancelled is listed. -/
theorem mem (h : m.Watches tokens) (ht : tokens me = some token)
    (hc : m.isCancelled token = false) : (token, me) ∈ m.observers := by
  refine (h.watched ht).resolve_right fun hcancelled => ?_
  rw [hc] at hcancelled
  cases hcancelled.1

theorem of_timers {timers : List Timer} {next : Nat} (h : m.Watches tokens) :
    Watches { m with timers, next } tokens := ⟨h.listed, h.valid, h.watched⟩

theorem forget (h : m.Watches tokens) (me : TaskId) :
    (m.forget me).Watches (Function.update tokens me none) where
  listed {token t} ht := by
    obtain ⟨hmem, hne⟩ := List.mem_filter.mp ht
    rw [Function.update_of_ne (by simpa using hne)]
    exact h.listed hmem
  valid ht := h.valid (List.mem_filter.mp ht).1
  watched {token t} ht := by
    by_cases htme : t = me
    · subst htme
      rw [Function.update_self] at ht
      cases ht
    · rw [Function.update_of_ne htme] at ht
      exact (h.watched ht).imp_left fun hmem => List.mem_filter.mpr ⟨hmem, by simpa using htme⟩

theorem observe (h : m.Watches tokens) (ht : tokens me = none) (hc : m.isCancelled token = false) :
    (m.observe token me).Watches (Function.update tokens me (some token)) := by
  have hnot : ¬ (m.observers.any fun p => decide (p.2 = me)) = true := by
    intro hany
    obtain ⟨p, hp, hme⟩ := List.any_eq_true.mp hany
    obtain ⟨other, t⟩ := p
    obtain rfl : t = me := by simpa using hme
    rw [h.listed hp] at ht
    cases ht
  rw [Machine.observe, if_neg hnot]
  refine ⟨fun {other t} hm => ?_, fun {other t} hm => ?_, fun {other t} hm => ?_⟩
  · rcases List.mem_append.mp hm with hold | hnew
    · have hne : t ≠ me := by
        rintro rfl
        rw [h.listed hold] at ht
        cases ht
      rw [Function.update_of_ne hne]
      exact h.listed hold
    · cases List.mem_singleton.mp hnew
      exact Function.update_self _ _ _
  · rcases List.mem_append.mp hm with hm | hm
    · exact h.valid hm
    · cases List.mem_singleton.mp hm
      exact hc
  · by_cases htme : t = me
    · subst htme
      rw [Function.update_self] at hm
      cases hm
      exact Or.inl (List.mem_append_right _ (List.mem_singleton_self _))
    · rw [Function.update_of_ne htme] at hm
      exact (h.watched hm).imp_left fun hmem => List.mem_append_left _ hmem

/-- Who waits under the token already stays listed. -/
theorem observe_again (h : m.Watches tokens) (ht : tokens me = some token)
    (hc : m.isCancelled token = false) : (m.observe token me).Watches tokens := by
  have hany : (m.observers.any fun p => decide (p.2 = me)) = true :=
    List.any_eq_true.mpr ⟨(token, me), h.mem ht hc, by simp⟩
  rwa [Machine.observe, if_pos hany]

theorem cancel (h : m.Watches tokens) (token : Token) : (m.cancel token).Watches tokens := by
  have hfold (released : List (Token × TaskId)) (m' : Machine) :
      Steady m' (released.foldl (fun m p => m.wake p.2) m') ∧
        ∀ p ∈ released, (released.foldl (fun m p => m.wake p.2) m').Awake p.2 := by
    induction released generalizing m' with
    | nil => exact ⟨.refl m', by simp⟩
    | cons p rest ih =>
        obtain ⟨hsteady, hall⟩ := ih (m'.wake p.2)
        refine ⟨(m'.steady_wake p.2).trans hsteady, fun q hq => ?_⟩
        rcases List.mem_cons.mp hq with rfl | hq
        · exact hsteady.awake (m'.awake_wake q.2)
        · exact hall q hq
  have hcancelled (released : List (Token × TaskId)) (other : Token) :
      Machine.isCancelled { m with cancelled := token :: m.cancelled, observers := released } other =
        (token.covers other || m.isCancelled other) := by
    simp only [Machine.isCancelled, Token.isCancelled, List.any_cons]
  unfold Machine.cancel
  rw [List.partition_eq_filter_filter]
  obtain ⟨hsteady, hall⟩ := hfold (m.observers.filter fun p => token.covers p.1)
    { m with
      cancelled := token :: m.cancelled
      observers := m.observers.filter (not ∘ fun p => token.covers p.1) }
  refine ⟨fun {other t} hm => ?_, fun {other t} hm => ?_, fun {other t} ht => ?_⟩
  · rw [hsteady.observers] at hm
    exact h.listed (List.mem_filter.mp hm).1
  · rw [hsteady.observers] at hm
    obtain ⟨hmem, hnot⟩ := List.mem_filter.mp hm
    rw [hsteady.isCancelled, hcancelled, h.valid hmem]
    simpa using hnot
  · rw [hsteady.observers, hsteady.isCancelled, hcancelled]
    rcases h.watched ht with hmem | ⟨hc, hawake⟩
    · by_cases hcovers : token.covers other = true
      · exact Or.inr ⟨by rw [hcovers, Bool.true_or], hall _ (List.mem_filter.mpr ⟨hmem, hcovers⟩)⟩
      · exact Or.inl (List.mem_filter.mpr ⟨hmem, by simpa using hcovers⟩)
    · exact Or.inr ⟨by rw [hc, Bool.or_true], hsteady.awake hawake⟩

end Watches

/-! ## Timers -/

/-- The tasks that wait for a timer have one of their own, which is pending unless they are awake.
The timers of deadlines wake nobody. -/
structure Times (m : Machine) (timers : TaskId → Option Nat) (deadlines : Nat → Prop) : Prop where
  numbered {x : Timer} : x ∈ m.timers → x.number < m.next
  own {t : TaskId} {n : Nat} : timers t = some n →
    n < m.next ∧ ∀ x ∈ m.timers, x.number = n → x.alarm = .wake t
  timed {t : TaskId} {n : Nat} : timers t = some n → (∃ x ∈ m.timers, x.number = n) ∨ m.Awake t
  deadline {n : Nat} : deadlines n →
    n < m.next ∧ ∀ x ∈ m.timers, x.number = n → ∃ token, x.alarm = .cancel token

namespace Times

variable {m m' : Machine} {timers : TaskId → Option Nat} {deadlines : Nat → Prop} {me : TaskId}
  {n : Nat}

theorem fewer {deadlines' : Nat → Prop} (h : m.Times timers deadlines)
    (hless : ∀ d, deadlines' d → deadlines d) : m.Times timers deadlines' :=
  ⟨h.numbered, h.own, h.timed, fun hd => h.deadline (hless _ hd)⟩

/-- The timers are the same, and those stay awake whose timers fired. -/
theorem pass (h : m.Times timers deadlines) (htimers : m'.timers = m.timers)
    (hnext : m.next ≤ m'.next)
    (hawake : ∀ t n, timers t = some n → (∀ x ∈ m.timers, x.number ≠ n) → m.Awake t → m'.Awake t) :
    m'.Times timers deadlines where
  numbered hx := Nat.lt_of_lt_of_le (h.numbered (htimers ▸ hx)) hnext
  own ht := by
    rw [htimers]
    exact (h.own ht).imp_left fun hlt => Nat.lt_of_lt_of_le hlt hnext
  timed {t n} ht := by
    rw [htimers]
    by_cases hpending : ∃ x ∈ m.timers, x.number = n
    · exact Or.inl hpending
    · have hfired : ∀ x ∈ m.timers, x.number ≠ n := fun x hx hn => hpending ⟨x, hx, hn⟩
      exact Or.inr (hawake t n ht hfired ((h.timed ht).resolve_left hpending))
  deadline hd := by
    rw [htimers]
    exact (h.deadline hd).imp_left fun hlt => Nat.lt_of_lt_of_le hlt hnext

theorem of_eq (h : m.Times timers deadlines) (htimers : m'.timers = m.timers)
    (hnext : m.next ≤ m'.next) (hawake : ∀ t, m.Awake t → m'.Awake t) : m'.Times timers deadlines :=
  h.pass htimers hnext fun t _ _ _ => hawake t

theorem steady (h : m.Times timers deadlines) (hm : Steady m m') : m'.Times timers deadlines :=
  h.of_eq hm.timers hm.next fun _ => hm.awake

theorem clear (h : m.Times timers deadlines) (me : TaskId) :
    m.Times (Function.update timers me none) deadlines := by
  have hold {t : TaskId} {n : Nat} (ht : Function.update timers me none t = some n) :
      timers t = some n := by
    by_cases htme : t = me
    · subst htme
      rw [Function.update_self] at ht
      cases ht
    · rwa [Function.update_of_ne htme] at ht
  exact ⟨h.numbered, fun ht => h.own (hold ht), fun ht => h.timed (hold ht), h.deadline⟩

theorem schedule (h : m.Times timers deadlines) (span : Nat) (me : TaskId) :
    (m.schedule span (.wake me)).2.Times (Function.update timers me (some m.next)) deadlines := by
  have hnew {x : Timer} (hx : x ∈ (m.schedule span (.wake me)).2.timers) :
      x ∈ m.timers ∨ x.number = m.next ∧ x.alarm = .wake me := by
    refine (List.mem_append.mp hx).imp_right fun hx => ?_
    rw [List.mem_singleton.mp hx]
    exact ⟨rfl, rfl⟩
  refine ⟨fun hx => ?_, fun {t n} ht => ?_, fun {t n} ht => ?_, fun {n} hd => ?_⟩
  · rcases hnew hx with hx | ⟨hx, -⟩
    · exact Nat.lt_succ_of_lt (h.numbered hx)
    · exact hx ▸ Nat.lt_succ_self _
  · by_cases htme : t = me
    · subst htme
      rw [Function.update_self] at ht
      cases ht
      refine ⟨Nat.lt_succ_self _, fun x hx hn => ?_⟩
      rcases hnew hx with hx | ⟨-, halarm⟩
      · exact absurd hn (Nat.ne_of_lt (h.numbered hx))
      · exact halarm
    · rw [Function.update_of_ne htme] at ht
      obtain ⟨hlt, hown⟩ := h.own ht
      refine ⟨Nat.lt_succ_of_lt hlt, fun x hx hn => ?_⟩
      rcases hnew hx with hx | ⟨hnumber, -⟩
      · exact hown x hx hn
      · omega
  · by_cases htme : t = me
    · subst htme
      rw [Function.update_self] at ht
      cases ht
      exact Or.inl ⟨_, List.mem_append_right _ (List.mem_singleton_self _), rfl⟩
    · rw [Function.update_of_ne htme] at ht
      exact (h.timed ht).imp_left fun ⟨x, hx, hn⟩ => ⟨x, List.mem_append_left _ hx, hn⟩
  · obtain ⟨hlt, hcancel⟩ := h.deadline hd
    refine ⟨Nat.lt_succ_of_lt hlt, fun x hx hn => ?_⟩
    rcases hnew hx with hx | ⟨hnumber, -⟩
    · exact hcancel x hx hn
    · omega

theorem startDeadline (h : m.Times timers deadlines) (span : Nat) (token : Token) :
    (m.schedule span (.cancel token)).2.Times timers fun d => deadlines d ∨ m.next = d := by
  have hnew {x : Timer} (hx : x ∈ (m.schedule span (.cancel token)).2.timers) :
      x ∈ m.timers ∨ x.number = m.next ∧ x.alarm = .cancel token := by
    refine (List.mem_append.mp hx).imp_right fun hx => ?_
    rw [List.mem_singleton.mp hx]
    exact ⟨rfl, rfl⟩
  refine ⟨fun hx => ?_, fun {t n} ht => ?_, fun {t n} ht => ?_, fun {n} hd => ?_⟩
  · rcases hnew hx with hx | ⟨hx, -⟩
    · exact Nat.lt_succ_of_lt (h.numbered hx)
    · exact hx ▸ Nat.lt_succ_self _
  · obtain ⟨hlt, hown⟩ := h.own ht
    refine ⟨Nat.lt_succ_of_lt hlt, fun x hx hn => ?_⟩
    rcases hnew hx with hx | ⟨hnumber, -⟩
    · exact hown x hx hn
    · omega
  · exact (h.timed ht).imp_left fun ⟨x, hx, hn⟩ => ⟨x, List.mem_append_left _ hx, hn⟩
  · rcases hd with hd | rfl
    · obtain ⟨hlt, hcancel⟩ := h.deadline hd
      refine ⟨Nat.lt_succ_of_lt hlt, fun x hx hn => ?_⟩
      rcases hnew hx with hx | ⟨hnumber, -⟩
      · exact hcancel x hx hn
      · omega
    · refine ⟨Nat.lt_succ_self _, fun x hx hn => ?_⟩
      rcases hnew hx with hx | ⟨-, halarm⟩
      · exact absurd hn (Nat.ne_of_lt (h.numbered hx))
      · exact ⟨token, halarm⟩

/-- A timer is stopped that no other task waits for, unless that task is awake. -/
theorem stopTimer (h : m.Times timers deadlines)
    (hn : ∀ t, timers t = some n → (∃ x ∈ m.timers, x.number = n) → m.Awake t) :
    (m.stopTimer n).Times timers deadlines := by
  have hold {x : Timer} (hx : x ∈ (m.stopTimer n).timers) : x ∈ m.timers := (List.mem_filter.mp hx).1
  refine ⟨fun hx => h.numbered (hold hx), fun ht => ?_, fun {t k} ht => ?_, fun hd => ?_⟩
  · exact (h.own ht).imp_right fun hown x hx => hown x (hold hx)
  · rcases h.timed ht with ⟨x, hx, hk⟩ | hawake
    · by_cases hkn : k = n
      · subst hkn
        exact Or.inr (hn t ht ⟨x, hx, hk⟩)
      · refine Or.inl ⟨x, List.mem_filter.mpr ⟨hx, ?_⟩, hk⟩
        rw [hk]
        exact decide_eq_true hkn
    · exact Or.inr hawake
  · exact (h.deadline hd).imp_right fun hcancel x hx => hcancel x (hold hx)

theorem stopOwn (h : m.Times timers deadlines) (hme : timers me = some n) :
    (m.stopTimer n).Times (Function.update timers me none) deadlines := by
  refine (h.clear me).stopTimer fun t ht ⟨x, hx, hn⟩ => ?_
  by_cases htme : t = me
  · subst htme
    rw [Function.update_self] at ht
    cases ht
  · rw [Function.update_of_ne htme] at ht
    have halarm := ((h.own ht).2 x hx hn).symm.trans ((h.own hme).2 x hx hn)
    exact absurd (Alarm.wake.inj halarm) htme

theorem stopDeadline (h : m.Times timers deadlines) (hd : deadlines n) :
    (m.stopTimer n).Times timers deadlines := by
  refine h.stopTimer fun t ht ⟨x, hx, hn⟩ => ?_
  obtain ⟨token, halarm⟩ := (h.deadline hd).2 x hx hn
  cases ((h.own ht).2 x hx hn).symm.trans halarm

end Times

theorem timers_cancel (token : Token) : (m.cancel token).timers = m.timers := by
  have hfold (released : List (Token × TaskId)) (m' : Machine) :
      (released.foldl (fun m p => m.wake p.2) m').timers = m'.timers := by
    induction released generalizing m' with
    | nil => rfl
    | cons p rest ih => exact (ih _).trans (m'.steady_wake p.2).timers
  exact hfold _ _

theorem Times.cancel {m : Machine} {timers : TaskId → Option Nat} {deadlines : Nat → Prop}
    (h : m.Times timers deadlines) (token : Token) : (m.cancel token).Times timers deadlines :=
  h.of_eq (m.timers_cancel token) (Nat.le_of_eq (m.next_cancel token).symm)
    fun _ => (m.rouses_cancel [] token).awake

/-! ## The clock -/

theorem rings (fired : List Timer) :
    (∀ tokens, m.Watches tokens → (fired.foldl (fun m x => m.ring x.alarm) m).Watches tokens) ∧
      (fired.foldl (fun m x => m.ring x.alarm) m).timers = m.timers ∧
      (fired.foldl (fun m x => m.ring x.alarm) m).next = m.next ∧
      (∀ t, m.Awake t → (fired.foldl (fun m x => m.ring x.alarm) m).Awake t) ∧
      ∀ x ∈ fired, ∀ t, x.alarm = .wake t →
        (fired.foldl (fun m x => m.ring x.alarm) m).Awake t := by
  induction fired generalizing m with
  | nil => exact ⟨fun _ h => h, rfl, rfl, fun _ h => h, by simp⟩
  | cons x rest ih =>
      obtain ⟨hwatches, htimers, hnext, hawake, hall⟩ := ih (m.ring x.alarm)
      have hring : (m.ring x.alarm).timers = m.timers := by
        cases x.alarm with
        | wake t => exact (m.steady_wake t).timers
        | cancel token => exact m.timers_cancel token
      refine ⟨fun tokens h => hwatches tokens ?_, htimers.trans hring,
        hnext.trans (m.next_ring x.alarm), fun t h => hawake t ((m.rouses_ring [] x.alarm).awake h),
        fun y hy t hwake => ?_⟩
      · cases x.alarm with
        | wake t => exact h.steady (m.steady_wake t)
        | cancel token => exact h.cancel token
      · rcases List.mem_cons.mp hy with rfl | hy
        · refine hawake t ?_
          rw [hwake]
          exact m.awake_wake t
        · exact hall y hy t hwake

theorem advanceClock?_eq {m' : Machine} (h : m.advanceClock? = some m') : ∃ due,
    m' = (m.timers.filter fun x => decide (x.due = due)).foldl (fun m x => m.ring x.alarm)
      { m with now := due, timers := m.timers.filter (not ∘ fun x => decide (x.due = due)) } := by
  unfold advanceClock? at h
  cases hdue : m.nextDue? with
  | none =>
      rw [hdue] at h
      cases h
  | some due =>
      rw [hdue, Option.bind_eq_bind, Option.bind_some, List.partition_eq_filter_filter] at h
      exact ⟨due, (Option.some.inj h).symm⟩

theorem Watches.advanceClock? {m m' : Machine} {tokens : TaskId → Option Token}
    (h : m.Watches tokens) (hm : m.advanceClock? = some m') : m'.Watches tokens := by
  obtain ⟨due, rfl⟩ := m.advanceClock?_eq hm
  exact (rings _ _).1 tokens ⟨h.listed, h.valid, h.watched⟩

theorem Times.advanceClock? {m m' : Machine} {timers : TaskId → Option Nat}
    {deadlines : Nat → Prop} (h : m.Times timers deadlines) (hm : m.advanceClock? = some m') :
    m'.Times timers deadlines := by
  obtain ⟨due, hm'⟩ := m.advanceClock?_eq hm
  obtain ⟨-, htimers, hnext, hawake, hall⟩ := rings
    { m with now := due, timers := m.timers.filter (not ∘ fun x => decide (x.due = due)) }
    (m.timers.filter fun x => decide (x.due = due))
  rw [← hm'] at htimers hnext hawake hall
  have hold {x : Timer} (hx : x ∈ m'.timers) : x ∈ m.timers := by
    rw [htimers] at hx
    exact (List.mem_filter.mp hx).1
  refine ⟨fun hx => ?_, fun {t n} ht => ?_, fun {t n} ht => ?_, fun hd => ?_⟩
  · rw [hnext]
    exact h.numbered (hold hx)
  · rw [hnext]
    exact (h.own ht).imp_right fun hown x hx => hown x (hold hx)
  · rcases h.timed ht with ⟨x, hx, hn⟩ | hbefore
    · by_cases hx' : x.due = due
      · have halarm := (h.own ht).2 x hx hn
        exact Or.inr (hall x (List.mem_filter.mpr ⟨hx, decide_eq_true hx'⟩) t halarm)
      · refine Or.inl ⟨x, ?_, hn⟩
        rw [htimers]
        exact List.mem_filter.mpr ⟨hx, by simpa using hx'⟩
    · exact Or.inr (hawake t hbefore)
  · rw [hnext]
    exact (h.deadline hd).imp_right fun hcancel x hx => hcancel x (hold hx)

end Machine
end FlowEngine
