import FlowEngine.Proofs.Likeness.Systems

/-!
# Timers that go unnoticed

One of two machines that are alike may have timers of its own that cancel tokens. When such a timer
fires at a moment at which nothing else happens, only that machine takes a step, and both are alike
again as soon as the clock has moved on. So systems come to results that mean the same, unless a
token is cancelled that makes a difference.
-/
namespace FlowEngine

namespace Machine

/-! ## The time of day makes no difference -/

def setNow (m : Machine) (now : Nat) : Machine := { m with now }

section

variable (m : Machine) (now : Nat)

theorem wake_setNow (t : TaskId) : (m.setNow now).wake t = (m.wake t).setNow now := by
  have hready (t : TaskId) :
      (if t ∈ m.ready then m.setNow now else { m.setNow now with ready := m.ready ++ [t] }) =
        (if t ∈ m.ready then m else { m with ready := m.ready ++ [t] }).setNow now := by
    split <;> rfl
  cases t with
  | main => rfl
  | branch number => exact hready (.branch number)
  | submission number => exact hready (.submission number)

theorem cancel_setNow (token : Token) :
    (m.setNow now).cancel token = (m.cancel token).setNow now := by
  have hfold (m : Machine) (released : List (Token × TaskId)) :
      released.foldl (fun m p => m.wake p.2) (m.setNow now) =
        (released.foldl (fun m p => m.wake p.2) m).setNow now := by
    induction released generalizing m with
    | nil => rfl
    | cons p rest ih =>
        rw [List.foldl_cons, List.foldl_cons, wake_setNow]
        exact ih (m.wake p.2)
  exact hfold { m with cancelled := token :: m.cancelled, observers := _ } _

theorem rings_setNow (fired : List Timer) :
    fired.foldl (fun m x => m.ring x.alarm) (m.setNow now) =
      (fired.foldl (fun m x => m.ring x.alarm) m).setNow now := by
  have hring (m : Machine) (alarm : Alarm) :
      (m.setNow now).ring alarm = (m.ring alarm).setNow now := by
    cases alarm with
    | wake t => exact m.wake_setNow now t
    | cancel token => exact m.cancel_setNow now token
  induction fired generalizing m with
  | nil => rfl
  | cons x rest ih =>
      rw [List.foldl_cons, List.foldl_cons, hring]
      exact ih (m.ring x.alarm)

end

/-! ## Steps of the clock -/

variable {v : Likeness} {m m' n' : Machine}

/-- When the clock of the other machine moves, either this one moves, too, or nothing has happened
that can be noticed on it. -/
theorem Like.advanceClock?_cases (h : m.Like v m') (hn : m'.advanceClock? = some n') :
    (∃ n, m.advanceClock? = some n ∧ n.Like v n') ∨ m.Like v (n'.setNow m'.now) ∨
      v.Disturbed n' := by
  obtain ⟨due', hdue', hfires⟩ := Option.bind_eq_some_iff.mp hn
  obtain ⟨-, hleast'⟩ := List.min?_eq_some_iff.mp hdue'
  have hcommon {y : Timer} (hy : y ∈ m.timers) : v.shift.timer y ∈ m'.timers := by
    have hkept := List.mem_map_of_mem (f := v.shift.timer) hy
    rw [← h.timers] at hkept
    exact (List.mem_filter.mp hkept).1
  by_cases htogether : ∃ y ∈ m.timers, y.due + v.shift.time = due'
  · obtain ⟨y, hy, rfl⟩ := htogether
    have hdue : m.nextDue? = some y.due := by
      refine List.min?_eq_some_iff.mpr ⟨List.mem_map_of_mem hy, ?_⟩
      intro due hmem
      obtain ⟨z, hz, rfl⟩ := List.mem_map.mp hmem
      exact Nat.le_of_add_le_add_right (hleast' _ (List.mem_map_of_mem (hcommon hz)))
    obtain ⟨n, n'', hm, hm', hlike⟩ := h.advanceClock?_of_due hdue hdue'
    obtain rfl : n' = n'' := Option.some.inj (hn.symm.trans hm')
    exact hlike.elim (fun hlike => Or.inl ⟨n, hm, hlike⟩) fun hd => Or.inr (Or.inr hd)
  · refine Or.inr ?_
    have halone (x : Timer) (hx : x ∈ m'.timers) (hdue : x.due = due') :
        v.shift.skips x.number = true := by
      refine eq_true_of_ne_false fun hskips => htogether ?_
      have hkept : x ∈ m'.timers.filter (fun x => !v.shift.skips x.number) :=
        List.mem_filter.mpr ⟨hx, by rw [hskips]; rfl⟩
      rw [h.timers] at hkept
      obtain ⟨y, hy, rfl⟩ := List.mem_map.mp hkept
      exact ⟨y, hy, hdue⟩
    let fired := m'.timers.filter fun x => decide (x.due = due')
    let rested : Machine := { m' with timers := m'.timers.filter fun x => !decide (x.due = due') }
    have hrested : m.Like v rested :=
      { h with
        timers := by
          rw [List.filter_comm, ← h.timers]
          refine List.filter_eq_self.mpr fun x hx => ?_
          obtain ⟨hx, hskips⟩ := List.mem_filter.mp hx
          rw [Bool.not_eq_true', decide_eq_false_iff_not]
          intro hdue
          rw [halone x hx hdue] at hskips
          cases hskips
        foreign := fun hx => h.foreign (List.mem_filter.mp hx).1 }
    have hnone : fired.filter (fun x => !v.shift.skips x.number) =
        ([] : List Timer).map v.shift.timer := by
      refine List.filter_eq_nil_iff.mpr fun x hx => ?_
      obtain ⟨hx, hdue⟩ := List.mem_filter.mp hx
      simp [halone x hx (of_decide_eq_true hdue)]
    have hfired := hrested.rings hnone fun x hx => h.foreign (List.mem_filter.mp hx).1
    have hadvanced : n' = (fired.foldl (fun m x => m.ring x.alarm) rested).setNow due' := by
      rw [← rings_setNow]
      rw [List.partition_eq_filter_filter] at hfires
      exact (Option.some.inj hfires).symm
    rw [hadvanced]
    exact hfired.imp_left fun hlike => rings_setNow rested m'.now fired ▸ hlike

end Machine

namespace System

variable {v : Likeness} {R : RunResult → RunResult → Prop} {s s' : System RunResult}

theorem run_succ {α : Type} {s : System α} {fuel : Nat} {x : α × Machine}
    (h : s.run fuel = some x) :
    s.run (fuel + 1) = some x := by
  induction fuel generalizing s with
  | zero =>
      unfold run at h ⊢
      cases hmain : s.main with
      | ended result order => rwa [hmain] at h
      | active p w =>
          rw [hmain] at h
          cases h
  | succ fuel ih =>
      unfold run at h ⊢
      cases hmain : s.main with
      | ended result order => rwa [hmain] at h
      | active p w =>
          simp only [hmain] at h ⊢
          obtain ⟨s', hstep, hrun⟩ := Option.bind_eq_some_iff.mp h
          exact Option.bind_eq_some_iff.mpr ⟨s', hstep, ih hrun⟩

/-- What is cancelled stays so until the end of a run. -/
theorem isCancelled_of_run {fuel : Nat} {r : RunResult} {m : Machine} (h : s.run fuel = some (r, m))
    {token : Token} (hs : s.machine.isCancelled token = true) : m.isCancelled token = true := by
  induction fuel generalizing s with
  | zero =>
      unfold run at h
      cases hmain : s.main with
      | active p w =>
          rw [hmain] at h
          cases h
      | ended result order =>
          rw [hmain] at h
          cases h
          exact hs
  | succ fuel ih =>
      unfold run at h
      cases hmain : s.main with
      | active p w =>
          rw [hmain] at h
          obtain ⟨s', hstep, hrun⟩ := Option.bind_eq_some_iff.mp h
          have hreaches : s.Reaches default _ s' := .single (.step hstep)
          exact ih hrun (hreaches.isCancelled hs)
      | ended result order =>
          rw [hmain] at h
          cases h
          exact hs

/-- While nobody can go on, the time of day makes no difference. -/
theorem run_setNow {s : System RunResult} (still : s.machine.Still)
    {p : Program RunResult} {w : Wait}
    (hmain : s.main = .active p w) (now fuel : Nat) :
    run fuel { s with machine := s.machine.setNow now } = s.run fuel := by
  cases fuel with
  | zero => simp only [run, hmain]
  | succ fuel =>
      have hstill : (s.machine.setNow now).Still := ⟨still.running, still.ready, still.mainReady⟩
      simp only [run, hmain, step?_of_still still]
      rw [step?_of_still hstill]
      rfl

/-- When a system comes to a result, the other one that is like it does so, too, and the results
mean the same. Only if a token is cancelled that makes a difference, this may fail. -/
theorem Like.run_of_run (h : Like v R s s') {fuel : Nat} {r' : RunResult} {m' : Machine}
    (hrun : s'.run fuel = some (r', m')) :
    (∃ r m, s.run fuel = some (r, m) ∧ R r r' ∧ m.Like v m') ∨ v.Disturbed m' := by
  induction fuel generalizing s s' with
  | zero =>
      obtain ⟨hmachine, hmain⟩ := h
      obtain ⟨m, state⟩ := s
      obtain ⟨m', state'⟩ := s'
      cases hmain with
      | active w programs => cases hrun
      | ended order related =>
          cases hrun
          exact Or.inl ⟨_, _, rfl, related, hmachine⟩
  | succ fuel ih =>
      obtain ⟨hmachine, hmain⟩ := h
      obtain ⟨m₀, state⟩ := s
      obtain ⟨m₀', state'⟩ := s'
      cases hmain with
      | ended order related =>
          cases hrun
          exact Or.inl ⟨_, _, rfl, related, hmachine⟩
      | @active p p' w programs =>
          obtain ⟨next', hstep', hrun⟩ := Option.bind_eq_some_iff.mp hrun
          have stepped {next : System RunResult}
              (hstep : System.step? ⟨m₀, .active p w⟩ = some next)
              (hnext : Like v R next next') :
              (∃ r m, System.run (fuel + 1) ⟨m₀, .active p w⟩ = some (r, m) ∧ R r r' ∧
                m.Like v m') ∨ v.Disturbed m' := by
            refine (ih hnext hrun).imp_left ?_
            rintro ⟨r, m, hruns, hlike⟩
            exact ⟨r, m, Option.bind_eq_some_iff.mpr ⟨next, hstep, hruns⟩, hlike⟩
          by_cases still : m₀.Still
          · rw [step?_of_still (hmachine.still.mpr still)] at hstep'
            obtain ⟨later', hclock', rfl⟩ := Option.map_eq_some_iff.mp hstep'
            rcases hmachine.advanceClock?_cases hclock' with
              ⟨later, hclock, hlater⟩ | hhidden | ⟨token, hexpects, hstale, hcancelled⟩
            · have hstep : System.step? ⟨m₀, .active p w⟩ = some ⟨later, .active p w⟩ := by
                rw [step?_of_still still]
                exact Option.map_eq_some_iff.mpr ⟨later, hclock, rfl⟩
              exact stepped hstep ⟨hlater, .active w programs⟩
            · have hstill := hhidden.still.mpr still
              have hsame := run_setNow (s := ⟨later', .active p' (v.shift.wait w)⟩)
                ⟨hstill.running, hstill.ready, hstill.mainReady⟩ rfl m₀'.now fuel
              refine (ih ⟨hhidden, .active w programs⟩ (hsame.trans hrun)).imp_left ?_
              rintro ⟨r, m, hruns, hlike⟩
              exact ⟨r, m, run_succ hruns, hlike⟩
            · exact Or.inr ⟨token, hexpects, hstale, isCancelled_of_run hrun hcancelled⟩
          · have hlike : Like v R ⟨m₀, .active p w⟩ ⟨m₀', .active p' (v.shift.wait w)⟩ :=
              ⟨hmachine, .active w programs⟩
            have hboth := hlike.step?_of_busy still
            rw [hstep'] at hboth
            generalize hstep : System.step? ⟨m₀, .active p w⟩ = next at hboth
            cases hboth with
            | some hnext => exact stepped hstep hnext

end System
end FlowEngine
