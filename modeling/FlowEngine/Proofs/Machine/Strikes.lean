import FlowEngine.Proofs.Machine.Calm
import Mathlib.Data.List.Count

/-!
# How often a token is cancelled

A token is struck once for each time that it was cancelled and for each timer that is going to
cancel it. Only deadlines, joins that fail fast and the owner of the machine strike tokens: timers
that fire turn what is going to happen into what has happened, and no other poll adds to it.
-/
namespace FlowEngine.Machine

def strikes (m : Machine) (token : Token) : Nat :=
  m.cancelled.count token + m.timers.countP fun x => decide (x.alarm = .cancel token)

variable {m m' m'' : Machine} {token other : Token}

theorem mem_of_strikes (h : m.strikes token = 0) : token ∉ m.cancelled := by
  unfold strikes at h
  exact List.count_eq_zero.mp (by omega)

/-- A token that a pending timer is going to cancel, and that is struck once, was not cancelled. -/
theorem not_mem_of_pending (h : m.strikes token ≤ 1) {x : Timer} (hx : x ∈ m.timers)
    (halarm : x.alarm = .cancel token) : token ∉ m.cancelled := by
  have hpending : 0 < m.timers.countP fun x => decide (x.alarm = .cancel token) :=
    List.countP_pos_iff.mpr ⟨x, hx, decide_eq_true halarm⟩
  unfold strikes at h
  exact List.count_eq_zero.mp (by omega)

theorem strikes_of_alerts (h : m'.alerts = m.alerts) : m'.strikes token = m.strikes token := by
  obtain ⟨-, hcancelled, htimers⟩ : m'.observers = m.observers ∧ m'.cancelled = m.cancelled ∧
      m'.timers = m.timers := by simpa [alerts] using h
  rw [strikes, hcancelled, htimers, strikes]

/-! ## What strikes a token -/

@[simp] theorem cancelled_cancel (m : Machine) (token : Token) :
    (m.cancel token).cancelled = token :: m.cancelled := by
  have hfold (released : List (Token × TaskId)) (m' : Machine) :
      (released.foldl (fun m p => m.wake p.2) m').cancelled = m'.cancelled := by
    induction released generalizing m' with
    | nil => rfl
    | cons p rest ih => exact (ih _).trans (m'.steady_wake p.2).cancelled
  exact hfold _ _

theorem strikes_cancel (m : Machine) (token other : Token) :
    (m.cancel token).strikes other = m.strikes other + if token = other then 1 else 0 := by
  rw [strikes, cancelled_cancel, timers_cancel, strikes, List.count_cons]
  simp only [beq_iff_eq]
  omega

theorem strikes_schedule (m : Machine) (span : Nat) (alarm : Alarm) (other : Token) :
    (m.schedule span alarm).2.strikes other =
      m.strikes other + if alarm = .cancel other then 1 else 0 := by
  simp only [strikes, schedule, List.countP_append, List.countP_singleton, decide_eq_true_eq]
  omega

theorem strikes_ring (m : Machine) (alarm : Alarm) (other : Token) :
    (m.ring alarm).strikes other = m.strikes other + if alarm = .cancel other then 1 else 0 := by
  cases alarm with
  | wake t => exact (strikes_of_alerts (m.steady_wake t).alerts).trans (by simp)
  | cancel token => simpa [ring] using m.strikes_cancel token other

theorem strikes_rings (m : Machine) (fired : List Timer) (other : Token) :
    (fired.foldl (fun m x => m.ring x.alarm) m).strikes other =
      m.strikes other + fired.countP fun x => decide (x.alarm = .cancel other) := by
  induction fired generalizing m with
  | nil => rfl
  | cons x rest ih =>
      rw [List.foldl_cons, ih, strikes_ring, List.countP_cons]
      simp only [decide_eq_true_eq]
      omega

/-- What timers were going to cancel is cancelled when they fire. -/
theorem strikes_advanceClock? (h : m.advanceClock? = some m') (other : Token) :
    m'.strikes other = m.strikes other := by
  obtain ⟨due, rfl⟩ := m.advanceClock?_eq h
  rw [strikes_rings]
  have hsplit := List.countP_eq_countP_filter_add m.timers
    (fun x => decide (x.alarm = .cancel other)) fun x => decide (x.due = due)
  have hrest : (not ∘ fun x : Timer => decide (x.due = due)) = fun x => !decide (x.due = due) := rfl
  simp only [strikes, hrest, hsplit]
  omega

/-! ## What strikes no token -/

/-- An operation that cancels nothing and starts no timers but those that wake tasks. -/
structure Mild (m m' : Machine) : Prop where
  cancelled : m'.cancelled = m.cancelled
  next : m.next ≤ m'.next
  timers : ∃ woken, m'.timers.Sublist (m.timers ++ woken) ∧
    ∀ x ∈ woken, m.next ≤ x.number ∧ ∃ t, x.alarm = .wake t

namespace Mild

theorem of_fewer (hcancelled : m'.cancelled = m.cancelled) (hnext : m.next ≤ m'.next)
    (htimers : m'.timers.Sublist m.timers) : Mild m m' :=
  ⟨hcancelled, hnext, [], by rwa [List.append_nil], by simp⟩

theorem refl (m : Machine) : Mild m m := of_fewer rfl (Nat.le_refl _) (.refl _)

theorem of_steady (h : Steady m m') : Mild m m' :=
  of_fewer h.cancelled h.next (by rw [h.timers])

theorem trans (h : Mild m m') (h' : Mild m' m'') : Mild m m'' := by
  obtain ⟨woken, hsub, hwake⟩ := h.timers
  obtain ⟨woken', hsub', hwake'⟩ := h'.timers
  refine ⟨h'.cancelled.trans h.cancelled, Nat.le_trans h.next h'.next, woken ++ woken', ?_,
    fun x hx => ?_⟩
  · rw [← List.append_assoc]
    exact hsub'.trans (hsub.append (.refl _))
  · rcases List.mem_append.mp hx with hx | hx
    · exact hwake x hx
    · exact (hwake' x hx).imp_left (Nat.le_trans h.next)

theorem strikes_le (h : Mild m m') (token : Token) : m'.strikes token ≤ m.strikes token := by
  obtain ⟨woken, hsub, hwake⟩ := h.timers
  have hnone : woken.countP (fun x => decide (x.alarm = .cancel token)) = 0 := by
    refine List.countP_eq_zero.mpr fun x hx hcancel => ?_
    obtain ⟨-, t, halarm⟩ := hwake x hx
    cases halarm.symm.trans (of_decide_eq_true hcancel)
  have hle := hsub.countP_le (p := fun x => decide (x.alarm = .cancel token))
  rw [List.countP_append, hnone] at hle
  rw [strikes, h.cancelled, strikes]
  omega

/-- A timer was there before, or it has a number of its own. -/
theorem timer (h : Mild m m') {x : Timer} (hx : x ∈ m'.timers) :
    x ∈ m.timers ∨ m.next ≤ x.number := by
  obtain ⟨woken, hsub, hwake⟩ := h.timers
  exact (List.mem_append.mp (hsub.subset hx)).imp_right fun hx => (hwake x hx).1

end Mild

theorem mild_observe (m : Machine) (token : Token) (me : TaskId) : Mild m (m.observe token me) := by
  unfold observe
  split
  · exact .refl m
  · exact .of_fewer rfl (Nat.le_refl _) (.refl _)

theorem mild_stopTimer (m : Machine) (number : Nat) : Mild m (m.stopTimer number) :=
  .of_fewer rfl (Nat.le_refl _) List.filter_sublist

theorem mild_schedule (m : Machine) (span : Nat) (me : TaskId) :
    Mild m (m.schedule span (.wake me)).2 :=
  ⟨rfl, Nat.le_succ _, [⟨m.next, m.now + span, .wake me⟩], .refl _,
    fun x hx => by rw [List.mem_singleton.mp hx]; exact ⟨Nat.le_refl _, me, rfl⟩⟩

theorem errand_mild (me : TaskId) : Errand Mild me := by
  refine .of_wake ?_ (fun m t => .of_steady (m.steady_wake t))
    fun m run gate => .of_steady (m.steady_setGate run gate)
  exact {
    refl := .refl
    trans := .trans
    modifyRun _ _ _ _ _ := .of_fewer rfl (Nat.le_refl _) (.refl _)
    modifyWorld _ _ _ := .of_fewer rfl (Nat.le_refl _) (.refl _)
    forget _ := .of_fewer rfl (Nat.le_refl _) (.refl _)
    observe m token := m.mild_observe token me
    schedule m span := m.mild_schedule span me
    stopTimer := mild_stopTimer }

theorem mild_pollJoin (m : Machine) (me : TaskId) (run : Nat) (policy : JoinPolicy) (group : Token)
    (branches : List Branch) (wait : Wait) :
    Mild m (m.pollJoin me run policy group branches wait).machine ∨
      (m.pollJoin me run policy group branches wait).turn.answer?.isSome = true ∧
        Steady (m.cancel group) (m.pollJoin me run policy group branches wait).machine := by
  unfold pollJoin
  cases wait with
  | branches tasks =>
      dsimp only
      unfold checkJoin
      split
      · rename_i order _
        have hleft := steady_setWaiters (m.cancel group) none (tasks.filter (m.endedAfter order))
        exact Or.inr ⟨rfl, hleft.trans ⟨rfl, Nat.le_refl _, id⟩⟩
      · unfold gather
        split <;> exact Or.inl (.refl m)
  | _ =>
      dsimp only
      split
      · exact Or.inl (.of_steady (m.steady_spawn _))
      · exact Or.inl (.of_steady ((m.steady_spawn _).trans (steady_setWaiters _ _ _)))

/-- No poll strikes a token but that of a deadline or a join. -/
theorem mild_poll (m : Machine) (me : TaskId) (wait : Wait) {e : Effect}
    (hdeadline : ∀ token limit, e ≠ .startDeadline token limit)
    (hjoin : ∀ run policy group bs, e ≠ .join run policy group bs) :
    Mild m (m.poll me wait e).machine := by
  cases e with
  | startDeadline token limit => exact absurd rfl (hdeadline token limit)
  | join run policy group bs => exact absurd rfl (hjoin run policy group bs)
  | stopDeadline deadline => exact m.mild_stopTimer deadline
  | request run token request => exact (errand_mild me).pollRequest m run token request wait
  | sleep token span => exact (errand_mild me).pollSleep m token span wait
  | settle run token =>
      have hstill := outsider_still.pollSettle m me run token wait
      obtain ⟨hcancelled, htimers, -⟩ : (m.pollSettle me run token wait).machine.cancelled =
          m.cancelled ∧ (m.pollSettle me run token wait).machine.timers = m.timers ∧
            (m.pollSettle me run token wait).machine.world = m.world := by
        simpa [still] using hstill
      exact .of_fewer hcancelled (Nat.le_of_eq (outsider_next.pollSettle m me run token wait).symm)
        (by rw [show (m.poll me wait (.settle run token)).machine.timers = m.timers from htimers])
  | _ => exact .of_steady (m.steady_poll me wait rfl)

end FlowEngine.Machine
