import FlowEngine.Proofs.Machine.Strikes
import FlowEngine.Proofs.Run.Grants
import FlowEngine.Proofs.Run.Wakefulness

/-!
# Scopes that only their runs cancel

When the owner of the machine cancels nothing in a scope, what is cancelled there was granted to one
deadline or one join and to nobody else. So the token of a deadline that was stopped in time is never
cancelled, nor is that of a join before the join fails.
-/
namespace FlowEngine

def Token.number (t : Token) : Nat := t.path.headD 0

/-! ## What a log tells -/

/-- A task got an answer to an effect. -/
def Answered (log : List Occurrence) (e : Effect) (a : e.Answer) : Prop :=
  ∃ t m m', .poll ⟨t, e, some a, m, m'⟩ ∈ log

/-- A deadline was started for a token. -/
def Deadline (log : List Occurrence) (d : Nat) (token : Token) : Prop :=
  ∃ limit, Answered log (.startDeadline token limit) d

/-- A deadline was stopped before it passed. -/
def Stopped (log : List Occurrence) (d : Nat) : Prop := Answered log (.stopDeadline d) false

def Joined (log : List Occurrence) (group : Token) : Prop :=
  ∃ run policy bs joined, Answered log (.join run policy group bs) joined

def OpenedWith (log : List Occurrence) (token : Token) : Prop :=
  ∃ flow parent number, Answered log (.openRun flow parent) (number, token)

def Spent (log : List Occurrence) (token : Token) : Prop :=
  (∃ d, Deadline log d token) ∨ Joined log token

section

variable {log more : List Occurrence} {t u : TaskId} {e : Effect} {a : e.Answer} {m m' : Machine}
  {d : Nat} {token : Token}

theorem Answered.append (h : Answered log e a) (more : List Occurrence) :
    Answered (log ++ more) e a := by
  obtain ⟨t, m, m', hm⟩ := h
  exact ⟨t, m, m', List.mem_append_left more hm⟩

theorem Answered.of_append (h : Answered (log ++ more) e a) :
    Answered log e a ∨ Answered more e a := by
  obtain ⟨t, m, m', hm⟩ := h
  exact (List.mem_append.mp hm).imp (fun hm => ⟨t, m, m', hm⟩) fun hm => ⟨t, m, m', hm⟩

theorem Answered.last (log : List Occurrence) (t : TaskId) (e : Effect) (a : e.Answer)
    (m m' : Machine) : Answered (log ++ [.poll ⟨t, e, some a, m, m'⟩]) e a :=
  ⟨t, m, m', List.mem_append_right log (List.mem_singleton_self _)⟩

theorem Answered.of_last {e' : Effect} {a' : e'.Answer}
    (h : Answered (log ++ [.poll ⟨t, e, some a, m, m'⟩]) e' a') :
    Answered log e' a' ∨ (⟨e', a'⟩ : Deed) = ⟨e, a⟩ := by
  refine h.of_append.imp_right fun hlast => ?_
  obtain ⟨u, m₁, m₁', hm⟩ := hlast
  cases List.mem_singleton.mp hm
  rfl

theorem Spent.append (h : Spent log token) (more : List Occurrence) : Spent (log ++ more) token := by
  rcases h with ⟨d, limit, h⟩ | ⟨run, policy, bs, joined, h⟩
  · exact Or.inl ⟨d, limit, h.append more⟩
  · exact Or.inr ⟨run, policy, bs, joined, h.append more⟩

theorem Spent.of_last (h : Spent (log ++ [.poll ⟨t, e, some a, m, m'⟩]) token) :
    Spent log token ∨ e.cancels = some token := by
  rcases h with ⟨d, limit, h⟩ | ⟨run, policy, bs, joined, h⟩
  · rcases h.of_last with hold | hlast
    · exact Or.inl (Or.inl ⟨d, limit, hold⟩)
    · cases hlast
      exact Or.inr rfl
  · rcases h.of_last with hold | hlast
    · exact Or.inl (Or.inr ⟨run, policy, bs, joined, hold⟩)
    · cases hlast
      exact Or.inr rfl

theorem Spent.last (h : e.cancels = some token) (log : List Occurrence) (t : TaskId)
    (m m' : Machine) : Spent (log ++ [.poll ⟨t, e, some a, m, m'⟩]) token := by
  cases e with
  | startDeadline other limit =>
      cases h
      exact Or.inl ⟨a, limit, .last log t _ a m m'⟩
  | join run policy group bs =>
      cases h
      exact Or.inr ⟨run, policy, bs, a, .last log t _ a m m'⟩
  | _ => cases h

theorem held_last : held u (log ++ [.poll ⟨t, e, some a, m, m'⟩]) =
    if t = u then e.grants a else held u log := by
  rw [held_append]
  rfl

theorem held_quiet (h : ∀ t e a m m', .poll ⟨t, e, some a, m, m'⟩ ∉ more) :
    held u (log ++ more) = held u log := by
  rw [held_append]
  generalize held u log = g
  induction more with
  | nil => rfl
  | cons x rest ih =>
      have hrest := ih fun t e a m m' hm => h t e a m m' (List.mem_cons_of_mem x hm)
      cases x with
      | errand => exact hrest
      | ended t => exact hrest
      | poll x =>
          obtain ⟨t, e, a, m, m'⟩ := x
          cases a with
          | none => exact hrest
          | some a => exact absurd List.mem_cons_self (h t e a m m')

end

/-! ## Machines -/

namespace Machine

variable {T token : Token} {m m' m'' : Machine} {struck : Option Token}

/-- An operation strikes at most one token of a scope, and that one once. -/
structure Strains (T : Token) (struck : Option Token) (m m' : Machine) : Prop where
  next : m.next ≤ m'.next
  strikes {token : Token} : T.covers token = true →
    m'.strikes token ≤ m.strikes token + if struck = some token then 1 else 0
  timer {x : Timer} : x ∈ m'.timers → x ∈ m.timers ∨ m.next ≤ x.number

namespace Strains

theorem le (h : Strains T struck m m') (hcovers : T.covers token = true) (hne : struck ≠ some token) :
    m'.strikes token ≤ m.strikes token := by
  have hstrikes := h.strikes hcovers
  rwa [if_neg hne] at hstrikes

theorem of_mild (h : Mild m m') : Strains T struck m m' :=
  ⟨h.next, fun {token} _ => Nat.le_trans (h.strikes_le token) (Nat.le_add_right _ _), h.timer⟩

theorem of_shared (h : m'.shared = m.shared) : Strains T struck m m' := by
  have halerts := alerts_of_shared h
  refine ⟨Nat.le_of_eq (next_of_shared h).symm, fun {token} _ => ?_, fun {x} hx => Or.inl ?_⟩
  · rw [strikes_of_alerts halerts]
    exact Nat.le_add_right _ _
  · have htimers : m'.timers = m.timers := congrArg (fun a => a.2.2) halerts
    rwa [htimers] at hx

theorem trans (h : Strains T struck m m') (h' : Strains T none m' m'') : Strains T struck m m'' := by
  refine ⟨Nat.le_trans h.next h'.next, fun {token} hcovers => ?_, fun {x} hx => ?_⟩
  · exact Nat.le_trans (h'.le hcovers nofun) (h.strikes hcovers)
  · exact (h'.timer hx).elim h.timer fun hnew => Or.inr (Nat.le_trans h.next hnew)

theorem schedule (m : Machine) (span : Nat) (token : Token) :
    Strains T (some token) m (m.schedule span (.cancel token)).2 := by
  refine ⟨Nat.le_succ _, fun {other} _ => ?_, fun {x} hx => ?_⟩
  · simp only [m.strikes_schedule, Alarm.cancel.injEq, Option.some.injEq, Nat.le_refl]
  · refine (List.mem_append.mp hx).imp_right fun hx => ?_
    have hnew : x = ⟨m.next, m.now + span, .cancel token⟩ := List.mem_singleton.mp hx
    exact hnew ▸ Nat.le_refl m.next

theorem cancel (m : Machine) (token : Token) : Strains T (some token) m (m.cancel token) := by
  refine ⟨Nat.le_of_eq (m.next_cancel token).symm, fun {other} _ => ?_, fun {x} hx => Or.inl ?_⟩
  · simp only [m.strikes_cancel, Option.some.injEq, Nat.le_refl]
  · rwa [timers_cancel] at hx

theorem outside (h : Strains T (some token) m m') (hcovers : T.covers token = false) :
    Strains T none m m' := by
  refine ⟨h.next, fun {other} hother => ?_, h.timer⟩
  refine Nat.le_trans (h.le hother ?_) (Nat.le_add_right _ _)
  rintro ⟨⟩
  exact Bool.false_ne_true (hcovers.symm.trans hother)

/-- A poll strikes no token but that of its deadline or join. -/
theorem poll (m : Machine) (me : TaskId) (wait : Wait) (e : Effect) :
    Strains T e.cancels m (m.poll me wait e).machine := by
  cases e with
  | startDeadline token limit => exact schedule m limit.toNat token
  | join run policy group bs =>
      rcases m.mild_pollJoin me run policy group bs wait with hmild | ⟨-, hsteady⟩
      · exact of_mild hmild
      · exact (cancel m group).trans (of_mild (.of_steady hsteady))
  | _ => exact of_mild (m.mild_poll me wait nofun nofun)

theorem waiting {me : TaskId} {wait : Wait} {e : Effect}
    (h : (m.poll me wait e).turn.answer? = none) : Strains T none m (m.poll me wait e).machine := by
  cases e with
  | startDeadline token limit => cases h
  | join run policy group bs =>
      rcases m.mild_pollJoin me run policy group bs wait with hmild | ⟨hanswered, -⟩
      · exact of_mild hmild
      · rw [show (m.pollJoin me run policy group bs wait).turn.answer? = none from h] at hanswered
        cases hanswered
  | _ => exact of_mild (m.mild_poll me wait nofun nofun)

theorem advanceClock? (h : m.advanceClock? = some m') : Strains T none m m' := by
  refine ⟨Nat.le_of_eq (m.next_advanceClock? h).symm, fun {token} _ => ?_, fun {x} hx => Or.inl ?_⟩
  · rw [strikes_advanceClock? h]
    exact Nat.le_add_right _ _
  · obtain ⟨due, rfl⟩ := m.advanceClock?_eq h
    rw [(rings _ _).2.1] at hx
    exact (List.mem_filter.mp hx).1

end Strains

/-- A timer that only cancels this token is stopped: the token is not struck any more. -/
theorem strikes_stopTimer {d : Nat} (honce : m.strikes token ≤ 1) (hpending : m.isPending d = true)
    (halarm : ∀ x ∈ m.timers, x.number = d → x.alarm = .cancel token) :
    (m.stopTimer d).strikes token = 0 := by
  obtain ⟨x, hx, hnumber⟩ := List.any_eq_true.mp hpending
  have hstopped : 0 < (m.timers.filter fun x => !decide (x.number ≠ d)).countP
      fun x => decide (x.alarm = .cancel token) := by
    refine List.countP_pos_iff.mpr ⟨x, List.mem_filter.mpr ⟨hx, by simpa using hnumber⟩, ?_⟩
    exact decide_eq_true (halarm x hx (of_decide_eq_true hnumber))
  have hsplit := List.countP_eq_countP_filter_add m.timers
    (fun x => decide (x.alarm = .cancel token)) fun x => decide (x.number ≠ d)
  simp only [strikes, stopTimer] at honce ⊢
  omega

end Machine

/-! ## Tokens that are struck once -/

theorem Effect.number_of_grants {m : Machine} {me : TaskId} {wait : Wait} {e : Effect} {a : e.Answer}
    {g : Grant} (ha : (m.poll me wait e).turn.answer? = some a) (hg : e.grants a = some g) :
    g.token.number = m.next ∧ m.next < (m.poll me wait e).machine.next := by
  cases e with
  | childToken token =>
      cases ha
      cases hg
      exact ⟨rfl, Nat.lt_succ_self _⟩
  | openRun flow parent =>
      cases ha
      cases hg
      exact ⟨rfl, Nat.lt_succ_self _⟩
  | _ => cases hg

/-- What is cancelled was granted to the task that does so. -/
theorem held_of_cancels {held : Option Grant} {e : Effect} {token : Token}
    (h : granting.allows held e) (he : e.cancels = some token) :
    ∃ g, held = some g ∧ g.token = token := by
  cases e with
  | startDeadline other limit =>
      cases he
      exact h
  | join run policy group bs =>
      cases he
      exact ⟨_, h, rfl⟩
  | _ => cases he

theorem Effect.grants_of_cancels {e : Effect} {token : Token} (he : e.cancels = some token)
    (a : e.Answer) : e.grants a = none := by
  cases e <;> first | rfl | cases he

/-- The tokens of a scope are struck once at most, and only those that were spent. -/
structure Sole (T : Token) (log : List Occurrence) (m : Machine) : Prop where
  held {t : TaskId} {g : Grant} : held t log = some g →
    g.token.number < m.next ∧ ¬ Spent log g.token
  apart {t u : TaskId} {g g' : Grant} : FlowEngine.held t log = some g →
    FlowEngine.held u log = some g' → g.token = g'.token → t = u
  spent {token : Token} : Spent log token → token.number < m.next
  opened {token : Token} : OpenedWith log token → token.number < m.next ∧ ¬ Joined log token ∧
    ∀ t, FlowEngine.held t log ≠ some (.part token)
  once {token : Token} : T.covers token = true → m.strikes token ≤ 1
  struck {token : Token} : T.covers token = true → 0 < m.strikes token → Spent log token
  deadline {d : Nat} {token : Token} : Deadline log d token →
    d < m.next ∧ ∀ x ∈ m.timers, x.number = d → x.alarm = .cancel token
  stopped {d : Nat} : Stopped log d → d < m.next ∧
    ∀ token, T.covers token = true → Deadline log d token → m.strikes token = 0

namespace Sole

variable {T token : Token} {log more : List Occurrence} {m m' : Machine} {t : TaskId}

theorem unstruck (h : Sole T log m) (hcovers : T.covers token = true) (hspent : ¬ Spent log token) :
    m.strikes token = 0 :=
  Nat.eq_zero_of_not_pos fun hpos => hspent (h.struck hcovers hpos)

theorem quiet (h : Sole T log m) (hm : Machine.Strains T none m m')
    (hquiet : ∀ t e a m₁ m₂, .poll ⟨t, e, some a, m₁, m₂⟩ ∉ more) : Sole T (log ++ more) m' := by
  have answered {e : Effect} {a : e.Answer} (ha : Answered (log ++ more) e a) : Answered log e a := by
    refine ha.of_append.resolve_right ?_
    rintro ⟨t, m₁, m₂, hm⟩
    exact hquiet t e a m₁ m₂ hm
  have deadline {d : Nat} {token : Token} (hd : Deadline (log ++ more) d token) :
      Deadline log d token := by
    obtain ⟨limit, hd⟩ := hd
    exact ⟨limit, answered hd⟩
  have joined {token : Token} (hj : Joined (log ++ more) token) : Joined log token := by
    obtain ⟨run, policy, bs, joined, hj⟩ := hj
    exact ⟨run, policy, bs, joined, answered hj⟩
  have spent {token : Token} (hs : Spent (log ++ more) token) : Spent log token :=
    hs.imp (fun hd => hd.imp fun _ => deadline) joined
  refine ⟨fun {t g} hg => ?_, fun {t u g g'} hg hg' => ?_, fun {token} hs => ?_, fun {token} ho => ?_,
    fun {token} hc => ?_, fun {token} hc hpos => ?_, fun {d token} hd => ?_, fun {d} hd => ?_⟩
  · rw [held_quiet hquiet] at hg
    exact ⟨Nat.lt_of_lt_of_le (h.held hg).1 hm.next, fun hs => (h.held hg).2 (spent hs)⟩
  · rw [held_quiet hquiet] at hg hg'
    exact h.apart hg hg'
  · exact Nat.lt_of_lt_of_le (h.spent (spent hs)) hm.next
  · obtain ⟨flow, parent, number, ho⟩ := ho
    obtain ⟨hlt, hjoined, hheld⟩ := h.opened ⟨flow, parent, number, answered ho⟩
    refine ⟨Nat.lt_of_lt_of_le hlt hm.next, fun hj => hjoined (joined hj), fun t => ?_⟩
    rw [held_quiet hquiet]
    exact hheld t
  · exact Nat.le_trans (hm.le hc nofun) (h.once hc)
  · exact (h.struck hc (Nat.lt_of_lt_of_le hpos (hm.le hc nofun))).append more
  · obtain ⟨hlt, halarm⟩ := h.deadline (deadline hd)
    refine ⟨Nat.lt_of_lt_of_le hlt hm.next, fun x hx hn => ?_⟩
    exact halarm x ((hm.timer hx).resolve_right fun hnew => by omega) hn
  · obtain ⟨hlt, hzero⟩ := h.stopped (answered hd)
    refine ⟨Nat.lt_of_lt_of_le hlt hm.next, fun token hc hdeadline => ?_⟩
    exact Nat.eq_zero_of_le_zero (hzero token hc (deadline hdeadline) ▸ hm.le hc nofun)

section Answers

variable {wait : Wait} {e : Effect} {a : e.Answer} {m₁ m₂ : Machine} {d : Nat}

/-- What is cancelled now was granted to the task that does so, and was not spent before. -/
theorem fresh_of_cancels (h : Sole T log m) (hallows : granting.allows (FlowEngine.held t log) e)
    (he : e.cancels = some token) : token.number < m.next ∧ ¬ Spent log token := by
  obtain ⟨g, hg, rfl⟩ := held_of_cancels hallows he
  exact h.held hg

theorem held_of_answer (h : Sole T log m) (hallows : granting.allows (FlowEngine.held t log) e)
    (ha : (m.poll t wait e).turn.answer? = some a) {u : TaskId} {g : Grant}
    (hg : FlowEngine.held u (log ++ [.poll ⟨t, e, some a, m₁, m₂⟩]) = some g) :
    g.token.number < (m.poll t wait e).machine.next ∧
      ¬ Spent (log ++ [.poll ⟨t, e, some a, m₁, m₂⟩]) g.token := by
  have hm := Machine.Strains.poll (T := T) m t wait e
  rw [held_last] at hg
  split at hg
  · obtain ⟨hnumber, hlt⟩ := Effect.number_of_grants ha hg
    refine ⟨hnumber ▸ hlt, fun hs => ?_⟩
    rcases hs.of_last with hold | he
    · exact Nat.lt_irrefl _ (hnumber ▸ h.spent hold)
    · cases (Effect.grants_of_cancels he a).symm.trans hg
  · rename_i hne
    refine ⟨Nat.lt_of_lt_of_le (h.held hg).1 hm.next, fun hs => ?_⟩
    rcases hs.of_last with hold | he
    · exact (h.held hg).2 hold
    · obtain ⟨g', hg', hsame⟩ := held_of_cancels hallows he
      exact hne (h.apart hg' hg hsame)

theorem apart_of_answer (h : Sole T log m) (ha : (m.poll t wait e).turn.answer? = some a)
    {u v : TaskId} {g g' : Grant}
    (hg : FlowEngine.held u (log ++ [.poll ⟨t, e, some a, m₁, m₂⟩]) = some g)
    (hg' : FlowEngine.held v (log ++ [.poll ⟨t, e, some a, m₁, m₂⟩]) = some g')
    (hsame : g.token = g'.token) : u = v := by
  rw [held_last] at hg hg'
  split at hg <;> split at hg'
  · rename_i hu hv
    exact hu.symm.trans hv
  · have hnumber := (Effect.number_of_grants ha hg).1
    exact absurd (h.held hg').1 (by rw [← hsame]; omega)
  · have hnumber := (Effect.number_of_grants ha hg').1
    exact absurd (h.held hg).1 (by rw [hsame]; omega)
  · exact h.apart hg hg' hsame

/-- The token of a run is not that of a join, and nobody may join with it. -/
theorem opened_of_answer (h : Sole T log m) (hallows : granting.allows (FlowEngine.held t log) e)
    (ha : (m.poll t wait e).turn.answer? = some a)
    (ho : OpenedWith (log ++ [.poll ⟨t, e, some a, m₁, m₂⟩]) token) :
    token.number < (m.poll t wait e).machine.next ∧
      ¬ Joined (log ++ [.poll ⟨t, e, some a, m₁, m₂⟩]) token ∧
      ∀ u, FlowEngine.held u (log ++ [.poll ⟨t, e, some a, m₁, m₂⟩]) ≠ some (.part token) := by
  have hm := Machine.Strains.poll (T := T) m t wait e
  have held_eq (u : TaskId) : FlowEngine.held u (log ++ [.poll ⟨t, e, some a, m₁, m₂⟩]) =
      if t = u then e.grants a else FlowEngine.held u log := held_last
  obtain ⟨flow, parent, number, ho⟩ := ho
  rcases ho.of_last with hold | hlast
  · obtain ⟨hlt, hjoined, hheld⟩ := h.opened ⟨flow, parent, number, hold⟩
    refine ⟨Nat.lt_of_lt_of_le hlt hm.next, fun hj => ?_, fun u hu => ?_⟩
    · obtain ⟨run, policy, bs, joined, hj⟩ := hj
      rcases hj.of_last with hbefore | hlast
      · exact hjoined ⟨run, policy, bs, joined, hbefore⟩
      · cases hlast
        exact hheld t hallows
    · rw [held_eq] at hu
      split at hu
      · have hnumber : token.number = m.next := (Effect.number_of_grants ha hu).1
        omega
      · exact hheld u hu
  · cases hlast
    obtain ⟨hnumber, hlt⟩ := Effect.number_of_grants ha rfl
    replace hnumber : token.number = m.next := hnumber
    refine ⟨hnumber ▸ hlt, fun hj => ?_, fun u hu => ?_⟩
    · obtain ⟨run, policy, bs, joined, hj⟩ := hj
      have hbefore := h.spent (Or.inr ⟨run, policy, bs, joined, hj.of_last.resolve_right nofun⟩)
      omega
    · rw [held_eq] at hu
      split at hu
      · cases hu
      · have hbefore : token.number < m.next := (h.held hu).1
        omega

theorem deadline_of_answer (h : Sole T log m) (hnumbered : ∀ x ∈ m.timers, x.number < m.next)
    (ha : (m.poll t wait e).turn.answer? = some a)
    (hd : Deadline (log ++ [.poll ⟨t, e, some a, m₁, m₂⟩]) d token) :
    d < (m.poll t wait e).machine.next ∧
      ∀ x ∈ (m.poll t wait e).machine.timers, x.number = d → x.alarm = .cancel token := by
  have hm := Machine.Strains.poll (T := T) m t wait e
  obtain ⟨limit, hd⟩ := hd
  rcases hd.of_last with hold | hlast
  · obtain ⟨hlt, halarm⟩ := h.deadline ⟨limit, hold⟩
    refine ⟨Nat.lt_of_lt_of_le hlt hm.next, fun x hx hn => ?_⟩
    exact halarm x ((hm.timer hx).resolve_right fun hnew => by omega) hn
  · cases hlast
    cases ha
    refine ⟨Nat.lt_succ_self _, fun x hx hn => ?_⟩
    rcases List.mem_append.mp hx with hold | hnew
    · exact absurd hn (Nat.ne_of_lt (hnumbered x hold))
    · rw [List.mem_singleton.mp hnew]

theorem stopped_of_answer (h : Sole T log m) (hnumbered : ∀ x ∈ m.timers, x.number < m.next)
    (hallows : granting.allows (FlowEngine.held t log) e)
    (ha : (m.poll t wait e).turn.answer? = some a)
    (hd : Stopped (log ++ [.poll ⟨t, e, some a, m₁, m₂⟩]) d) :
    d < (m.poll t wait e).machine.next ∧ ∀ token, T.covers token = true →
      Deadline (log ++ [.poll ⟨t, e, some a, m₁, m₂⟩]) d token →
        (m.poll t wait e).machine.strikes token = 0 := by
  have hm := Machine.Strains.poll (T := T) m t wait e
  rcases hd.of_last with hold | hlast
  · obtain ⟨hlt, hzero⟩ := h.stopped hold
    refine ⟨Nat.lt_of_lt_of_le hlt hm.next, fun token hc hdeadline => ?_⟩
    obtain ⟨limit, hdeadline⟩ := hdeadline
    rcases hdeadline.of_last with hbefore | hlast
    · have hspent : Spent log token := Or.inl ⟨d, limit, hbefore⟩
      have hle := hm.le hc fun he => (h.fresh_of_cancels hallows he).2 hspent
      exact Nat.eq_zero_of_le_zero (hzero token hc ⟨limit, hbefore⟩ ▸ hle)
    · cases hlast
      cases ha
      exact absurd hlt (Nat.lt_irrefl _)
  · cases hlast
    have hanswer : (!m.isPending d) = false := Option.some.inj ha
    have hpending : m.isPending d = true := by simpa using hanswer
    obtain ⟨x, hx, hn⟩ := List.any_eq_true.mp hpending
    have hlt : d < m.next := of_decide_eq_true hn ▸ hnumbered x hx
    refine ⟨Nat.lt_of_lt_of_le hlt hm.next, fun token hc hdeadline => ?_⟩
    obtain ⟨limit, hdeadline⟩ := hdeadline
    obtain ⟨-, halarm⟩ := h.deadline ⟨limit, hdeadline.of_last.resolve_right nofun⟩
    exact Machine.strikes_stopTimer (h.once hc) hpending halarm

theorem answer (h : Sole T log m) (hnumbered : ∀ x ∈ m.timers, x.number < m.next)
    (hallows : granting.allows (FlowEngine.held t log) e)
    (ha : (m.poll t wait e).turn.answer? = some a) :
    Sole T (log ++ [.poll ⟨t, e, some a, m₁, m₂⟩]) (m.poll t wait e).machine where
  held := h.held_of_answer hallows ha
  apart := h.apart_of_answer ha
  spent hs := by
    refine Nat.lt_of_lt_of_le ?_ (Machine.Strains.poll (T := T) m t wait e).next
    exact hs.of_last.elim h.spent fun he => (h.fresh_of_cancels hallows he).1
  opened := h.opened_of_answer hallows ha
  once {token} hc := by
    have hstrikes := (Machine.Strains.poll m t wait e).strikes hc
    split at hstrikes
    · rename_i he
      rw [h.unstruck hc (h.fresh_of_cancels hallows he).2] at hstrikes
      exact hstrikes
    · exact Nat.le_trans hstrikes (h.once hc)
  struck {token} hc hpos := by
    by_cases he : e.cancels = some token
    · exact .last he log t m₁ m₂
    · have hle := (Machine.Strains.poll m t wait e).le hc he
      exact (h.struck hc (Nat.lt_of_lt_of_le hpos hle)).append _
  deadline := h.deadline_of_answer hnumbered ha
  stopped := h.stopped_of_answer hnumbered hallows ha

end Answers

theorem pass (h : Sole T log m) (hm : Machine.Strains T none m m') : Sole T log m' := by
  rw [← List.append_nil log]
  exact h.quiet hm fun _ _ _ _ _ => List.not_mem_nil

end Sole

/-! ## Owners that spare a scope -/

variable {config : Config} {T token : Token} {log more l k : List Occurrence}
  {s s' u : System RunResult} {t : TaskId} {d : Nat}

namespace System

def Cancels (s : System RunResult) (token : Token) (s' : System RunResult) : Prop :=
  s'.machine = s.machine.cancel token ∨
    ∃ span, s'.machine = (s.machine.schedule span (.cancel token)).2

/-- A step of a system, or what its owner does without cancelling anything in a scope. -/
inductive Spared (config : Config) (T : Token) (s : System RunResult) :
    List Occurrence → System RunResult → Prop where
  | step {s' : System RunResult} (h : s.step? = some s') : Spared config T s s.occurrences s'
  | act {log : List Occurrence} {s' : System RunResult} (move : s.Moves config log s')
      (outside : ∀ token, s.Cancels token s' → T.covers token = false) : Spared config T s log s'

/-- The part of a session between two systems in which the owner cancels nothing in a scope. -/
inductive Spares (config : Config) (T : Token) (s : System RunResult) :
    List Occurrence → System RunResult → Prop where
  | refl : Spares config T s [] s
  | move {log more : List Occurrence} {t u : System RunResult} (before : Spares config T s log t)
      (spared : t.Spared config T more u) : Spares config T s (log ++ more) u

theorem Spared.moves (h : s.Spared config T log s') : s.Moves config log s' := by
  cases h with
  | step h => exact .step h
  | act move outside => exact move

theorem Spares.reaches (h : s.Spares config T log s') : s.Reaches config log s' := by
  induction h with
  | refl => exact .refl
  | move before spared ih => exact ih.move spared.moves

theorem Spares.moment {x : Occurrence} (h : s.Spares config T (l ++ x :: k) s') :
    ∃ u v, s.Spares config T l u ∧ u.Spared config T [x] v ∧ v.Spares config T k s' := by
  generalize hlog : l ++ x :: k = log at h
  induction h generalizing k with
  | refl => exact absurd hlog (by simp)
  | @move before more v w hbefore spared ih =>
      rcases spared.moves.short with rfl | ⟨y, rfl⟩
      · obtain ⟨u, u', hu, hmove, hk⟩ := ih (hlog.trans (List.append_nil _))
        rw [← List.append_nil k]
        exact ⟨u, u', hu, hmove, hk.move spared⟩
      · rcases List.eq_nil_or_concat k with rfl | ⟨k', z, rfl⟩
        · obtain ⟨rfl, hx⟩ := List.append_inj' hlog rfl
          cases hx
          exact ⟨v, w, hbefore, spared, .refl⟩
        · rw [List.concat_eq_append, ← List.cons_append, ← List.append_assoc] at hlog
          obtain ⟨hk, hx⟩ := List.append_inj' hlog rfl
          cases hx
          obtain ⟨u, u', hu, hmove, hk⟩ := ih hk
          rw [List.concat_eq_append]
          exact ⟨u, u', hu, hmove, hk.move spared⟩

theorem Spares.trans (h : s.Spares config T l u) (h' : u.Spares config T k s') :
    s.Spares config T (l ++ k) s' := by
  induction h' with
  | refl => rwa [List.append_nil]
  | move before spared ih =>
      rw [← List.append_assoc]
      exact ih.move spared

theorem Spared.strains (h : s.Spared config T more s') (quiet : ∀ x, .poll x ∉ more) :
    Machine.Strains T none s.machine s'.machine := by
  have counted {m : Machine} (hm : m.shared = { s.machine with next := s.machine.next + 1 }.shared) :
      Machine.Strains T none s.machine m := by
    refine Machine.Strains.trans ?_ (.of_shared hm)
    exact ⟨Nat.le_succ _, fun _ => Nat.le_add_right _ _, Or.inl⟩
  cases h with
  | step h =>
      rcases passes_of_step h quiet with hsame | hcounted | ⟨hclock, -⟩
      · exact .of_shared hsame
      · exact counted hcounted
      · exact .advanceClock? hclock
  | act move outside =>
      have hpasses := move.passes_machine quiet
      generalize hmachine : s'.machine = m at hpasses
      cases hpasses with
      | same shared => exact .of_shared shared
      | counted shared => exact counted shared
      | clock hclock => exact .advanceClock? hclock
      | cancelled token => exact (Machine.Strains.cancel _ _).outside (outside token (Or.inl hmachine))
      | scheduled span token =>
          exact (Machine.Strains.schedule _ _ _).outside (outside token (Or.inr ⟨span, hmachine⟩))

end System

theorem Sole.move (h : Sole T log s.machine) (hsession : Session config log s)
    (spared : s.Spared config T more s') : Sole T (log ++ more) s'.machine := by
  rcases spared.moves.polled_or_unpolled with ⟨t, e, next, w, polls, rfl⟩ | unpolled
  · cases ha : (s.machine.poll t w e).turn.answer? with
    | none =>
        refine (h.quiet (.waiting ha) fun u e' a m m' hm => ?_).pass (.of_shared polls.shared)
        cases List.mem_singleton.mp hm
    | some a =>
        have hnumbered : ∀ x ∈ s.machine.timers, x.number < s.machine.next :=
          fun x hx => hsession.times.numbered hx
        exact (h.answer hnumbered (hsession.allows polls.active) ha).pass (.of_shared polls.shared)
  · exact h.quiet (spared.strains unpolled.quiet) fun t e a m m' => unpolled.quiet _

namespace Session

/-- The systems of a session in which the owner cancels nothing in a scope. -/
def Spares (config : Config) (T : Token) (log : List Occurrence) (s : System RunResult) : Prop :=
  ∃ s₀, System.Initial config s₀ ∧ s₀.Spares config T log s

namespace Spares

theorem session (h : Session.Spares config T log s) : Session config log s := by
  obtain ⟨s₀, hs₀, hspares⟩ := h
  exact ⟨s₀, hs₀, hspares.reaches⟩

theorem along (h : Session.Spares config T log s) (hs : s.Spares config T more s') :
    Session.Spares config T (log ++ more) s' := by
  obtain ⟨s₀, hs₀, hspares⟩ := h
  exact ⟨s₀, hs₀, hspares.trans hs⟩

theorem sole (h : Session.Spares config T log s) : Sole T log s.machine := by
  obtain ⟨s₀, hs₀, hspares⟩ := h
  induction hspares with
  | refl =>
      obtain ⟨world, numbered⟩ := hs₀
      have hnever {e : Effect} {a : e.Answer} : ¬ Answered [] e a := by
        rintro ⟨t, m, m', hm⟩
        cases hm
      have hnone {token : Token} : (Machine.new config world).strikes token = 0 := rfl
      refine ⟨nofun, nofun, ?_, ?_, fun _ => by rw [hnone]; exact Nat.zero_le 1, fun _ hpos => ?_, ?_, ?_⟩
      · rintro token (⟨d, limit, h⟩ | ⟨run, policy, bs, joined, h⟩)
        · exact absurd h hnever
        · exact absurd h hnever
      · rintro token ⟨flow, parent, number, h⟩
        exact absurd h hnever
      · rw [hnone] at hpos
        cases hpos
      · rintro d token ⟨limit, h⟩
        exact absurd h hnever
      · exact fun h => absurd h hnever
  | move before spared ih => exact ih.move (Session.Spares.session ⟨s₀, hs₀, before⟩) spared

/-- The token of a join was not cancelled before the join is answered. -/
theorem not_cancelled_of_join (h : Session.Spares config T log s) {run : Nat} {policy : JoinPolicy}
    {group : Token} {bs : List Branch}
    {next : Except Failure (List BranchOutcome) → Program t.Result} {w : Wait}
    (ht : s.task? t = some (.active (.perform (.join run policy group bs) next) w))
    (hcovers : T.covers group = true) : group ∉ s.machine.cancelled := by
  have hheld : held t log = some (.part group) := h.session.allows ht
  exact Machine.mem_of_strikes (h.sole.unstruck hcovers (h.sole.held hheld).2)

/-- The token of a deadline that was stopped before it passed is not cancelled, neither then nor
later. -/
theorem not_cancelled_of_stopped (h : Session.Spares config T log s) (hd : Deadline log d token)
    (hcovers : T.covers token = true) (hstopped : Stopped log d) : token ∉ s.machine.cancelled :=
  Machine.mem_of_strikes ((h.sole.stopped hstopped).2 token hcovers hd)

/-- A run is not cancelled itself unless its deadline passes. -/
theorem not_cancelled_of_deadlines (h : Session.Spares config T log s) (hopens : OpenedWith log token)
    (hcovers : T.covers token = true) (hdeadlines : ∀ d, Deadline log d token →
      s.machine.isPending d = true ∨ Stopped log d) : token ∉ s.machine.cancelled := by
  by_cases hspent : Spent log token
  · obtain ⟨d, hd⟩ := hspent.resolve_right (h.sole.opened hopens).2.1
    rcases hdeadlines d hd with hpending | hstopped
    · obtain ⟨x, hx, hnumber⟩ := List.any_eq_true.mp hpending
      have halarm := (h.sole.deadline hd).2 x hx (of_decide_eq_true hnumber)
      exact Machine.not_mem_of_pending (h.sole.once hcovers) hx halarm
    · exact h.not_cancelled_of_stopped hd hcovers hstopped
  · exact Machine.mem_of_strikes (h.sole.unstruck hcovers hspent)

end Spares
end Session
end FlowEngine
