import FlowEngine.Proofs.Program.History
import FlowEngine.Proofs.Session.Log
import Mathlib.Logic.Function.Basic

/-!
# Sessions under a protocol

Every task of a session is at a place of a protocol, and what the machine does
moves the places along. A discipline says where tasks begin and end; it is sound
for an invariant of outlines and places when every single move keeps the invariant.
Then the invariant holds along sessions, and the deeds of a task lead from each of
its places to the next.
-/
namespace FlowEngine

def Led {σ : Type} (P : Protocol σ) (t : TaskId) (u : σ) (log : List Occurrence) (v : σ) : Prop :=
  ∃ x, P.Path u (deedsOf t log) x ∧ (¬ Restarted t log → v = x)

theorem Led.still {σ : Type} {P : Protocol σ} {t : TaskId} {u : σ} {log : List Occurrence}
    (h : deedsOf t log = []) : Led P t u log u :=
  ⟨u, h ▸ .start u, fun _ => rfl⟩

theorem Led.deed {σ : Type} {P : Protocol σ} {t : TaskId} {u v : σ} {e : Effect} {a : e.Answer}
    {before after : Machine} (h : P.moves u e a v) :
    Led P t u [.poll ⟨t, e, some a, before, after⟩] v := by
  refine ⟨v, ?_, fun _ => rfl⟩
  simp only [deedsOf, if_true]
  exact .deed h (.start v)

theorem Led.append {σ : Type} {P : Protocol σ} {t : TaskId} {u v x : σ} {l k : List Occurrence}
    (h₁ : Led P t u l v) (h₂ : Led P t v k x) : Led P t u (l ++ k) x := by
  obtain ⟨v', hpath, hv⟩ := h₁
  by_cases hr : Restarted t l
  · refine ⟨v', ?_, fun hn => absurd (restarted_append.mpr (Or.inl hr)) hn⟩
    rwa [deedsOf_append_of_restarted hr]
  · obtain ⟨x', hpath', hx⟩ := h₂
    refine ⟨x', ?_, fun hn => hx fun hk => hn (restarted_append.mpr (Or.inr hk))⟩
    rw [deedsOf_append hr]
    rw [hv hr] at hpath'
    exact hpath.append hpath'

/-! ## Disciplines -/

variable {σ : Type}

structure Discipline (σ : Type) where
  protocol : Protocol σ
  root : σ
  born : Branch → σ
  final : σ → Prop

namespace Discipline

def Obeys (D : Discipline σ) {α : Type} (p : Program α) (u : σ) : Prop :=
  p.Obeys D.protocol (fun u _ => D.final u) u

end Discipline

namespace Outline

structure Moved (D : Discipline σ) (o : Outline) (log : List Occurrence) (o' : Outline)
    (place place' : TaskId → σ) : Prop where
  led {t : TaskId} : (o.task? t).isSome → Led D.protocol t (place t) log (place' t)
  entered {t : TaskId} : o.task? t = none → (o'.task? t).isSome →
    (∀ n, t ≠ .branch n) ∧ place' t = D.root ∨ ∃ b, place' t = D.born b
  restarted {t : TaskId} : Restarted t log → place' t = D.root

structure Obedient (D : Discipline σ) (o : Outline) (place : TaskId → σ) : Prop where
  active {t : TaskId} {p : Program t.Result} {w : Wait} :
    o.task? t = some (.active p w) → D.Obeys p (place t)
  ended {t : TaskId} {a : t.Result} {order : Nat} :
    o.task? t = some (.ended a order) → D.final (place t)

def heirs (o : Outline) (D : Discipline σ) (place : TaskId → σ) (e : Effect) (w : Wait)
    (t : TaskId) : σ :=
  match e, w, t with
  | .join _ _ _ _, .branches _, t => place t
  | .join _ _ _ bs, _, .branch number =>
    if number < o.branches.length then place (.branch number)
    else (bs[number - o.branches.length]?).elim (place (.branch number)) D.born
  | _, _, t => place t

end Outline

namespace Discipline

structure Sound (D : Discipline σ) (config : Config)
    (Holds : Outline → (TaskId → σ) → Prop) : Prop where
  root : D.final D.root
  main {p : Program RunResult} : System.Errand config p → D.Obeys p D.root
  submission (flow : Flow) (inputs : List (String × Json)) (token : Token) :
    D.Obeys (Execution.submitted config flow inputs token) D.root
  branch {u : σ} {run : Nat} {policy : JoinPolicy} {group : Token} {bs : List Branch} {b : Branch} :
    D.protocol.allows u (.join run policy group bs) → b ∈ bs → D.Obeys b.program (D.born b)
  pick {o : Outline} {place : TaskId → σ} (t : TaskId) : Holds o place → o.running = none →
    Holds { o with running := some t } place
  cancel {o : Outline} {place : TaskId → σ} (tokens : List Token) : Holds o place →
    o.running = none → Holds { o with cancelled := tokens ++ o.cancelled } place
  stop {o : Outline} {place : TaskId → σ} {t : TaskId} : Holds o place → o.running = some t →
    (∀ p w, o.task? t ≠ some (.active p w)) → Holds { o with running := none } place
  finish {o : Outline} {place : TaskId → σ} {t : TaskId} {a : t.Result} {w : Wait} (order : Nat) :
    Holds o place → o.running = some t → o.task? t = some (.active (.pure a) w) →
    D.final (place t) → Holds { o.setTask t (.ended a order) with running := none } place
  answer {o o₁ : Outline} {place : TaskId → σ} {t : TaskId} {e : Effect}
    {next : e.Answer → Program t.Result} {w : Wait} {a : e.Answer} : Holds o place →
    o.running = some t → o.task? t = some (.active (.perform e next) w) →
    D.protocol.allows (place t) e → o.Polls w o₁ e (.answered a) →
    ∃ u, D.protocol.moves (place t) e a u ∧
      Holds (o₁.setTask t (.active (next a) .fresh)) (Function.update place t u)
  wait {o o₁ : Outline} {place : TaskId → σ} {t : TaskId} {e : Effect}
    {next : e.Answer → Program t.Result} {w w' : Wait} : Holds o place →
    o.running = some t → o.task? t = some (.active (.perform e next) w) →
    D.protocol.allows (place t) e → o.Polls w o₁ e (.waiting w') →
    Holds { o₁.setTask t (.active (.perform e next) w') with running := none }
      (o.heirs D place e w)
  submit {o : Outline} {place : TaskId → σ} (p : Program RunResult) : Holds o place →
    o.running = none → Holds { o with submissions := o.submissions ++ [.active p .fresh] }
      (Function.update place (.submission o.submissions.length) D.root)
  errand {o : Outline} {place : TaskId → σ} (p : Program RunResult) : Holds o place →
    o.running = none → (∃ result order, o.main = .ended result order) →
    Holds { o with main := .active p .fresh } (Function.update place .main D.root)

variable {D : Discipline σ} {config : Config} {Holds : Outline → (TaskId → σ) → Prop}
  {o o₁ o' : Outline} {place : TaskId → σ}

theorem heirs_spawn {w : Wait} (hw : ∀ tasks, w ≠ .branches tasks) (run : Nat)
    (policy : JoinPolicy) (group : Token) (bs : List Branch) (number : Nat) :
    o.heirs D place (.join run policy group bs) w (.branch number) =
      if number < o.branches.length then place (.branch number)
      else (bs[number - o.branches.length]?).elim (place (.branch number)) D.born := by
  cases w with
  | branches tasks => exact absurd rfl (hw tasks)
  | _ => rfl

theorem heirs_root {e : Effect} {w : Wait} {t : TaskId} (ht : ∀ n, t ≠ .branch n) :
    o.heirs D place e w t = place t := by
  cases t with
  | branch n => exact absurd rfl (ht n)
  | _ =>
      cases e with
      | join run policy group bs => cases w <;> rfl
      | _ => rfl

theorem heirs_of_some {e : Effect} {w : Wait} {t : TaskId} {state : TaskState t.Result}
    (h : o.task? t = some state) : o.heirs D place e w t = place t := by
  cases t with
  | branch number =>
      have hlt : number < o.branches.length := (List.getElem?_eq_some_iff.mp h).1
      cases e with
      | join run policy group bs => cases w <;> simp [Outline.heirs, hlt]
      | _ => rfl
  | _ => exact heirs_root (by simp)

/-- Nobody gets a place anew, unless a join starts branches. -/
theorem heirs_same_or_starts (o : Outline) (e : Effect) (w : Wait) :
    (∀ {σ : Type} (D : Discipline σ) (place : TaskId → σ), o.heirs D place e w = place) ∨
      (∃ run policy group bs, e = .join run policy group bs) ∧ ∀ tasks, w ≠ .branches tasks := by
  cases e with
  | join run policy group bs =>
      cases w with
      | branches tasks => exact Or.inl fun D place => rfl
      | _ => exact Or.inr ⟨⟨_, _, _, _, rfl⟩, by simp⟩
  | _ => exact Or.inl fun D place => rfl

theorem heirs_cases (e : Effect) (w : Wait) (t : TaskId) :
    o.heirs D place e w t = place t ∨ ∃ b, o.heirs D place e w t = D.born b := by
  rcases heirs_same_or_starts o e w with hsame | ⟨⟨run, policy, group, bs, rfl⟩, hw⟩
  · exact Or.inl (congrFun (hsame D place) t)
  · cases t with
    | branch number =>
        rw [heirs_spawn hw]
        split
        · exact Or.inl rfl
        · cases bs[number - o.branches.length]? with
          | none => exact Or.inl rfl
          | some b => exact Or.inr ⟨b, rfl⟩
    | _ => exact Or.inl (heirs_root (by simp))

end Discipline

namespace Outline.Polls

variable {D : Discipline σ} {o o₁ : Outline} {place : TaskId → σ} {e : Effect} {w : Wait}
  {turn : Turn e.Answer}

variable (D place) in
/-- After a poll a task is what it was, or it is a new branch at the place where it begins. -/
theorem old_or_born (polls : o.Polls w o₁ e turn) {t : TaskId} {state : TaskState t.Result}
    (ht : o₁.task? t = some state) : o.task? t = some state ∨
      ∃ run policy group bs b number, e = .join run policy group bs ∧ b ∈ bs ∧
        t = .branch number ∧ o.heirs D place e w t = D.born b ∧
        HEq state (TaskState.active b.program .fresh) := by
  obtain ⟨hm, -, hs, hb | ⟨run, policy, group, bs, rfl, hw, rfl⟩⟩ := polls.tasks
  · rw [Outline.task?_of_branches hm hb hs] at ht
    exact Or.inl ht
  · rcases Outline.task?_of_spawn ht with hold | ⟨i, b, hb, rfl, hstate⟩
    · exact Or.inl hold
    · refine Or.inr ⟨run, policy, group, bs, b, _, rfl, List.mem_of_getElem? hb, rfl, ?_, hstate⟩
      rw [Discipline.heirs_spawn hw, if_neg (by omega), Nat.add_sub_cancel_left, hb]
      rfl

end Outline.Polls

namespace Outline.Obedient

variable {D : Discipline σ} {o o' : Outline} {place : TaskId → σ}

theorem of_tasks (h : o.Obedient D place) (ht : ∀ t, o'.task? t = o.task? t) :
    o'.Obedient D place :=
  ⟨fun {t} => ht t ▸ h.active, fun {t} => ht t ▸ h.ended⟩

theorem setTask_active (h : o.Obedient D place) {t : TaskId} {p : Program t.Result} {w : Wait}
    {u : σ} (hp : D.Obeys p u) :
    (o.setTask t (.active p w)).Obedient D (Function.update place t u) := by
  constructor
  · intro v q w' hv
    by_cases hvt : v = t
    · subst hvt
      cases o.eq_of_task?_setTask _ hv
      rwa [Function.update_self]
    · rw [Function.update_of_ne hvt]
      exact h.active (by rwa [o.task?_setTask_of_ne _ hvt] at hv)
  · intro v a order hv
    by_cases hvt : v = t
    · subst hvt
      cases o.eq_of_task?_setTask _ hv
    · rw [Function.update_of_ne hvt]
      exact h.ended (by rwa [o.task?_setTask_of_ne _ hvt] at hv)

theorem setTask_ended (h : o.Obedient D place) {t : TaskId} {a : t.Result} {order : Nat}
    (hf : D.final (place t)) : (o.setTask t (.ended a order)).Obedient D place := by
  constructor
  · intro v q w' hv
    by_cases hvt : v = t
    · subst hvt
      cases o.eq_of_task?_setTask _ hv
    · exact h.active (by rwa [o.task?_setTask_of_ne _ hvt] at hv)
  · intro v b k hv
    by_cases hvt : v = t
    · subst hvt
      exact hf
    · exact h.ended (by rwa [o.task?_setTask_of_ne _ hvt] at hv)

theorem submit (h : o.Obedient D place) {p : Program RunResult} (hp : D.Obeys p D.root) :
    ({ o with submissions := o.submissions ++ [.active p .fresh] } : Outline).Obedient D
      (Function.update place (.submission o.submissions.length) D.root) := by
  constructor
  · intro t q w ht
    rcases task?_submit ht with ⟨hne, ho⟩ | ⟨rfl, hstate⟩
    · rw [Function.update_of_ne hne]
      exact h.active ho
    · cases hstate
      rw [Function.update_self]
      exact hp
  · intro t a order ht
    rcases task?_submit ht with ⟨hne, ho⟩ | ⟨rfl, hstate⟩
    · rw [Function.update_of_ne hne]
      exact h.ended ho
    · cases hstate

end Outline.Obedient

namespace Outline.Moved

variable {D : Discipline σ} {config : Config} {o o' : Outline} {place place' : TaskId → σ}
  {log : List Occurrence} {t : TaskId}

theorem moves {e : Effect} {a : e.Answer} {before after : Machine}
    (moved : o.Moved D [.poll ⟨t, e, some a, before, after⟩] o' place place')
    (ht : (o.task? t).isSome) : D.protocol.moves (place t) e a (place' t) := by
  obtain ⟨x, hpath, hx⟩ := moved.led ht
  simp only [deedsOf, if_true] at hpath
  obtain ⟨y, hmove, hpath⟩ := Protocol.Path.cons_iff.mp hpath
  rw [Protocol.Path.nil_iff] at hpath
  rw [hx fun hr => absurd hr.2 (by simp), hpath]
  exact hmove

theorem stays {u : TaskId} {e : Effect} {a : e.Answer} {before after : Machine}
    (moved : o.Moved D [.poll ⟨t, e, some a, before, after⟩] o' place place')
    (hu : (o.task? u).isSome) (hut : u ≠ t) : place' u = place u := by
  obtain ⟨x, hpath, hx⟩ := moved.led hu
  simp only [deedsOf, if_neg (Ne.symm hut), Protocol.Path.nil_iff] at hpath
  exact (hx fun hr => absurd hr.2 (by simp)).trans hpath

/-- A task stays at its place in a move, or it performs an effect. -/
theorem stays_or_moves (moved : o.Moved D log o' place place') (adv : o.Advances config log o')
    {p : Program t.Result} {w : Wait} (ht : o.task? t = some (.active p w)) :
    place' t = place t ∨ ∃ e a before after, log = [.poll ⟨t, e, some a, before, after⟩] ∧
      D.protocol.moves (place t) e a (place' t) := by
  have hsome : (o.task? t).isSome := Option.isSome_of_eq_some ht
  have still (hd : deedsOf t log = []) : place' t = place t := by
    obtain ⟨x, hpath, hx⟩ := moved.led hsome
    rw [hd, Protocol.Path.nil_iff] at hpath
    exact (hx (adv.not_restarted ht)).trans hpath
  cases adv with
  | @answer u e next w a before after running active start polls =>
      by_cases hu : t = u
      · subst hu
        exact Or.inr ⟨e, a, before, after, rfl, moved.moves hsome⟩
      · exact Or.inl (moved.stays hsome hu)
  | errand idle ended errand =>
      cases t with
      | main =>
          obtain ⟨result, order, hmain⟩ := ended
          rw [Outline.task?, hmain] at ht
          cases ht
      | _ => exact Or.inl (still (by simp [deedsOf]))
  | _ => exact Or.inl (still rfl)

/-- A task that has ended stays where it is, unless it is started again. -/
theorem of_ended (moved : o.Moved D log o' place place') (adv : o.Advances config log o')
    {a : t.Result} {order : Nat} (ht : o.task? t = some (.ended a order)) :
    place' t = place t ∨ place' t = D.root := by
  obtain ⟨hd, -⟩ := adv.ended ht
  by_cases hr : Restarted t log
  · exact Or.inr (moved.restarted hr)
  · obtain ⟨x, hpath, hx⟩ := moved.led (Option.isSome_of_eq_some ht)
    rw [hd, Protocol.Path.nil_iff] at hpath
    exact Or.inl ((hx hr).trans hpath)

theorem still (htasks : ∀ t, (o'.task? t).isSome → (o.task? t).isSome) (hlog : .errand ∉ log)
    (hd : ∀ t, deedsOf t log = []) : o.Moved D log o' place place where
  led {t} _ := .still (hd t)
  entered {t} hnone hsome := by
    have := htasks t hsome
    rw [hnone] at this
    cases this
  restarted hr := absurd hr.2 hlog

variable {e : Effect} {w : Wait} {before after : Machine} {o₁ : Outline}

/-- The task that is answered moves, and nobody else. -/
theorem answer {a : e.Answer} (polls : o.Polls w o₁ e (.answered a)) {u : σ}
    (hmove : D.protocol.moves (place t) e a u) (state : TaskState t.Result) :
    o.Moved D [.poll ⟨t, e, some a, before, after⟩] (o₁.setTask t state) place
      (Function.update place t u) where
  led {v} _ := by
    by_cases hv : v = t
    · subst hv
      rw [Function.update_self]
      exact .deed hmove
    · rw [Function.update_of_ne hv]
      exact .still (by simp [deedsOf, Ne.symm hv])
  entered {v} hnone hsome := by
    rw [Outline.isSome_setTask, polls.task?_answered, hnone] at hsome
    cases hsome
  restarted hr := absurd hr.2 (by simp)

/-- While a task waits, nobody moves, and the branches that it has started begin. -/
theorem wait {turn : Turn e.Answer} (polls : o.Polls w o₁ e turn) (state : TaskState t.Result) :
    o.Moved D [.poll ⟨t, e, none, before, after⟩] { o₁.setTask t state with running := none } place
      (o.heirs D place e w) where
  led {v} hv := by
    obtain ⟨old, hold⟩ := Option.isSome_iff_exists.mp hv
    rw [Discipline.heirs_of_some hold]
    exact .still rfl
  entered {v} hnone hsome := by
    obtain ⟨new, hnew⟩ := Option.isSome_iff_exists.mp
      ((Outline.isSome_setTask t v state).symm.trans hsome)
    rcases polls.old_or_born D place hnew with
      hold | ⟨run, policy, group, bs, b, number, -, -, -, hborn, -⟩
    · rw [hnone] at hold
      cases hold
    · exact Or.inr ⟨b, hborn⟩
  restarted hr := absurd hr.2 (by simp)

theorem submit (p : Program RunResult) : o.Moved D []
    { o with submissions := o.submissions ++ [.active p .fresh] } place
    (Function.update place (.submission o.submissions.length) D.root) where
  led {v} hv := by
    have hne : v ≠ .submission o.submissions.length := by
      rintro rfl
      simp [Outline.task?] at hv
    rw [Function.update_of_ne hne]
    exact .still rfl
  entered {v} hnone hsome := by
    obtain ⟨state, hstate⟩ := Option.isSome_iff_exists.mp hsome
    rcases task?_submit hstate with ⟨-, hold⟩ | ⟨rfl, -⟩
    · rw [hnone] at hold
      cases hold
    · exact Or.inl ⟨by simp, Function.update_self ..⟩
  restarted hr := absurd hr.2 (by simp)

theorem errand (p : Program RunResult) : o.Moved D [.errand] { o with main := .active p .fresh } place
    (Function.update place .main D.root) where
  led {v} _ := by
    by_cases hv : v = .main
    · subst hv
      exact ⟨place .main, .start _, fun hn => absurd ⟨rfl, by simp⟩ hn⟩
    · rw [Function.update_of_ne hv]
      exact .still (by simp [deedsOf, hv])
  entered {v} hnone hsome := by
    cases v with
    | main => cases hnone
    | _ =>
        have hsome' : (o.task? _).isSome := hsome
        rw [hnone] at hsome'
        cases hsome'
  restarted hr := by rw [hr.1, Function.update_self]

end Outline.Moved

namespace Discipline.Sound

variable {D : Discipline σ} {config : Config} {Holds : Outline → (TaskId → σ) → Prop}
  (S : D.Sound config Holds) {o o₁ o' : Outline} {place : TaskId → σ}
include S

/-- Branches that a poll starts are obedient from the places where they begin. -/
theorem obedient_polls (hob : o.Obedient D place) {t : TaskId} {e : Effect} {w : Wait}
    {turn : Turn e.Answer} (hallows : D.protocol.allows (place t) e)
    (polls : o.Polls w o₁ e turn) : o₁.Obedient D (o.heirs D place e w) := by
  constructor
  · intro v p w' hv
    rcases polls.old_or_born D place hv with
      hold | ⟨run, policy, group, bs, b, number, rfl, hb, rfl, hplace, hstate⟩
    · rw [heirs_of_some hold]
      exact hob.active hold
    · cases hstate
      rw [hplace]
      exact S.branch hallows hb
  · intro v a order hv
    rcases polls.old_or_born D place hv with
      hold | ⟨run, policy, group, bs, b, number, rfl, hb, rfl, hplace, hstate⟩
    · rw [heirs_of_some hold]
      exact hob.ended hold
    · cases hstate

/-- Every move keeps the invariant and moves the places along. -/
theorem advances {log : List Occurrence} (h : o.Advances config log o')
    (hob : o.Obedient D place) (hh : Holds o place) :
    ∃ place', o'.Obedient D place' ∧ Holds o' place' ∧ o.Moved D log o' place place' := by
  cases h with
  | pick t idle =>
      exact ⟨place, hob.of_tasks fun _ => rfl, S.pick t hh idle,
        .still (fun _ => id) (by simp) fun _ => rfl⟩
  | cancel tokens idle =>
      exact ⟨place, hob.of_tasks fun _ => rfl, S.cancel tokens hh idle,
        .still (fun _ => id) (by simp) fun _ => rfl⟩
  | stop running inactive =>
      exact ⟨place, hob.of_tasks fun _ => rfl, S.stop hh running inactive,
        .still (fun _ => id) (by simp) fun _ => rfl⟩
  | @finish t a w running active order =>
      have hf := hob.active active
      refine ⟨place, (hob.setTask_ended hf).of_tasks fun _ => rfl, S.finish order hh running active hf,
        .still (fun u hu => ?_) (by simp) fun _ => rfl⟩
      exact (o.isSome_setTask t u _).symm.trans hu
  | @answer t e next w a before after running active start polls =>
      obtain ⟨hallows, hnext⟩ := hob.active active
      obtain ⟨u, hmove, hh'⟩ := S.answer hh running active hallows polls
      exact ⟨Function.update place t u,
        (hob.of_tasks polls.task?_answered).setTask_active (hnext a u hmove), hh',
        .answer polls hmove _⟩
  | @wait t e next w w' before after running active start polls =>
      have hperform := hob.active active
      refine ⟨o.heirs D place e w, ?_, S.wait hh running active hperform.1 polls, .wait polls _⟩
      have hplace : o.heirs D place e w t = place t := heirs_of_some active
      rw [← hplace] at hperform
      have := (S.obedient_polls hob (hplace ▸ hperform.1) polls).setTask_active (w := w') hperform
      rw [Function.update_eq_self] at this
      exact this.of_tasks fun _ => rfl
  | submit flow inputs token idle =>
      exact ⟨_, hob.submit (S.submission flow inputs token), S.submit _ hh idle, .submit _⟩
  | errand idle ended errand =>
      exact ⟨_, (hob.setTask_active (t := .main) (S.main errand)).of_tasks fun _ => rfl,
        S.errand _ hh idle ended, .errand _⟩

/-- An invariant of logs and places holds along the part of a session between two systems
if every move keeps it. -/
theorem along {K : List Occurrence → Outline → (TaskId → σ) → Prop}
    (step : ∀ {log more : List Occurrence} {o o' : Outline} {place place' : TaskId → σ},
      o.Advances config more o' → o.Obedient D place → Holds o place → o'.Obedient D place' →
      Holds o' place' → o.Moved D more o' place place' → K log o place → K (log ++ more) o' place')
    {s s' : System RunResult} {log : List Occurrence} (h : s.Reaches config log s')
    (hob : s.outline.Obedient D place) (hh : Holds s.outline place) (hk : K [] s.outline place) :
    ∃ place', s'.outline.Obedient D place' ∧ Holds s'.outline place' ∧ K log s'.outline place' ∧
      ∀ t, (s.task? t).isSome →
        (s'.task? t).isSome ∧ Led D.protocol t (place t) log (place' t) := by
  induction h with
  | refl => exact ⟨place, hob, hh, hk, fun t ht => ⟨ht, .still rfl⟩⟩
  | move before move ih =>
      obtain ⟨place₁, hob₁, hh₁, hk₁, hled⟩ := ih
      obtain ⟨place₂, hob₂, hh₂, hmoved⟩ := S.advances move.advances hob₁ hh₁
      refine ⟨place₂, hob₂, hh₂, step move.advances hob₁ hh₁ hob₂ hh₂ hmoved hk₁, fun t ht => ?_⟩
      obtain ⟨hsome, hl⟩ := hled t ht
      rw [← System.task?_outline] at hsome
      refine ⟨?_, hl.append (hmoved.led hsome)⟩
      rw [← System.task?_outline]
      exact move.advances.isSome_task? hsome

/-- What the part of a session between two systems does to the places of tasks. -/
theorem reaches {s s' : System RunResult} {log : List Occurrence} (h : s.Reaches config log s')
    (hob : s.outline.Obedient D place) (hh : Holds s.outline place) :
    ∃ place', s'.outline.Obedient D place' ∧ Holds s'.outline place' ∧
      ∀ t, (s.task? t).isSome →
        (s'.task? t).isSome ∧ Led D.protocol t (place t) log (place' t) := by
  obtain ⟨place', hob', hh', -, hled⟩ := S.along (K := fun _ _ _ => True)
    (fun _ _ _ _ _ _ _ => trivial) h hob hh trivial
  exact ⟨place', hob', hh', hled⟩

/-- Before anything happens, every task is where programs of runs begin. -/
theorem obedient_initial {s : System RunResult} (h : System.Initial config s) :
    s.outline.Obedient D fun _ => D.root := by
  obtain ⟨world, numbered⟩ := h
  constructor
  · intro t p w ht
    cases t <;> cases ht
  · intro t a order ht
    cases t with
    | main => exact S.root
    | _ => cases ht

theorem session {s : System RunResult} {log : List Occurrence} (h : Session config log s)
    (initial : ∀ s₀, System.Initial config s₀ → Holds s₀.outline fun _ => D.root) :
    ∃ place, s.outline.Obedient D place ∧ Holds s.outline place := by
  obtain ⟨s₀, hs₀, hreaches⟩ := h
  obtain ⟨place, hob, hh, -⟩ := S.reaches hreaches (S.obedient_initial hs₀) (initial s₀ hs₀)
  exact ⟨place, hob, hh⟩

end Discipline.Sound
end FlowEngine

/-!
## Disciplines side by side

A second discipline that is added to a sound one may rely on it: its invariant is
about the places of both, and every move may use that the first one is kept.
-/
namespace FlowEngine

variable {σ τ α : Type}

def Protocol.both (P : Protocol σ) (Q : Protocol τ) : Protocol (σ × τ) where
  allows u e := P.allows u.1 e ∧ Q.allows u.2 e
  moves u e a v := P.moves u.1 e a v.1 ∧ Q.moves u.2 e a v.2

theorem Protocol.Path.fst {P : Protocol σ} {Q : Protocol τ} {u v : σ × τ} {h : List Deed}
    (hp : (P.both Q).Path u h v) : P.Path u.1 h v.1 := by
  induction hp with
  | start s => exact .start _
  | deed move tail ih => exact .deed move.1 ih

theorem Protocol.Path.snd {P : Protocol σ} {Q : Protocol τ} {u v : σ × τ} {h : List Deed}
    (hp : (P.both Q).Path u h v) : Q.Path u.2 h v.2 := by
  induction hp with
  | start s => exact .start _
  | deed move tail ih => exact .deed move.2 ih

theorem Program.Obeys.both {P : Protocol σ} {Q : Protocol τ} {A : σ → α → Prop}
    {B : τ → α → Prop} {p : Program α} {u : σ} {v : τ} (hp : p.Obeys P A u)
    (hq : p.Obeys Q B v) :
    p.Obeys (P.both Q) (fun w a => A w.1 a ∧ B w.2 a) (u, v) := by
  induction p generalizing u v with
  | pure a => exact ⟨hp, hq⟩
  | perform e next ih =>
      exact ⟨⟨hp.1, hq.1⟩, fun a w hm => ih a (hp.2 a w.1 hm.1) (hq.2 a w.2 hm.2)⟩

namespace Discipline

def both (D : Discipline σ) (E : Discipline τ) : Discipline (σ × τ) where
  protocol := D.protocol.both E.protocol
  root := (D.root, E.root)
  born b := (D.born b, E.born b)
  final u := D.final u.1 ∧ E.final u.2

theorem Obeys.both {D : Discipline σ} {E : Discipline τ} {p : Program α} {u : σ} {v : τ}
    (hp : D.Obeys p u) (hq : E.Obeys p v) : (D.both E).Obeys p (u, v) :=
  Program.Obeys.both hp hq

structure Extends (D : Discipline σ) (E : Discipline τ) (config : Config)
    (Holds : Outline → (TaskId → σ) → Prop) (Also : Outline → (TaskId → σ × τ) → Prop) : Prop where
  root : E.final E.root
  main {p : Program RunResult} : System.Errand config p → E.Obeys p E.root
  submission (flow : Flow) (inputs : List (String × Json)) (token : Token) :
    E.Obeys (Execution.submitted config flow inputs token) E.root
  branch {u : σ} {v : τ} {run : Nat} {policy : JoinPolicy} {group : Token} {bs : List Branch}
    {b : Branch} : D.protocol.allows u (.join run policy group bs) →
    E.protocol.allows v (.join run policy group bs) → b ∈ bs → E.Obeys b.program (E.born b)
  pick {o : Outline} {place : TaskId → σ × τ} (t : TaskId) : Also o place → o.running = none →
    Also { o with running := some t } place
  cancel {o : Outline} {place : TaskId → σ × τ} (tokens : List Token) : Also o place →
    o.running = none → Also { o with cancelled := tokens ++ o.cancelled } place
  stop {o : Outline} {place : TaskId → σ × τ} {t : TaskId} : Also o place → o.running = some t →
    (∀ p w, o.task? t ≠ some (.active p w)) → Also { o with running := none } place
  finish {o : Outline} {place : TaskId → σ × τ} {t : TaskId} {a : t.Result} {w : Wait}
    (order : Nat) : Also o place → o.running = some t →
    o.task? t = some (.active (.pure a) w) → E.final (place t).2 →
    Also { o.setTask t (.ended a order) with running := none } place
  answer {o o₁ : Outline} {place : TaskId → σ × τ} {t : TaskId} {e : Effect}
    {next : e.Answer → Program t.Result} {w : Wait} {a : e.Answer} {u : σ} :
    Holds o (fun t => (place t).1) → Also o place → o.running = some t →
    o.task? t = some (.active (.perform e next) w) → D.protocol.allows (place t).1 e →
    E.protocol.allows (place t).2 e → o.Polls w o₁ e (.answered a) →
    D.protocol.moves (place t).1 e a u → ∃ v, E.protocol.moves (place t).2 e a v ∧
      Also (o₁.setTask t (.active (next a) .fresh)) (Function.update place t (u, v))
  wait {o o₁ : Outline} {place : TaskId → σ × τ} {t : TaskId} {e : Effect}
    {next : e.Answer → Program t.Result} {w w' : Wait} : Holds o (fun t => (place t).1) →
    Also o place → o.running = some t → o.task? t = some (.active (.perform e next) w) →
    D.protocol.allows (place t).1 e → E.protocol.allows (place t).2 e →
    o.Polls w o₁ e (.waiting w') →
    Also { o₁.setTask t (.active (.perform e next) w') with running := none }
      (o.heirs (D.both E) place e w)
  submit {o : Outline} {place : TaskId → σ × τ} (p : Program RunResult) : Also o place →
    o.running = none → Also { o with submissions := o.submissions ++ [.active p .fresh] }
      (Function.update place (.submission o.submissions.length) (D.root, E.root))
  errand {o : Outline} {place : TaskId → σ × τ} (p : Program RunResult) : Also o place →
    o.running = none → (∃ result order, o.main = .ended result order) →
    Also { o with main := .active p .fresh } (Function.update place .main (D.root, E.root))

variable {D : Discipline σ} {E : Discipline τ} {config : Config}
  {Holds : Outline → (TaskId → σ) → Prop} {Also : Outline → (TaskId → σ × τ) → Prop}

theorem heirs_fst (o : Outline) (place : TaskId → σ × τ) (e : Effect) (w : Wait) :
    (fun t => (o.heirs (D.both E) place e w t).1) = o.heirs D (fun t => (place t).1) e w := by
  rcases heirs_same_or_starts o e w with hsame | ⟨⟨run, policy, group, bs, rfl⟩, hw⟩
  · rw [hsame, hsame]
  · funext t
    cases t with
    | branch number =>
        rw [heirs_spawn hw, heirs_spawn hw]
        split
        · rfl
        · cases bs[number - o.branches.length]? <;> rfl
    | main => rw [heirs_root (by simp), heirs_root (by simp)]
    | submission number => rw [heirs_root (by simp), heirs_root (by simp)]

theorem update_fst (place : TaskId → σ × τ) (t : TaskId) (x : σ × τ) :
    (fun v => (Function.update place t x v).1) =
      Function.update (fun v => (place v).1) t x.1 := by
  funext v
  by_cases hv : v = t
  · subst hv
    simp
  · simp [hv]

theorem Led.fst {P : Protocol σ} {Q : Protocol τ} {t : TaskId} {u v : σ × τ}
    {log : List Occurrence} (h : Led (P.both Q) t u log v) : Led P t u.1 log v.1 := by
  obtain ⟨x, hpath, hx⟩ := h
  exact ⟨x.1, hpath.fst, fun hr => congrArg Prod.fst (hx hr)⟩

theorem Moved.fst {o o' : Outline} {log : List Occurrence} {place place' : TaskId → σ × τ}
    (h : o.Moved (D.both E) log o' place place') :
    o.Moved D log o' (fun t => (place t).1) fun t => (place' t).1 where
  led ht := Led.fst (h.led ht)
  entered hnone hsome := by
    rcases h.entered hnone hsome with ⟨hroot, hp⟩ | ⟨b, hp⟩
    · exact Or.inl ⟨hroot, congrArg Prod.fst hp⟩
    · exact Or.inr ⟨b, congrArg Prod.fst hp⟩
  restarted hr := congrArg Prod.fst (h.restarted hr)

/-- A sound discipline stays so when another one is added to it. -/
theorem Sound.extend (S : D.Sound config Holds) (X : D.Extends E config Holds Also) :
    (D.both E).Sound config fun o place => Holds o (fun t => (place t).1) ∧ Also o place where
  root := ⟨S.root, X.root⟩
  main h := (S.main h).both (X.main h)
  submission flow inputs token := (S.submission flow inputs token).both
    (X.submission flow inputs token)
  branch hallows hb := (S.branch hallows.1 hb).both (X.branch hallows.1 hallows.2 hb)
  pick t h idle := ⟨S.pick t h.1 idle, X.pick t h.2 idle⟩
  cancel tokens h idle := ⟨S.cancel tokens h.1 idle, X.cancel tokens h.2 idle⟩
  stop h running inactive := ⟨S.stop h.1 running inactive, X.stop h.2 running inactive⟩
  finish order h running active hf :=
    ⟨S.finish order h.1 running active hf.1, X.finish order h.2 running active hf.2⟩
  answer h running active hallows polls := by
    obtain ⟨u, hu, h₁⟩ := S.answer h.1 running active hallows.1 polls
    obtain ⟨v, hv, h₂⟩ := X.answer h.1 h.2 running active hallows.1 hallows.2 polls hu
    refine ⟨(u, v), ⟨hu, hv⟩, ?_, h₂⟩
    rw [update_fst]
    exact h₁
  wait h running active hallows polls := by
    refine ⟨?_, X.wait h.1 h.2 running active hallows.1 hallows.2 polls⟩
    rw [heirs_fst]
    exact S.wait h.1 running active hallows.1 polls
  submit p h idle := by
    refine ⟨?_, X.submit p h.2 idle⟩
    rw [update_fst]
    exact S.submit p h.1 idle
  errand p h idle ended := by
    refine ⟨?_, X.errand p h.2 idle ended⟩
    rw [update_fst]
    exact S.errand p h.1 idle ended

end Discipline
end FlowEngine
