import FlowEngine.Proofs.Machine.Slots
import FlowEngine.Proofs.Run.Staging
import FlowEngine.Proofs.Session.Polled
import Mathlib.Data.List.Perm.Subperm

/-!
# Who has a slot

A submitted run waits for a slot before it does anything else, and gives its slot back when it is
closed. So those that have begun and have not ended are never more than there are slots, and when all
have ended every slot is free.
-/
namespace FlowEngine

def TaskState.wait {α : Type} : TaskState α → Wait
  | .active _ w => w
  | .ended _ _ => .fresh

namespace Stage

variable {u : Stage} {e : Effect} {w : Wait}

def standing : Stage → Wait → Option Standing
  | queued, .slot => some .queued
  | admitted, _ | inside _ _, _ | closed _, _ => some .calling
  | _, _ => none

def Runs : Stage → Prop
  | awaiting | told => False
  | _ => True

def next (u : Stage) {e : Effect} : Turn e.Answer → Stage
  | .answered a => u.after e a
  | .waiting _ => u

/-- What a poll of a submitted run does to the gate of slots is what the next stage says. -/
theorem standing_next {α : Type} {turn : Turn e.Answer} (hallows : protocol.allows u e)
    (hsuits : ∀ w', turn = .waiting w' → e.Suits w')
    (next : e.Answer → Program α) : (u.next turn).standing (turn.state next).wait =
      Machine.slotStanding (u.standing w) e turn := by
  cases turn with
  | answered a =>
      cases u with
      | inside run held =>
          cases e with
          | beginTransaction ctx => cases a <;> rfl
          | acquireSlot | releaseSlot => exact hallows.elim
          | _ => rfl
      | queued | admitted | closed | awaiting => cases e <;> first | rfl | exact hallows.elim
      | _ => exact hallows.elim
  | waiting w' =>
      cases u with
      | queued =>
          cases e with
          | acquireSlot =>
              obtain rfl : w' = .slot := hsuits w' rfl
              rfl
          | _ => exact hallows.elim
      | inside run held =>
          cases e with
          | acquireSlot | releaseSlot => exact hallows.elim
          | _ => rfl
      | closed result =>
          cases e with
          | releaseSlot => exact (hsuits w' rfl).elim
          | _ => exact hallows.elim
      | admitted | awaiting => cases e <;> first | rfl | exact hallows.elim
      | _ => exact hallows.elim

theorem Runs.after (h : u.Runs) (a : e.Answer) : (u.after e a).Runs := by
  cases u with
  | inside run held =>
      cases e with
      | beginTransaction ctx => cases a <;> trivial
      | _ => trivial
  | awaiting | told => exact h.elim
  | _ => cases e <;> trivial

theorem Runs.path (h : u.Runs) {v : Stage} {ds : List Deed} (hp : protocol.Path u ds v) : v.Runs := by
  induction hp with
  | start => exact h
  | deed move tail ih => exact ih (eq_of_moves move ▸ h.after _)

theorem standing_eq_queued (h : u.standing w = some .queued) : u = queued := by
  cases u with
  | queued => rfl
  | _ => cases h

theorem acquires_of_queued (h : protocol.allows queued e) : e = .acquireSlot := by
  cases e with
  | acquireSlot => rfl
  | _ => exact h.elim

theorem queued_of_acquires (h : protocol.allows u .acquireSlot) : u = queued := by
  cases u with
  | queued => rfl
  | _ => exact h.elim

theorem closed_of_releases (h : protocol.allows u .releaseSlot) : ∃ result, u = closed result := by
  cases u with
  | closed result => exact ⟨result, rfl⟩
  | _ => exact h.elim

def first (u : Stage) : TaskId → Stage
  | .submission _ => queued
  | _ => u

theorem next_ne_queued {turn : Turn e.Answer} (h : u ≠ queued) : u.next turn ≠ queued := by
  cases turn with
  | waiting w' => exact h
  | answered a =>
      cases u with
      | queued => exact absurd rfl h
      | inside run held =>
          cases e with
          | beginTransaction ctx => cases a <;> nofun
          | _ => nofun
      | _ => cases e <;> nofun

theorem releases_of_done {a : e.Answer} {result : RunResult} (hallows : protocol.allows u e)
    (h : u.after e a = done result) : e = .releaseSlot := by
  cases u with
  | closed r =>
      cases e with
      | releaseSlot => rfl
      | _ => exact hallows.elim
  | inside run held =>
      cases e with
      | beginTransaction ctx => cases a <;> cases h
      | _ => cases h
  | done r => exact hallows.elim
  | _ => cases e <;> cases h

end Stage

/-- The stages after a poll: the task that was polled may have gone on. -/
theorem Outline.Advanced.stage_eq {o o' : Outline} {first stage stage' : TaskId → Stage} {t v : TaskId}
    {e : Effect} {turn : Turn e.Answer} {m m' : Machine}
    (h : o.Advanced [.poll ⟨t, e, turn.answer?, m, m'⟩] o' first stage stage')
    (hv : (o.task? v).isSome) : stage' v = Function.update stage t ((stage t).next turn) v := by
  have hpath := h.led hv (by simp [Restarted])
  by_cases hvt : v = t
  · subst hvt
    rw [Function.update_self]
    cases turn with
    | waiting w' => exact Protocol.Path.nil_iff.mp hpath
    | answered a =>
        simp only [Turn.answer?, deedsOf, if_true] at hpath
        obtain ⟨u, hmove, hnil⟩ := Protocol.Path.cons_iff.mp hpath
        rw [Protocol.Path.nil_iff.mp hnil]
        exact Stage.eq_of_moves hmove
  · rw [Function.update_of_ne hvt]
    cases turn with
    | waiting w' => exact Protocol.Path.nil_iff.mp hpath
    | answered a =>
        simp only [Turn.answer?, deedsOf, if_neg (Ne.symm hvt)] at hpath
        exact Protocol.Path.nil_iff.mp hpath

theorem Outline.Advances.ended_of_running {o o' : Outline} {config : Config} {log : List Occurrence}
    {t : TaskId} {a : t.Result} {w : Wait} (h : o.Advances config log o') (running : o.running = some t)
    (ht : o.task? t = some (.active (.pure a) w)) : ∃ k, o'.task? t = some (.ended a k) := by
  cases h with
  | pick u idle | cancel tokens idle | submit flow inputs token idle | errand idle ended errand =>
      cases running.symm.trans idle
  | @stop u running' inactive =>
      obtain rfl : t = u := Option.some.inj (running.symm.trans running')
      exact absurd ht (inactive _ _)
  | @finish u b w' running' active order =>
      obtain rfl : t = u := Option.some.inj (running.symm.trans running')
      cases ht.symm.trans active
      exact ⟨order, task?_setTask_self _ _ (Option.isSome_of_eq_some ht)⟩
  | @answer u e next w' a' before after running' active start polls =>
      obtain rfl : t = u := Option.some.inj (running.symm.trans running')
      cases ht.symm.trans active
  | @wait u e next w' w'' before after running' active start polls =>
      obtain rfl : t = u := Option.some.inj (running.symm.trans running')
      cases ht.symm.trans active

theorem Outline.Staged.performs_or_done {o : Outline} {stage : TaskId → Stage}
    {trail : (t : TaskId) → Trail t} (h : o.Staged stage trail) {n : Nat} {state : TaskState RunResult}
    (ht : o.task? (.submission n) = some state) : (∃ e next w, state = .active (.perform e next) w) ∨
      ∃ r, stage (.submission n) = .done r := by
  cases state with
  | ended a k => exact Or.inr ⟨a, h.ends rfl ht⟩
  | active p w =>
      cases p with
      | pure a => exact Or.inr ⟨a, h.obeys rfl ht⟩
      | perform e next => exact Or.inl ⟨e, next, w, rfl⟩

namespace System

variable {config : Config} {log more : List Occurrence} {s s' : System RunResult}
  {stage stage' first : TaskId → Stage} {trail trail' : (t : TaskId) → Trail t} {t : TaskId}
  {e : Effect} {next : e.Answer → Program t.Result} {w : Wait} {n : Nat}

def slotStandings (s : System RunResult) (stage : TaskId → Stage) : TaskId → Option Standing
  | .submission n =>
    (s.task? (.submission n)).bind fun state => (stage (.submission n)).standing state.wait
  | _ => none

def executing (s : System RunResult) (log : List Occurrence) : List Nat :=
  (List.range s.machine.submissions.size).filter fun n =>
    !(deedsOf (.submission n) log).isEmpty &&
      (s.task? (.submission n)).any fun state => state.result?.isNone

theorem lt_of_task? {state : TaskState RunResult} (hs : s.task? (.submission n) = some state) :
    n < s.machine.submissions.size := by
  obtain ⟨task, htask, -⟩ := Option.map_eq_some_iff.mp hs
  exact (Array.getElem?_eq_some_iff.mp htask).1

theorem mem_executing : n ∈ s.executing log ↔ deedsOf (.submission n) log ≠ [] ∧
    ∃ p w, s.task? (.submission n) = some (.active p w) := by
  simp only [executing, List.mem_filter, List.mem_range, Bool.and_eq_true, Bool.not_eq_true',
    List.isEmpty_eq_false_iff]
  constructor
  · rintro ⟨-, hbegun, hactive⟩
    refine ⟨hbegun, ?_⟩
    cases hs : s.task? (.submission n) with
    | none => simp [hs] at hactive
    | some state =>
        cases state with
        | active p w => exact ⟨p, w, rfl⟩
        | ended r k => simp [hs, TaskState.result?] at hactive
  · rintro ⟨hbegun, p, w, hs⟩
    exact ⟨lt_of_task? hs, hbegun, by simp [hs, TaskState.result?]⟩

structure Rationed (s : System RunResult) (config : Config) (log : List Occurrence)
    (stage : TaskId → Stage) : Prop where
  rations : s.machine.Rations (s.slotStandings stage)
  size : s.machine.slots.size = config.maxConcurrentRuns.toNat
  runs {n : Nat} : (s.task? (.submission n)).isSome → (stage (.submission n)).Runs
  main : stage .main ≠ .queued
  eager {n : Nat} {p : Program RunResult} : stage (.submission n) = .queued →
    s.task? (.submission n) = some (.active p .fresh) → s.machine.Awake (.submission n)
  unbegun {n : Nat} : s.task? (.submission n) = none ∨ stage (.submission n) = .queued →
    deedsOf (.submission n) log = []
  /-- A slot that was given back is there for others before the task ends. -/
  leaves {n : Nat} {r : RunResult} {p : Program RunResult} {w : Wait} :
    stage (.submission n) = .done r → s.task? (.submission n) = some (.active p w) →
      s.machine.running = some (.submission n) ∧
        0 < s.machine.slots.free + s.machine.slots.granted.length

theorem Unpolled.deedsOf_eq_nil (h : s.Unpolled log s') (v : TaskId) : deedsOf v log = [] := by
  refine List.eq_nil_iff_forall_not_mem.mpr fun d hd => ?_
  obtain ⟨before, after, hm⟩ := mem_of_deed hd
  exact h.quiet _ hm

namespace Rationed

theorem slotStandings_of_active {p : Program RunResult}
    (h : s.task? (.submission n) = some (.active p w)) :
    s.slotStandings stage (.submission n) = (stage (.submission n)).standing w := by
  simp only [slotStandings, h]
  rfl

theorem task?_of_polls (polls : s.Polls t e next w s') (hn : .submission n ≠ t) :
    s'.task? (.submission n) = s.task? (.submission n) :=
  (polls.others hn).resolve_right fun ⟨_, ⟨_, hb⟩, _⟩ => nomatch hb

/-- What a poll does to the gate of slots is what the stages after it say. -/
theorem standings_of_polls (staged : s.outline.Staged stage trail)
    (adv : s.outline.Advanced [.poll ⟨t, e, (s.machine.poll t w e).turn.answer?, s.machine,
      (s.machine.poll t w e).machine⟩] s'.outline first stage stage')
    (polls : s.Polls t e next w s')
    (hsuits : ∀ w', (s.machine.poll t w e).turn = .waiting w' → e.Suits w')
    (hplain : (∀ n, t ≠ .submission n) → e ≠ .acquireSlot ∧ e ≠ .releaseSlot) :
    s'.slotStandings stage' = Function.update (s.slotStandings stage) t
      (Machine.slotStanding (s.slotStandings stage t) e (s.machine.poll t w e).turn) := by
  have hothers (m : Nat) (hm : .submission m ≠ t) :
      s'.slotStandings stage' (.submission m) = s.slotStandings stage (.submission m) := by
    simp only [slotStandings, task?_of_polls polls hm]
    cases hs : s.task? (.submission m) with
    | none => rfl
    | some state =>
        rw [adv.stage_eq ((task?_outline _).symm ▸ Option.isSome_of_eq_some hs),
          Function.update_of_ne hm]
  have hactive : (s.outline.task? t).isSome :=
    (task?_outline t).symm ▸ Option.isSome_of_eq_some polls.active
  by_cases ht : ∃ n, t = .submission n
  · obtain ⟨n, rfl⟩ := ht
    have hallows := (staged.obeys rfl ((task?_outline _).trans polls.active)).1
    funext v
    by_cases hv : v = .submission n
    · subst hv
      rw [Function.update_self, slotStandings_of_active polls.active]
      simp only [slotStandings, polls.result, Option.bind_some]
      rw [adv.stage_eq hactive, Function.update_self]
      exact Stage.standing_next hallows hsuits next
    · rw [Function.update_of_ne hv]
      cases v with
      | submission m => exact hothers m hv
      | _ => rfl
  · have hne (n : Nat) : t ≠ .submission n := fun h => ht ⟨n, h⟩
    obtain ⟨hacquire, hrelease⟩ := hplain hne
    have hsame : Machine.slotStanding (s.slotStandings stage t) e (s.machine.poll t w e).turn =
        s.slotStandings stage t := by
      cases e with
      | acquireSlot => exact absurd rfl hacquire
      | releaseSlot => exact absurd rfl hrelease
      | _ => rfl
    rw [hsame, Function.update_eq_self]
    funext v
    cases v with
    | submission m => exact hothers m (hne m).symm
    | _ => rfl

/-- A poll keeps the books of the gate, and whoever was handed a slot goes on. -/
theorem rations_of_polls (h : s.machine.Rations (s.slotStandings stage))
    (staged : s.outline.Staged stage trail)
    (adv : s.outline.Advanced [.poll ⟨t, e, (s.machine.poll t w e).turn.answer?, s.machine,
      (s.machine.poll t w e).machine⟩] s'.outline first stage stage')
    (polls : s.Polls t e next w s')
    (hsuits : ∀ w', (s.machine.poll t w e).turn = .waiting w' → e.Suits w')
    (hplain : (∀ n, t ≠ .submission n) → e ≠ .acquireSlot ∧ e ≠ .releaseSlot) :
    s'.machine.Rations (s'.slotStandings stage') := by
  have hallows (n : Nat) (ht : t = .submission n) : Stage.protocol.allows (stage t) e :=
    (staged.obeys (ht ▸ rfl) ((task?_outline t).trans polls.active)).1
  have hsubmission (he : e = .acquireSlot ∨ e = .releaseSlot) : ∃ n, t = .submission n := by
    by_contra hno
    obtain ⟨hacquire, hrelease⟩ := hplain fun n hn => hno ⟨n, hn⟩
    exact he.elim hacquire hrelease
  have hfirst (he : e = .acquireSlot) (hw : w ≠ .slot) : s.slotStandings stage t = none := by
    obtain ⟨n, rfl⟩ := hsubmission (Or.inl he)
    have hqueued : stage (.submission n) = .queued := Stage.queued_of_acquires (he ▸ hallows n rfl)
    rw [slotStandings_of_active polls.active, hqueued]
    cases w with
    | slot => exact absurd rfl hw
    | _ => rfl
  have hpoll := h.poll (e := e) (fun he hw => ?_) hfirst fun he => ?_
  · rw [← standings_of_polls staged adv polls hsuits hplain] at hpoll
    have hslots : s'.machine.slots = (s.machine.poll t w e).machine.slots :=
      Machine.slots_of_shared polls.shared
    refine ⟨hslots ▸ hpoll.books, fun {v} hv => ?_⟩
    rw [hslots] at hv
    refine polls.awake (hpoll.granted hv) ?_
    by_cases hvt : v = t
    · subst hvt
      refine Or.inr ?_
      cases hturn : (s.machine.poll v w e).turn with
      | answered a => rfl
      | waiting w' =>
          have hqueued := hpoll.books.queued.mp (List.mem_append_right _ hv)
          obtain ⟨n, rfl⟩ : ∃ n, v = .submission n := by
            cases v with
            | submission n => exact ⟨n, rfl⟩
            | _ => cases hqueued
          have hresult := polls.result
          rw [hturn] at hresult
          rw [slotStandings_of_active hresult] at hqueued
          have hnext := Stage.standing_eq_queued hqueued
          rw [adv.stage_eq ((task?_outline _).symm ▸ Option.isSome_of_eq_some polls.active),
            Function.update_self, hturn] at hnext
          have hstage : stage (.submission n) = .queued := hnext
          obtain rfl : e = .acquireSlot := Stage.acquires_of_queued (hstage ▸ hallows n rfl)
          exact absurd hv (h.not_granted (hfirst rfl) hturn)
    · exact Or.inl hvt
  · obtain ⟨n, rfl⟩ := hsubmission (Or.inl he)
    have hqueued : stage (.submission n) = .queued := Stage.queued_of_acquires (he ▸ hallows n rfl)
    rw [slotStandings_of_active polls.active, hqueued, hw]
    rfl
  · obtain ⟨n, rfl⟩ := hsubmission (Or.inr he)
    obtain ⟨result, hclosed⟩ := Stage.closed_of_releases (he ▸ hallows n rfl)
    rw [slotStandings_of_active polls.active, hclosed]
    rfl

section

variable (staged : s.outline.Staged stage trail) (staged' : s'.outline.Staged stage' trail')
  (adv : s.outline.Advanced [.poll ⟨t, e, (s.machine.poll t w e).turn.answer?, s.machine,
    (s.machine.poll t w e).machine⟩] s'.outline first stage stage')
  (polls : s.Polls t e next w s')
include adv

/-- A task that was there is at the same stage unless it was polled. -/
theorem stage_of_other {v : TaskId} {state : TaskState v.Result} (hv : s.task? v = some state)
    (hne : v ≠ t) : stage' v = stage v := by
  rw [adv.stage_eq ((task?_outline v).symm ▸ Option.isSome_of_eq_some hv), Function.update_of_ne hne]

include polls

theorem stage_of_polled : stage' t = (stage t).next (s.machine.poll t w e).turn := by
  rw [adv.stage_eq ((task?_outline t).symm ▸ Option.isSome_of_eq_some polls.active),
    Function.update_self]

include staged'

theorem queued_of_polls {v : TaskId} (hv : stage' v = .queued) : stage v = .queued := by
  cases hs : s.task? v with
  | some state =>
      by_cases hvt : v = t
      · subst hvt
        by_contra hne
        exact Stage.next_ne_queued hne ((stage_of_polled adv polls).symm.trans hv)
      · exact (stage_of_other adv hs hvt).symm.trans hv
  | none =>
      have hne : v ≠ t := by
        rintro rfl
        cases hs.symm.trans polls.active
      have htold : stage' v = .told := by
        rcases polls.others hne with hsame | ⟨-, ⟨n, rfl⟩, -⟩
        · exact staged'.idle (Or.inl ((task?_outline v).trans (hsame.trans hs)))
        · exact staged'.idle (Or.inr rfl)
      cases htold.symm.trans hv

include staged

theorem waits_of_polls (ht : t = .submission n) (hn : stage' t = .queued) :
    e = .acquireSlot ∧ ∃ w', (s.machine.poll t w e).turn = .waiting w' := by
  have hbefore := queued_of_polls staged' adv polls hn
  have hallows : Stage.protocol.allows (stage t) e :=
    (staged.obeys (ht ▸ rfl) ((task?_outline t).trans polls.active)).1
  obtain rfl : e = .acquireSlot := Stage.acquires_of_queued (hbefore ▸ hallows)
  refine ⟨rfl, ?_⟩
  cases hturn : (s.machine.poll t w .acquireSlot).turn with
  | waiting w' => exact ⟨w', rfl⟩
  | answered a =>
      rw [stage_of_polled adv polls, hturn, hbefore] at hn
      cases hn

theorem unbegun_of_polls (h : s.Rationed config log stage)
    (hn : s'.task? (.submission n) = none ∨ stage' (.submission n) = .queued) :
    deedsOf (.submission n) (log ++ [.poll ⟨t, e, (s.machine.poll t w e).turn.answer?, s.machine,
      (s.machine.poll t w e).machine⟩]) = [] := by
  rw [deedsOf_append (by simp [Restarted])]
  by_cases hnt : .submission n = t
  · subst hnt
    have hstaged := hn.resolve_left fun hnone => by cases polls.result.symm.trans hnone
    obtain ⟨rfl, w', hturn⟩ := waits_of_polls staged staged' adv polls rfl hstaged
    rw [h.unbegun (Or.inr (queued_of_polls staged' adv polls hstaged)), hturn]
    rfl
  · rw [h.unbegun (hn.imp (task?_of_polls polls hnt).symm.trans (queued_of_polls staged' adv polls))]
    cases (s.machine.poll t w e).turn <;> simp [Turn.answer?, deedsOf, Ne.symm hnt]

omit staged'

/-- Whoever gives its slot back runs, and leaves the slot to others. -/
theorem leaves_of_polls (h : s.Rationed config log stage)
    (move : s.Moves config [.poll ⟨t, e, (s.machine.poll t w e).turn.answer?, s.machine,
      (s.machine.poll t w e).machine⟩] s') {r : RunResult} {p : Program RunResult} {w' : Wait}
    (hn : stage' (.submission n) = .done r) (hp : s'.task? (.submission n) = some (.active p w')) :
    s'.machine.running = some (.submission n) ∧
      0 < s'.machine.slots.free + s'.machine.slots.granted.length := by
  by_cases hnt : .submission n = t
  · subst hnt
    have hallows := (staged.obeys rfl ((task?_outline _).trans polls.active)).1
    rw [stage_of_polled adv polls] at hn
    cases hturn : (s.machine.poll (.submission n) w e).turn with
    | waiting w' =>
        have hdone : stage (.submission n) = .done r := by rwa [hturn] at hn
        rw [hdone] at hallows
        exact hallows.elim
    | answered a =>
        rw [hturn] at hn move
        obtain rfl := Stage.releases_of_done hallows hn
        refine ⟨move.running_of_answer, ?_⟩
        rw [Machine.slots_of_shared polls.shared]
        change 0 < s.machine.releaseSlot.slots.free + s.machine.releaseSlot.slots.granted.length
        rw [Machine.slots_releaseSlot]
        exact s.machine.slots.release_pos
  · have hp' := (task?_of_polls polls hnt).symm.trans hp
    rw [stage_of_other adv hp' hnt] at hn
    have hrunning := (h.leaves hn hp').1
    exact absurd (Option.some.inj (hrunning.symm.trans polls.running)) hnt

end

theorem polled (h : s.Rationed config log stage) (staged : s.outline.Staged stage trail)
    (staged' : s'.outline.Staged stage' trail')
    (adv : s.outline.Advanced [.poll ⟨t, e, (s.machine.poll t w e).turn.answer?, s.machine,
      (s.machine.poll t w e).machine⟩] s'.outline first stage stage')
    (polls : s.Polls t e next w s')
    (move : s.Moves config [.poll ⟨t, e, (s.machine.poll t w e).turn.answer?, s.machine,
      (s.machine.poll t w e).machine⟩] s')
    (hsuits : ∀ w', (s.machine.poll t w e).turn = .waiting w' → e.Suits w')
    (hplain : (∀ n, t ≠ .submission n) → e ≠ .acquireSlot ∧ e ≠ .releaseSlot) :
    s'.Rationed config (log ++ [.poll ⟨t, e, (s.machine.poll t w e).turn.answer?, s.machine,
      (s.machine.poll t w e).machine⟩]) stage' where
  rations := rations_of_polls h.rations staged adv polls hsuits hplain
  size := by rw [Machine.slots_of_shared polls.shared, s.machine.slots_size_poll, h.size]
  runs {n} hn := by
    by_cases hnt : .submission n = t
    · subst hnt
      have hsome : (s.outline.task? (.submission n)).isSome :=
        (task?_outline _).symm ▸ Option.isSome_of_eq_some polls.active
      refine (h.runs (Option.isSome_of_eq_some polls.active)).path (adv.led hsome ?_)
      simp [Restarted]
    · rw [task?_of_polls polls hnt] at hn
      obtain ⟨state, hstate⟩ := Option.isSome_iff_exists.mp hn
      rw [stage_of_other adv hstate hnt]
      exact h.runs hn
  main hmain := h.main (queued_of_polls staged' adv polls hmain)
  eager {n p} hn hp := by
    by_cases hnt : .submission n = t
    · subst hnt
      obtain ⟨rfl, w', hturn⟩ := waits_of_polls staged staged' adv polls rfl hn
      have hresult := polls.result
      rw [hturn] at hresult
      cases hp.symm.trans hresult
      cases hsuits _ hturn
    · have hbefore := h.eager (queued_of_polls staged' adv polls hn)
        ((task?_of_polls polls hnt).symm.trans hp)
      exact polls.awake ((s.machine.rouses_poll t w e).awake hbefore) (Or.inl hnt)
  unbegun := unbegun_of_polls staged staged' adv polls h
  leaves := leaves_of_polls staged adv polls h move

section

variable (staged : s.outline.Staged stage trail) {u : Stage}
  (adv : s.outline.Advanced more s'.outline (Stage.first u) stage stage')
  (unpolled : s.Unpolled more s')
include adv

theorem stage_of_new (hnone : s.task? (.submission n) = none)
    (hn : (s'.task? (.submission n)).isSome) : stage' (.submission n) = .queued :=
  adv.begun rfl (Or.inl ((task?_outline _).trans hnone)) ((task?_outline (s := s') _).symm ▸ hn)

include unpolled

/-- Without a poll the stages of tasks stay as they are. -/
theorem stage_of_unpolled {v : TaskId} {state : TaskState v.Result} (hv : s.task? v = some state)
    (hr : ¬ Restarted v more) : stage' v = stage v := by
  have hpath := adv.led ((task?_outline _).symm ▸ Option.isSome_of_eq_some hv) hr
  rw [unpolled.deedsOf_eq_nil] at hpath
  exact Protocol.Path.nil_iff.mp hpath

theorem stage_of_submission {state : TaskState RunResult} (hn : s.task? (.submission n) = some state) :
    stage' (.submission n) = stage (.submission n) :=
  stage_of_unpolled adv unpolled hn (by simp [Restarted])

include staged

theorem standings_of_unpolled : s'.slotStandings stage' = s.slotStandings stage := by
  funext v
  cases v with
  | submission n =>
      simp only [slotStandings]
      cases hs : s.task? (.submission n) with
      | none =>
          cases hs' : s'.task? (.submission n) with
          | none => rfl
          | some state =>
              have hqueued := stage_of_new adv hs (Option.isSome_of_eq_some hs')
              rcases unpolled.tasks (.submission n) with hsame | ⟨-, hfresh⟩
              · cases hs'.symm.trans (hsame.trans hs)
              · rw [hqueued, Option.bind_some, Option.bind_none]
                cases state with
                | ended a k => rfl
                | active p w =>
                    obtain rfl := hfresh p w hs'
                    rfl
      | some state =>
          rw [stage_of_submission adv unpolled hs]
          rcases staged.performs_or_done ((task?_outline _).trans hs) with ⟨e, next, w, rfl⟩ | ⟨r, hdone⟩
          · rcases unpolled.tasks (.submission n) with hsame | ⟨hidle, -⟩
            · rw [hsame, hs]
            · exact absurd hs (hidle e next w)
          · rw [hdone]
            cases s'.task? (.submission n) <;> rfl
  | _ => rfl

omit adv in
theorem waits_of_unpolled {state : TaskState RunResult} (hs : s.task? (.submission n) = some state)
    (hn : stage (.submission n) = .queued) : s'.task? (.submission n) = some state ∧
      ∃ e next w, state = .active (.perform e next) w := by
  rcases staged.performs_or_done ((task?_outline _).trans hs) with ⟨e, next, w, rfl⟩ | ⟨r, hdone⟩
  · refine ⟨?_, e, next, w, rfl⟩
    rcases unpolled.tasks (.submission n) with hsame | ⟨hidle, -⟩
    · exact hsame.trans hs
    · exact absurd hs (hidle e next w)
  · cases hdone.symm.trans hn

theorem rations_of_unpolled (h : s.machine.Rations (s.slotStandings stage)) :
    s'.machine.Rations (s'.slotStandings stage') := by
  rw [standings_of_unpolled staged adv unpolled]
  refine h.of_slots unpolled.machine.slots fun v hv hawake => ?_
  obtain ⟨n, rfl⟩ : ∃ n, v = .submission n := by
    cases v with
    | submission n => exact ⟨n, rfl⟩
    | _ => cases hv
  obtain ⟨state, hs, hstanding⟩ := Option.bind_eq_some_iff.mp hv
  obtain ⟨-, e, next, w, rfl⟩ :=
    waits_of_unpolled staged unpolled hs (Stage.standing_eq_queued hstanding)
  exact unpolled.awake hs hawake

theorem not_done_of_unpolled (h : s.Rationed config log stage) (move : s.Moves config more s')
    {r : RunResult} {p : Program RunResult} {w : Wait}
    (hp : s'.task? (.submission n) = some (.active p w)) : stage' (.submission n) ≠ .done r := by
  intro hn
  cases hs : s.task? (.submission n) with
  | none => cases (stage_of_new adv hs (Option.isSome_of_eq_some hp)).symm.trans hn
  | some state =>
      have hdone := (stage_of_submission adv unpolled hs).symm.trans hn
      have hs' := (task?_outline _).trans hs
      cases state with
      | ended a k =>
          have hstill := (move.advances.ended hs').2.resolve_right (by simp [Restarted])
          cases hp.symm.trans ((task?_outline _).symm.trans hstill)
      | active q v =>
          cases q with
          | pure a =>
              obtain ⟨k, hended⟩ := move.advances.ended_of_running (h.leaves hdone hs).1 hs'
              cases hp.symm.trans ((task?_outline _).symm.trans hended)
          | perform e next =>
              have hperforms := (staged.obeys rfl hs').1
              rw [hdone] at hperforms
              exact hperforms.elim

/-- A move without a poll keeps to the slots, too. -/
theorem passed (h : s.Rationed config log stage)
    (hu : u ≠ .queued) (move : s.Moves config more s')
    (hnew : ∀ n, s.task? (.submission n) = none → (s'.task? (.submission n)).isSome →
      s'.machine.Awake (.submission n)) : s'.Rationed config (log ++ more) stage' where
  rations := rations_of_unpolled staged adv unpolled h.rations
  size := unpolled.machine.slots ▸ h.size
  runs {n} hn := by
    cases hs : s.task? (.submission n) with
    | none =>
        rw [stage_of_new adv hs hn]
        trivial
    | some state =>
        rw [stage_of_submission adv unpolled hs]
        exact h.runs (Option.isSome_of_eq_some hs)
  main hmain := by
    by_cases hr : Restarted .main more
    · exact hu ((adv.begun (t := .main) rfl (Or.inr hr) rfl).symm.trans hmain)
    · exact h.main ((stage_of_unpolled (v := .main) adv unpolled rfl hr).symm.trans hmain)
  eager {n p} hn hp := by
    cases hs : s.task? (.submission n) with
    | none => exact hnew n hs (Option.isSome_of_eq_some hp)
    | some state =>
        rw [stage_of_submission adv unpolled hs] at hn
        obtain ⟨hsame, e, next, w, rfl⟩ := waits_of_unpolled staged unpolled hs hn
        cases hp.symm.trans hsame
        exact unpolled.awake hs (h.eager hn hs)
  unbegun {n} hn := by
    rw [deedsOf_append (by simp [Restarted]), unpolled.deedsOf_eq_nil, List.append_nil]
    cases hs : s.task? (.submission n) with
    | none => exact h.unbegun (Or.inl hs)
    | some state =>
        rcases hn with hnone | hn
        · have hstays := move.advances.isSome_task? (t := .submission n)
            ((task?_outline _).symm ▸ Option.isSome_of_eq_some hs)
          rw [task?_outline, hnone] at hstays
          cases hstays
        · exact h.unbegun (Or.inr ((stage_of_submission adv unpolled hs).symm.trans hn))
  leaves hn hp := absurd hn (not_done_of_unpolled staged adv unpolled h move hp)

end

/-! ## How many slots are taken -/

/-- The submitted runs that have begun and have not ended are no more than there are slots. -/
theorem executing_le (h : s.Rationed config log stage) :
    (s.executing log).length ≤ config.maxConcurrentRuns.toNat := by
  obtain ⟨calls, -, hcalls, hsum⟩ := h.rations.books.held
  rw [h.size] at hsum
  have hnodup : ((s.executing log).map TaskId.submission).Nodup :=
    (List.nodup_range.filter _).map fun _ _ => TaskId.submission.inj
  have hcases {n : Nat} (hn : n ∈ s.executing log) : .submission n ∈ calls ∨
      s.machine.running = some (.submission n) ∧
        0 < s.machine.slots.free + s.machine.slots.granted.length := by
    obtain ⟨hbegun, p, w, hp⟩ := mem_executing.mp hn
    rw [hcalls, slotStandings_of_active hp]
    have hruns := h.runs (Option.isSome_of_eq_some hp)
    cases hstage : stage (.submission n) with
    | queued => exact absurd (h.unbegun (Or.inr hstage)) hbegun
    | done r => exact Or.inr (h.leaves hstage hp)
    | awaiting | told =>
        rw [hstage] at hruns
        exact hruns.elim
    | _ => exact Or.inl rfl
  rw [← List.length_map (f := TaskId.submission)]
  by_cases hall : ∀ n ∈ s.executing log, .submission n ∈ calls
  · have hsubset : (s.executing log).map TaskId.submission ⊆ calls := by
      intro t ht
      obtain ⟨n, hn, rfl⟩ := List.mem_map.mp ht
      exact hall n hn
    have hle := (List.subperm_of_subset hnodup hsubset).length_le
    omega
  · obtain ⟨n, hn, hnot⟩ : ∃ n ∈ s.executing log, .submission n ∉ calls := by
      by_contra hno
      exact hall fun n hn => by_contra fun hnot => hno ⟨n, hn, hnot⟩
    obtain ⟨hrunning, hpos⟩ := (hcases hn).resolve_left hnot
    have hsubset : (s.executing log).map TaskId.submission ⊆ .submission n :: calls := by
      intro t ht
      obtain ⟨m, hm, rfl⟩ := List.mem_map.mp ht
      rcases hcases hm with hin | ⟨hrunning', -⟩
      · exact List.mem_cons_of_mem _ hin
      · exact Option.some.inj (hrunning'.symm.trans hrunning) ▸ List.mem_cons_self
    have hle := (List.subperm_of_subset hnodup hsubset).length_le
    rw [List.length_cons] at hle
    omega

theorem slots_free (h : s.Rationed config log stage) (staged : s.outline.Staged stage trail)
    (hended : ∀ n, n < s.machine.submissions.size → ∃ r k, s.task? (.submission n) = some (.ended r k)) :
    s.machine.slots.free = config.maxConcurrentRuns.toNat := by
  have hnone (t : TaskId) : s.slotStandings stage t = none := by
    cases t with
    | submission n =>
        simp only [slotStandings]
        cases hs : s.task? (.submission n) with
        | none => rfl
        | some state =>
            obtain ⟨r, k, hr⟩ := hended n (lt_of_task? hs)
            obtain rfl := Option.some.inj (hs.symm.trans hr)
            have hdone : stage (.submission n) = .done r := staged.ends rfl ((task?_outline _).trans hs)
            rw [hdone]
            rfl
    | _ => rfl
  obtain ⟨calls, -, hcalls, hsum⟩ := h.rations.books.held
  have hempty : calls = [] := List.eq_nil_iff_forall_not_mem.mpr fun t ht => by
    cases (hnone t).symm.trans ((hcalls t).mp ht)
  have hgranted : s.machine.slots.granted = [] := List.eq_nil_iff_forall_not_mem.mpr fun t ht => by
    cases (hnone t).symm.trans (h.rations.books.queued.mp (List.mem_append_right _ ht))
  rw [hempty, hgranted, h.size] at hsum
  exact hsum

end Rationed

end System
end FlowEngine
