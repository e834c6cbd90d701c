import FlowEngine.Proofs.Machine.Signals

/-!
# Polls of tasks that wait

Every poll keeps the books of what tasks are woken by. A task that has to wait waits in the way
of its effect: in line for a permit, for its timer, for branches, for a slot or for a run.
-/
namespace FlowEngine

def Effect.Suits : Effect → Wait → Prop
  | .request _ _ (.call _ _ _), w => w = .permit ∨ ∃ timer outcome, w = .call timer outcome
  | .request _ _ (.record _), w => w = .permit ∨ ∃ timer, w = .operation timer
  | .sleep _ _, w => ∃ timer, w = .timer timer
  | .join _ _ _ _, w => ∃ tasks, w = .branches tasks
  | .settle _ _, w => ∃ n rest count, w = .stragglers (n :: rest) count
  | .acquireSlot, w => w = .slot
  | .awaitRun _, w => w = .submission
  | _, _ => False

def Wait.settled : Wait → Nat
  | .stragglers _ count => count
  | _ => 0

namespace Machine

variable {m : Machine} {tokens : TaskId → Option Token} {timers : TaskId → Option Nat}
  {deadlines : Nat → Prop} {me : TaskId} {run : Nat} {token : Token} {request : Request}

/-! ## Requests -/

theorem Watches.answerRequest (h : m.Watches tokens) (outcome : Outcome) :
    (m.answerRequest me run request outcome).machine.Watches (Function.update tokens me none) :=
  ((h.steady (m.steady_hangUp request)).forget me).steady (steady_releasePermit _ run)

theorem Times.answerRequest (h : m.Times timers deadlines) (outcome : Outcome) :
    (m.answerRequest me run request outcome).machine.Times (Function.update timers me none)
      deadlines := by
  refine Times.steady ?_ (steady_releasePermit _ run)
  exact ((h.clear me).steady (m.steady_hangUp request)).of_eq rfl (Nat.le_refl _) fun _ => id

theorem Watches.abandonRequest (h : m.Watches tokens) (timer : Nat) :
    (m.abandonRequest me run request timer).machine.Watches (Function.update tokens me none) := by
  have hstop : (m.stopTimer timer).Watches tokens := ⟨h.listed, h.valid, h.watched⟩
  exact ((hstop.steady (steady_hangUp _ request)).forget me).steady (steady_releasePermit _ run)

theorem Times.abandonRequest (h : m.Times timers deadlines) {timer : Nat}
    (hme : timers me = some timer) :
    (m.abandonRequest me run request timer).machine.Times (Function.update timers me none)
      deadlines := by
  refine Times.steady ?_ (steady_releasePermit _ run)
  exact ((h.stopOwn hme).steady (steady_hangUp _ request)).of_eq rfl (Nat.le_refl _) fun _ => id

theorem steady_modifyWorld (m : Machine) (f : World → World) : Steady m (m.modifyWorld f) :=
  ⟨rfl, Nat.le_refl _, id⟩

theorem steady_operate (m : Machine) (operation : RecordRequest) :
    Steady m (m.operate operation).2 := ⟨rfl, Nat.le_refl _, id⟩

theorem Watches.startRequest (h : m.Watches tokens) (hc : m.isCancelled token = false) :
    (m.startRequest me run token request).machine.Watches (Function.update tokens me
      (Turn.token? (e := .request run token request)
        (m.startRequest me run token request).turn)) := by
  have hforget := h.forget me
  have hanswer {m' : Machine} (hm' : m'.Watches (Function.update tokens me none))
      (request : Request) (outcome : Outcome) :
      (m'.answerRequest me run request outcome).machine.Watches (Function.update tokens me none) := by
    have hanswered : (m'.answerRequest me run request outcome).machine.Watches _ :=
      hm'.answerRequest outcome
    rwa [Function.update_idem] at hanswered
  have hobserve {m' : Machine} (hm' : m'.Watches (Function.update tokens me none))
      (hc' : m'.isCancelled token = false) :
      (m'.observe token me).Watches (Function.update tokens me (some token)) := by
    have := hm'.observe (Function.update_self me none tokens) hc'
    rwa [Function.update_idem] at this
  have hbegins := m.startRequest_begins me run token request
  generalize m.startRequest me run token request = polled at hbegins ⊢
  cases hbegins with
  | answers sink outcome => exact hanswer (hforget.steady (steady_modifyWorld _ _)) _ _
  | calls sink call span outcome =>
      exact hobserve (hforget.steady (steady_modifyWorld _ _)).of_timers hc
  | operates record span => exact hobserve hforget.of_timers hc

theorem timers_observe (m : Machine) (token : Token) (t : TaskId) :
    (m.observe token t).timers = m.timers := by
  unfold observe
  split <;> rfl

theorem Times.observe (h : m.Times timers deadlines) (token : Token) (t : TaskId) :
    (m.observe token t).Times timers deadlines :=
  h.of_eq (m.timers_observe token t) (Nat.le_of_eq (m.next_observe token t).symm)
    fun _ => (m.rouses_observe [] token t).awake

theorem Times.startRequest (h : m.Times timers deadlines) :
    (m.startRequest me run token request).machine.Times (Function.update timers me
      (Turn.timer? (e := .request run token request)
        (m.startRequest me run token request).turn)) deadlines := by
  have hforget : (m.forget me).Times timers deadlines := h.of_eq rfl (Nat.le_refl _) fun _ => id
  have hbegins := m.startRequest_begins me run token request
  generalize m.startRequest me run token request = polled at hbegins ⊢
  cases hbegins with
  | answers sink outcome => exact (hforget.steady (steady_modifyWorld _ _)).answerRequest _
  | calls sink call span outcome =>
      exact ((hforget.steady (steady_modifyWorld _ _)).schedule _ me).observe token me
  | operates record span => exact (hforget.schedule _ me).observe token me

theorem Watches.pollRequest (h : m.Watches tokens) {wait : Wait}
    (hme : tokens me = (Effect.request run token request).token? wait) :
    (m.pollRequest me run token request wait).machine.Watches (Function.update tokens me
      (Turn.token? (e := .request run token request)
        (m.pollRequest me run token request wait).turn)) := by
  have hstay {x : Option Token} (hx : tokens me = x) :
      m.Watches (Function.update tokens me x) := by
    rwa [← hx, Function.update_eq_self]
  have hgate (gate : Gate TaskId) := h.steady (m.steady_setGate run gate)
  have hidle {w : Wait} (hw : tokens me = (Effect.request run token request).token? w)
      (first : w.asked = false) : tokens me = none := by
    rw [hw, Effect.token?_request, first]
    rfl
  have hpoll := m.pollRequest_requests me run token request wait
  generalize m.pollRequest me run token request wait = polled at hpoll ⊢
  cases hpoll with
  | refused first why => exact hstay (hidle hme first)
  | leaves cancelled => exact (h.steady (m.steady_withdraw run me)).forget me
  | abandoned awaited cancelled => exact h.abandonRequest _
  | starts valid there taken => exact (hgate _).startRequest valid
  | queues first valid there full => exact (hgate _).observe (hidle hme first) valid
  | queued | waits | unsuited => exact hstay hme
  | replied valid fired => exact h.answerRequest _
  | performed record valid fired => exact (h.steady (m.steady_operate _)).answerRequest _

theorem Times.pollRequest (h : m.Times timers deadlines) {wait : Wait}
    (hme : timers me = (Effect.request run token request).timer? wait) :
    (m.pollRequest me run token request wait).machine.Times (Function.update timers me
      (Turn.timer? (e := .request run token request)
        (m.pollRequest me run token request wait).turn)) deadlines := by
  have hstay {x : Option Nat} (hx : timers me = x) :
      m.Times (Function.update timers me x) deadlines := by
    rwa [← hx, Function.update_eq_self]
  have hgate (gate : Gate TaskId) := h.steady (m.steady_setGate run gate)
  have hidle {w : Wait} (hw : timers me = (Effect.request run token request).timer? w)
      (first : w.asked = false) : timers me = none := by
    rw [hw, Effect.timer?_request, Wait.awaited?_of_not_asked first]
  have hpoll := m.pollRequest_requests me run token request wait
  generalize m.pollRequest me run token request wait = polled at hpoll ⊢
  cases hpoll with
  | refused first why => exact hstay (hidle hme first)
  | leaves cancelled =>
      have hwithdraw := (h.clear me).steady (m.steady_withdraw run me)
      exact hwithdraw.of_eq rfl (Nat.le_refl _) fun _ => id
  | abandoned awaited cancelled =>
      exact h.abandonRequest ((hme.trans (Effect.timer?_request run token request _)).trans awaited)
  | starts valid there taken => exact (hgate _).startRequest
  | queues first valid there full =>
      exact ((hstay (hidle hme first)).steady (m.steady_setGate run _)).observe token me
  | queued | waits | unsuited => exact hstay hme
  | replied valid fired => exact h.answerRequest _
  | performed record valid fired => exact (h.steady (m.steady_operate _)).answerRequest _

/-! ## Sleeps -/

theorem Watches.pollSleep (h : m.Watches tokens) {token : Option Token} {span : Nat} {wait : Wait}
    (hme : tokens me = (Effect.sleep token span).token? wait) :
    (m.pollSleep me token span wait).machine.Watches (Function.update tokens me
      (Turn.token? (e := .sleep token span) (m.pollSleep me token span wait).turn)) := by
  have hstay {x : Option Token} (hx : tokens me = x) :
      m.Watches (Function.update tokens me x) := by
    rwa [← hx, Function.update_eq_self]
  have hidle {w : Wait} (hw : tokens me = (Effect.sleep token span).token? w)
      (first : ∀ timer, w ≠ .timer timer) : tokens me = none :=
    hw.trans (Effect.token?_sleep_of_ne first)
  have hpoll := m.pollSleep_sleeps me token span wait
  generalize m.pollSleep me token span wait = polled at hpoll ⊢
  cases hpoll with
  | refused first | instant first => exact hstay (hidle hme first)
  | @interrupted timer cut =>
      have hstop : (m.stopTimer timer).Watches tokens := ⟨h.listed, h.valid, h.watched⟩
      exact hstop.forget me
  | starts first valid long =>
      cases token with
      | none => exact (hstay (hidle hme first)).of_timers
      | some token => exact h.of_timers.observe (hidle hme first) valid
  | waits => exact hstay hme
  | woken => exact h.forget me

theorem Times.pollSleep (h : m.Times timers deadlines) {token : Option Token} {span : Nat}
    {wait : Wait} (hme : timers me = (Effect.sleep token span).timer? wait) :
    (m.pollSleep me token span wait).machine.Times (Function.update timers me
      (Turn.timer? (e := .sleep token span) (m.pollSleep me token span wait).turn)) deadlines := by
  have hstay {x : Option Nat} (hx : timers me = x) :
      m.Times (Function.update timers me x) deadlines := by
    rwa [← hx, Function.update_eq_self]
  have hidle {w : Wait} (hw : timers me = (Effect.sleep token span).timer? w)
      (first : ∀ timer, w ≠ .timer timer) : timers me = none :=
    hw.trans (Effect.timer?_sleep_of_ne first)
  have hpoll := m.pollSleep_sleeps me token span wait
  generalize m.pollSleep me token span wait = polled at hpoll ⊢
  cases hpoll with
  | refused first | instant first => exact hstay (hidle hme first)
  | interrupted cut => exact (h.stopOwn hme).of_eq rfl (Nat.le_refl _) fun _ => id
  | starts first valid long =>
      cases token with
      | none => exact h.schedule span me
      | some token => exact (h.schedule span me).observe token me
  | waits => exact hstay hme
  | woken => exact (h.clear me).of_eq rfl (Nat.le_refl _) fun _ => id

/-! ## Joins -/

/-- What an operation does that cancels tokens, for all that is woken by them. -/
theorem pollJoin_alerts (m : Machine) (me : TaskId) (run : Nat) (policy : JoinPolicy)
    (group : Token) (branches : List Branch) (wait : Wait) :
    Steady m (m.pollJoin me run policy group branches wait).machine ∨
      Steady (m.cancel group) (m.pollJoin me run policy group branches wait).machine := by
  unfold Machine.pollJoin
  cases wait with
  | branches tasks =>
      dsimp only
      unfold checkJoin
      split
      · rename_i order _
        have hleft := steady_setWaiters (m.cancel group) none (tasks.filter (m.endedAfter order))
        exact Or.inr (hleft.trans ⟨rfl, Nat.le_refl _, id⟩)
      · unfold gather
        split <;> exact Or.inl (.refl m)
  | _ =>
      dsimp only
      split
      · exact Or.inl (m.steady_spawn _)
      · exact Or.inl ((m.steady_spawn _).trans (steady_setWaiters _ _ _))

/-! ## Settling -/

def Settling.polled : Settling → Polled (Except Failure Nat)
  | .settled count m => .answered (.ok count) m
  | .interrupted m => .answered (.error settleInterrupted) m
  | .waiting tasks count m => .waiting (.stragglers tasks count) m

theorem pollSettle_eq (m : Machine) (me : TaskId) (run : Nat) (token : Option Token) (wait : Wait) :
    m.pollSettle me run token wait =
      (m.settleRun me run token wait.pending wait.settled).polled := by
  unfold pollSettle Settling.polled
  cases wait <;> rfl

def Settling.token? (token : Option Token) : Settling → Option Token
  | .waiting _ _ _ => token
  | _ => none

theorem Watches.settleList (h : m.Watches tokens) (run : Nat) (token : Option Token)
    (tasks : List Nat) (hme : tokens me = none ∨ tokens me = token)
    (hnil : tasks = [] → tokens me = none) (count : Nat) :
    (settleList me run token tasks count m).machine.Watches (Function.update tokens me
      ((settleList me run token tasks count m).token? token)) := by
  induction tasks generalizing m tokens count with
  | nil =>
      change m.Watches (Function.update tokens me none)
      rwa [← hnil rfl, Function.update_eq_self]
  | cons n rest ih =>
      unfold Machine.settleList
      split
      · have hforget := (h.forget me).steady (steady_setWaiter _ none n)
        exact hforget.steady ⟨rfl, Nat.le_refl _, id⟩
      · rename_i hc
        split
        · have hrest := ih (h.forget me) (Or.inl (Function.update_self _ _ _))
            (fun _ => Function.update_self _ _ _) (count + 1)
          rwa [Function.update_idem] at hrest
        · have hwaiter := h.steady (m.steady_setWaiter (some me) n)
          cases token with
          | none =>
              change (m.setWaiter (some me) n).Watches (Function.update tokens me none)
              rwa [← hme.elim id id, Function.update_eq_self]
          | some token =>
              have hvalid : m.isCancelled token = false := eq_false_of_ne_true hc
              rcases hme with hme | hme
              · exact hwaiter.observe hme hvalid
              · have hagain := hwaiter.observe_again hme hvalid
                rw [← Function.update_eq_self me tokens, hme] at hagain
                exact hagain

theorem Watches.settleRun (h : m.Watches tokens) (run : Nat) (token : Option Token)
    (tasks : List Nat) (hme : tokens me = none ∨ tokens me = token)
    (hnil : tasks = [] → tokens me = none) (count : Nat) :
    (m.settleRun me run token tasks count).machine.Watches (Function.update tokens me
      ((m.settleRun me run token tasks count).token? token)) := by
  have hlist := h.settleList run token tasks hme hnil count
  unfold Machine.settleRun
  cases hs : Machine.settleList me run token tasks count m with
  | settled count m' =>
      rw [hs] at hlist
      have htake : (m'.takeStragglers run).2.Watches (Function.update tokens me none) :=
        hlist.steady ⟨rfl, Nat.le_refl _, id⟩
      have hnone : Function.update tokens me none me = none := Function.update_self _ _ _
      have hmore := htake.settleList run token (m'.takeStragglers run).1 (Or.inl hnone)
        (fun _ => hnone) count
      rwa [Function.update_idem] at hmore
  | _ =>
      rw [hs] at hlist
      exact hlist

theorem Watches.pollSettle (h : m.Watches tokens) {token : Option Token} {wait : Wait}
    (hme : tokens me = (Effect.settle run token).token? wait)
    (hsuits : wait = .fresh ∨ (Effect.settle run token).Suits wait) :
    (m.pollSettle me run token wait).machine.Watches (Function.update tokens me
      (Turn.token? (e := .settle run token) (m.pollSettle me run token wait).turn)) := by
  have hpoll {settling : Settling}
      (h : settling.machine.Watches (Function.update tokens me (settling.token? token))) :
      settling.polled.machine.Watches (Function.update tokens me
        (Turn.token? (e := .settle run token) settling.polled.turn)) := by
    cases settling <;> exact h
  rw [pollSettle_eq]
  rcases hsuits with rfl | ⟨n, rest, count, rfl⟩
  · exact hpoll (h.settleRun run token [] (Or.inl hme) (fun _ => hme) 0)
  · exact hpoll (h.settleRun run token (n :: rest) (Or.inr hme) nofun count)

theorem Times.settleList (h : m.Times timers deadlines) (token : Option Token) (tasks : List Nat)
    (count : Nat) : (settleList me run token tasks count m).machine.Times timers deadlines := by
  induction tasks generalizing m count with
  | nil => exact h
  | cons n rest ih =>
      have hforget : (m.forget me).Times timers deadlines := h.of_eq rfl (Nat.le_refl _) fun _ => id
      unfold Machine.settleList
      split
      · exact (hforget.steady (steady_setWaiter _ none n)).steady ⟨rfl, Nat.le_refl _, id⟩
      · split
        · exact ih hforget (count + 1)
        · have hwaiter := h.steady (m.steady_setWaiter (some me) n)
          cases token with
          | none => exact hwaiter
          | some token => exact hwaiter.observe token me

theorem Times.pollSettle (h : m.Times timers deadlines) (token : Option Token) (wait : Wait) :
    (m.pollSettle me run token wait).machine.Times timers deadlines := by
  have hrun (tasks : List Nat) (count : Nat) :
      (m.settleRun me run token tasks count).machine.Times timers deadlines := by
    have hlist : (Machine.settleList me run token tasks count m).machine.Times timers deadlines :=
      h.settleList token tasks count
    unfold Machine.settleRun
    cases hs : Machine.settleList me run token tasks count m with
    | settled count m' =>
        rw [hs] at hlist
        have htake : (m'.takeStragglers run).2.Times timers deadlines :=
          hlist.steady ⟨rfl, Nat.le_refl _, id⟩
        exact htake.settleList token _ count
    | _ =>
        rw [hs] at hlist
        exact hlist
  rw [pollSettle_eq]
  have hsettled := hrun wait.pending wait.settled
  cases hs : m.settleRun me run token wait.pending wait.settled <;>
    · rw [hs] at hsettled
      exact hsettled

/-! ## All polls -/

def stirs : Effect → Bool
  | .request _ _ _ | .sleep _ _ | .join _ _ _ _ | .settle _ _ | .startDeadline _ _
  | .stopDeadline _ => true
  | _ => false

theorem clerical_steady : Clerical Steady where
  refl := .refl
  trans := .trans
  modifyRun _ _ _ _ _ := ⟨rfl, Nat.le_refl _, id⟩
  modifyWorld m f _ := m.steady_modifyWorld f

theorem steady_poll (m : Machine) (me : TaskId) (wait : Wait) {e : Effect} (he : stirs e = false) :
    Steady m (m.poll me wait e).machine := by
  cases e with
  | request | sleep | join | settle | startDeadline | stopDeadline => cases he
  | childToken | openRun => exact ⟨rfl, Nat.le_succ _, id⟩
  | startSpan ctx step => exact m.steady_mark ctx.run step none
  | endSpan ctx step status => exact m.steady_mark ctx.run step (some status)
  | acquireSlot =>
      unfold poll pollSlot
      cases wait <;> dsimp only <;> split <;> exact ⟨rfl, Nat.le_refl _, id⟩
  | releaseSlot =>
      change Steady m m.releaseSlot
      unfold releaseSlot
      rcases m.slots.release with ⟨slots, next⟩
      refine Steady.trans ?_ (steady_wakeIfSome _ next)
      exact ⟨rfl, Nat.le_refl _, id⟩
  | awaitRun submission =>
      unfold poll
      dsimp only
      unfold pollRun
      split <;> exact ⟨rfl, Nat.le_refl _, id⟩
  | _ => exact clerical_steady.poll m me wait rfl

theorem token?_eq_none {e : Effect} (he : ∀ w, e.token? w = none) (turn : Turn e.Answer) :
    turn.token? = none := by
  cases turn with
  | answered a => rfl
  | waiting w => exact he w

theorem timer?_eq_none {e : Effect} (he : ∀ w, e.timer? w = none) (turn : Turn e.Answer) :
    turn.timer? = none := by
  cases turn with
  | answered a => rfl
  | waiting w => exact he w

theorem Watches.poll (h : m.Watches tokens) {wait : Wait} {e : Effect}
    (hme : tokens me = e.token? wait) (hsuits : wait = .fresh ∨ e.Suits wait) :
    (m.poll me wait e).machine.Watches
      (Function.update tokens me (m.poll me wait e).turn.token?) := by
  have hstay {m' : Machine} (hm : m'.Watches tokens) (he : ∀ w, e.token? w = none) :
      m'.Watches (Function.update tokens me (m.poll me wait e).turn.token?) := by
    rw [token?_eq_none he, ← he wait, ← hme, Function.update_eq_self]
    exact hm
  cases e with
  | request run token request => exact h.pollRequest hme
  | sleep token span => exact h.pollSleep hme
  | settle run token => exact h.pollSettle hme hsuits
  | join run policy group branches =>
      refine hstay ?_ fun _ => rfl
      rcases m.pollJoin_alerts me run policy group branches wait with hsteady | hsteady
      · exact h.steady hsteady
      · exact (h.cancel group).steady hsteady
  | startDeadline token limit => exact hstay h.of_timers fun _ => rfl
  | stopDeadline deadline => exact hstay ⟨h.listed, h.valid, h.watched⟩ fun _ => rfl
  | _ => exact hstay (h.steady (m.steady_poll me wait rfl)) fun _ => rfl

theorem Times.poll (h : m.Times timers deadlines) {wait : Wait} {e : Effect}
    (hme : timers me = e.timer? wait) (hstop : ∀ d, e = .stopDeadline d → deadlines d) :
    (m.poll me wait e).machine.Times (Function.update timers me (m.poll me wait e).turn.timer?)
      fun d => deadlines d ∨ ∃ a, (m.poll me wait e).turn.answer? = some a ∧ e.Starts a d := by
  have hmore {m' : Machine} {timers : TaskId → Option Nat} (hm : m'.Times timers deadlines)
      (he : ∀ a d, ¬ e.Starts a d) : m'.Times timers
        fun d => deadlines d ∨ ∃ a, (m.poll me wait e).turn.answer? = some a ∧ e.Starts a d :=
    ⟨hm.numbered, hm.own, hm.timed, fun hd => hm.deadline (hd.resolve_right fun ⟨a, _, ha⟩ => he a _ ha)⟩
  have hstay {m' : Machine} {deadlines : Nat → Prop} (hm : m'.Times timers deadlines)
      (he : ∀ w, e.timer? w = none) :
      m'.Times (Function.update timers me (m.poll me wait e).turn.timer?) deadlines := by
    rw [timer?_eq_none he, ← he wait, ← hme, Function.update_eq_self]
    exact hm
  cases e with
  | request run token request => exact hmore (h.pollRequest hme) fun _ _ => id
  | sleep token span => exact hmore (h.pollSleep hme) fun _ _ => id
  | settle run token => exact hmore (hstay (h.pollSettle token wait) fun _ => rfl) fun _ _ => id
  | join run policy group branches =>
      refine hmore (hstay ?_ fun _ => rfl) fun _ _ => id
      rcases m.pollJoin_alerts me run policy group branches wait with hsteady | hsteady
      · exact h.steady hsteady
      · exact (h.cancel group).steady hsteady
  | startDeadline token limit =>
      refine hstay ?_ fun _ => rfl
      have hstarted := h.startDeadline limit.toNat token
      refine ⟨hstarted.numbered, hstarted.own, hstarted.timed, fun hd => hstarted.deadline ?_⟩
      exact hd.imp_right fun ⟨a, ha, hd⟩ => (Option.some.inj ha).trans hd
  | stopDeadline deadline =>
      exact hmore (hstay (h.stopDeadline (hstop deadline rfl)) fun _ => rfl) fun _ _ => id
  | _ => exact hmore (hstay (h.steady (m.steady_poll me wait rfl)) fun _ => rfl) fun _ _ => id

/-! ## How a task waits -/

/-- A task waits in the way of its effect, under a token that is not cancelled, for a timer that is
pending. -/
structure Rests (m : Machine) (e : Effect) (w : Wait) : Prop where
  suits : e.Suits w
  valid {token : Token} : e.token? w = some token → m.isCancelled token = false
  pending {n : Nat} : e.timer? w = some n → ∃ x ∈ m.timers, x.number = n

theorem isCancelled_observe (m : Machine) (token : Token) (t : TaskId) (other : Token) :
    (m.observe token t).isCancelled other = m.isCancelled other := by
  unfold observe
  split <;> rfl

theorem exists_of_isPending {n : Nat} (h : m.isPending n = true) : ∃ x ∈ m.timers, x.number = n := by
  simpa [isPending] using h

theorem exists_of_schedule (m : Machine) (span : Nat) (alarm : Alarm) :
    ∃ x ∈ (m.schedule span alarm).2.timers, x.number = (m.schedule span alarm).1 :=
  ⟨_, List.mem_append_right _ (List.mem_singleton_self _), rfl⟩

theorem rests_startRequest {w : Wait} (hc : m.isCancelled token = false)
    (h : (m.startRequest me run token request).turn = .waiting w) :
    (m.startRequest me run token request).machine.Rests (.request run token request) w := by
  have hvalid (m' : Machine) (other : Token) (ht : some token = some other)
      (hm' : m'.isCancelled token = false) : (m'.observe token me).isCancelled other = false := by
    cases ht
    exact (isCancelled_observe _ _ _ _).trans hm'
  have hpending (m' : Machine) (span n : Nat) (hn : some (m'.schedule span (.wake me)).1 = some n) :
      ∃ x ∈ ((m'.schedule span (.wake me)).2.observe token me).timers, x.number = n := by
    cases hn
    rw [timers_observe]
    exact exists_of_schedule _ _ _
  have hbegins := m.startRequest_begins me run token request
  generalize m.startRequest me run token request = polled at hbegins h ⊢
  cases hbegins with
  | answers => cases h
  | calls sink call span outcome =>
      cases h
      cases call
      exact ⟨Or.inr ⟨_, _, rfl⟩, fun ht => hvalid _ _ ht (by exact hc), fun hn => hpending _ _ _ hn⟩
  | operates record span =>
      cases h
      cases record
      exact ⟨Or.inr ⟨_, rfl⟩, fun ht => hvalid _ _ ht (by exact hc), fun hn => hpending _ _ _ hn⟩

theorem rests_permit (hc : m.isCancelled token = false) :
    m.Rests (.request run token request) .permit := by
  refine ⟨?_, ?_, nofun⟩
  · cases request <;> exact Or.inl rfl
  · rintro _ ⟨⟩
    exact hc

theorem rests_pending {e : Effect} {w : Wait} {n : Nat} (hsuits : e.Suits w)
    (htoken : ∀ token, e.token? w = some token → m.isCancelled token = false)
    (htimer : e.timer? w = some n) (hp : m.isPending n = true) : m.Rests e w := by
  refine ⟨hsuits, fun ht => htoken _ ht, fun hn => ?_⟩
  cases htimer.symm.trans hn
  exact exists_of_isPending hp

theorem rests_pollRequest {wait w : Wait}
    (hsuits : wait = .fresh ∨ (Effect.request run token request).Suits wait)
    (h : (m.pollRequest me run token request wait).turn = .waiting w) :
    (m.pollRequest me run token request wait).machine.Rests (.request run token request) w := by
  have hpoll := m.pollRequest_requests me run token request wait
  generalize m.pollRequest me run token request wait = polled at hpoll h ⊢
  cases hpoll with
  | refused | leaves | abandoned | replied | performed => cases h
  | starts valid there taken => exact rests_startRequest valid h
  | queues first valid there full =>
      cases h
      exact rests_permit ((isCancelled_observe _ _ _ _).trans valid)
  | queued valid nothing =>
      cases h
      exact rests_permit valid
  | waits awaited valid pending =>
      cases h
      have hbegun := hsuits.resolve_left (by rintro rfl; cases awaited)
      refine rests_pending hbegun (fun other ht => ?_)
        ((Effect.timer?_request run token request _).trans awaited) pending
      rw [Effect.token?_request] at ht
      split at ht
      · cases ht
        exact valid
      · cases ht
  | unsuited call valid =>
      cases call
      obtain hpermit | ⟨_, _, hcall⟩ := hsuits.resolve_left nofun
      · cases hpermit
      · cases hcall

theorem rests_pollSleep {token : Option Token} {span : Nat} {wait w : Wait}
    (h : (m.pollSleep me token span wait).turn = .waiting w) :
    (m.pollSleep me token span wait).machine.Rests (.sleep token span) w := by
  have hvalid (hc : m.interrupts token = false) (other : Token) (ht : token = some other) :
      m.isCancelled other = false := by
    subst ht
    exact hc
  have hpoll := m.pollSleep_sleeps me token span wait
  generalize m.pollSleep me token span wait = polled at hpoll h ⊢
  cases hpoll with
  | refused | interrupted | instant | woken => cases h
  | starts first valid long =>
      cases h
      cases token with
      | none =>
          refine ⟨⟨_, rfl⟩, nofun, ?_⟩
          rintro _ ⟨⟩
          exact exists_of_schedule _ _ _
      | some token =>
          refine ⟨⟨_, rfl⟩, fun ht => (isCancelled_observe _ _ _ _).trans (hvalid valid _ ht), ?_⟩
          rintro _ ⟨⟩
          change ∃ x ∈ (observe _ token me).timers, _
          rw [timers_observe]
          exact exists_of_schedule _ _ _
  | waits valid pending =>
      cases h
      exact rests_pending ⟨_, rfl⟩ (hvalid valid) rfl pending

theorem settleList_waiting {token : Option Token} {tasks rest : List Nat} {count count' : Nat}
    {m' : Machine} (h : settleList me run token tasks count m = .waiting rest count' m') :
    ∃ n others, rest = n :: others ∧ n ∈ tasks ∧ m.branchResult? n = none ∧
      (n < m.branches.size → m'.waiter? n = some me) ∧
      ∀ other, token = some other → m'.isCancelled other = false := by
  induction tasks generalizing m count with
  | nil => cases h
  | cons n others ih =>
      unfold settleList at h
      split at h
      · cases h
      · rename_i hc
        split at h
        · obtain ⟨k, others', hrest, hk, hresult, hwaiter⟩ := ih h
          exact ⟨k, others', hrest, List.mem_cons_of_mem _ hk, hresult, hwaiter⟩
        · rename_i hended
          cases h
          refine ⟨n, others, rfl, List.mem_cons_self, by simpa using hended, fun hn => ?_, ?_⟩
          · have hset : (m.setWaiter (some me) n).waiter? n = some me := by
              rw [waiter?_setWaiter, if_pos ⟨rfl, hn⟩]
            cases token with
            | none => exact hset
            | some token =>
                have hrouses := rouses_observe (m.setWaiter (some me) n) [] token me
                exact (hrouses.waiter (lt_of_waiter? hset) List.not_mem_nil).trans hset
          · rintro other rfl
            exact (isCancelled_observe _ _ _ _).trans (eq_false_of_ne_true hc)

theorem branches_settleList {token : Option Token} {tasks : List Nat} {count count' : Nat}
    {m' : Machine} (h : settleList me run token tasks count m = .settled count' m') :
    m'.branches = m.branches := by
  induction tasks generalizing m count with
  | nil =>
      cases h
      rfl
  | cons n rest ih =>
      unfold settleList at h
      split at h
      · cases h
      · split at h
        · exact ih (m := m.forget me) h
        · cases h

/-- A task that waits for branches waits for one that has not ended, and that one reports to it. -/
theorem pollSettle_waiting {token : Option Token} {wait w : Wait}
    (h : (m.pollSettle me run token wait).turn = .waiting w) :
    ∃ n rest count, w = .stragglers (n :: rest) count ∧
      n ∈ wait.pending ++ m.runs[run]?.elim [] ActiveRun.stragglers ∧
      m.branchResult? n = none ∧
      (n < m.branches.size → (m.pollSettle me run token wait).machine.waiter? n = some me) ∧
      ∀ other, token = some other →
        (m.pollSettle me run token wait).machine.isCancelled other = false := by
  rw [pollSettle_eq] at h ⊢
  unfold settleRun at h ⊢
  cases hs : settleList me run token wait.pending wait.settled m with
  | interrupted m' =>
      rw [hs] at h
      cases h
  | waiting tasks count m' =>
      rw [hs] at h
      cases h
      obtain ⟨n, rest, rfl, hn, hresult, hreports, hvalid⟩ := settleList_waiting hs
      exact ⟨n, rest, count, rfl, List.mem_append_left _ hn, hresult, hreports, hvalid⟩
  | settled count m' =>
      have hbranches := branches_settleList hs
      have hruns := runs_settleList hs
      rw [hs] at h
      cases hmore : settleList me run token (m'.takeStragglers run).1 count
        (m'.takeStragglers run).2 with
      | waiting tasks count'' m'' =>
          simp only [hmore, Settling.polled, Polled.turn] at h
          cases h
          obtain ⟨n, rest, rfl, hn, hresult, hreports, hvalid⟩ := settleList_waiting hmore
          simp only [hmore]
          refine ⟨n, rest, count'', rfl, List.mem_append_right _ ?_, ?_, fun hlt => hreports ?_, hvalid⟩
          · rw [← hruns]
            exact hn
          · rw [branchResult?, ← hbranches]
            exact hresult
          · change n < m'.branches.size
            rwa [hbranches]
      | settled count'' m'' =>
          simp only [hmore, Settling.polled, Polled.turn] at h
          cases h
      | interrupted m'' =>
          simp only [hmore, Settling.polled, Polled.turn] at h
          cases h

/-- Whoever has to wait rests until it is woken. -/
theorem rests_poll {wait w : Wait} {e : Effect} (hsuits : wait = .fresh ∨ e.Suits wait)
    (h : (m.poll me wait e).turn = .waiting w) : (m.poll me wait e).machine.Rests e w := by
  have hpolls := m.poll_outline (.ended default 0) me wait e
  rw [h] at hpolls
  cases e with
  | request run token request => exact rests_pollRequest hsuits h
  | sleep token span => exact rests_pollSleep h
  | join run policy group branches =>
      refine ⟨?_, nofun, nofun⟩
      change (m.pollJoin me run policy group branches wait).turn = .waiting w at h
      unfold pollJoin at h
      cases wait with
      | branches tasks =>
          dsimp only at h
          unfold checkJoin gather at h
          split at h
          · cases h
          · split at h
            · cases h
            · cases h
              exact ⟨_, rfl⟩
      | _ =>
          dsimp only at h
          split at h
          · cases h
          · cases h
            exact ⟨_, rfl⟩
  | settle run token =>
      obtain ⟨n, rest, count, rfl, -, -, -, hvalid⟩ := pollSettle_waiting h
      exact ⟨⟨n, rest, count, rfl⟩, fun ht => hvalid _ ht, nofun⟩
  | acquireSlot =>
      refine ⟨?_, nofun, nofun⟩
      change (m.pollSlot me wait).turn = .waiting w at h
      unfold pollSlot at h
      cases wait <;>
        · dsimp only at h
          split at h
          · cases h
          · cases h
            rfl
  | awaitRun submission =>
      refine ⟨?_, nofun, nofun⟩
      change (m.pollRun me submission).turn = .waiting w at h
      unfold pollRun at h
      split at h
      · cases h
      · cases h
        rfl
  | _ => exact hpolls.waits.elim

end Machine
end FlowEngine
