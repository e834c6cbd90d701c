import FlowEngine.Proofs.Machine.Permits
import FlowEngine.Proofs.Run.Branches
import FlowEngine.Proofs.Session.Course
import FlowEngine.Proofs.Session.Polled
import Mathlib.Data.List.Nodup

/-!
# Requests in progress

The requests of a run that are in progress hold its permits, one each, and nobody else does.
So there are never more of them than the run has permits, and when the run is closed all of its
permits are free.
-/
namespace FlowEngine

def TaskState.standing {α : Type} (run : Nat) : TaskState α → Option Standing
  | active (.perform (.request r _ _) _) w => if r = run then w.standing else none
  | _ => none

@[simp] theorem TaskState.standing_fresh {α : Type} (run : Nat) (p : Program α) :
    (active p .fresh).standing run = none := by
  unfold standing
  split
  · rename_i h
    cases h
    exact ite_self none
  · rfl

theorem TaskState.standing_request {α : Type} (run : Nat) (token : Token) (request : Request)
    (next : Except Interruption Outcome → Program α) (w : Wait) :
    (active (.perform (.request run token request) next) w).standing run = w.standing :=
  if_pos rfl

theorem TaskState.request_of_standing {α : Type} {run : Nat} {state : TaskState α} {x : Standing}
    (h : state.standing run = some x) : ∃ token request next w,
      state = .active (.perform (.request run token request) next) w ∧ w.standing = some x := by
  unfold standing at h
  split at h
  · split at h
    · rename_i hr
      subst hr
      exact ⟨_, _, _, _, rfl, h⟩
    · cases h
  · cases h

namespace System

variable {config : Config} {s s' : System RunResult} {log : List Occurrence} {run : Nat} {t : TaskId}

def standings (s : System RunResult) : Standings :=
  fun run t => (s.task? t).bind (TaskState.standing run)

theorem standings_of_active {state : TaskState t.Result} (h : s.task? t = some state) :
    s.standings run t = state.standing run := by
  rw [standings, h]
  rfl

theorem Polls.standings {e : Effect} {next : e.Answer → Program t.Result} {w : Wait}
    (h : s.Polls t e next w s') :
    s'.standings = s.standings.after t e (s.machine.poll t w e).turn.standing := by
  have hother (r : Nat) (u : TaskId) (hu : u ≠ t) : s'.standings r u = s.standings r u := by
    simp only [System.standings]
    rcases h.others hu with hsame | ⟨hnone, -, hfresh⟩
    · rw [hsame]
    · rw [hnone]
      cases hs : s'.task? u with
      | none => rfl
      | some state =>
          obtain ⟨p, rfl⟩ := hfresh state hs
          exact TaskState.standing_fresh r p
  have hbefore (r : Nat) : s.standings r t = _ := standings_of_active h.active
  have hafter (r : Nat) : s'.standings r t = _ := standings_of_active h.result
  generalize (s.machine.poll t w e).turn = turn at hafter ⊢
  funext r u
  by_cases hu : u = t
  · subst hu
    rw [hafter]
    by_cases hr : ∃ token request, e = .request r token request
    · obtain ⟨token, request, rfl⟩ := hr
      rw [Standings.after, Standings.set_self]
      cases turn with
      | answered a => exact TaskState.standing_fresh r (next a)
      | waiting w' => exact TaskState.standing_request r token request next w'
    · have hnone (w : Wait) : (TaskState.active (.perform e next) w).standing r = none := by
        refine Option.eq_none_iff_forall_ne_some.mpr fun x hx => hr ?_
        obtain ⟨token, request, _, _, heq, -⟩ := TaskState.request_of_standing hx
        cases heq
        exact ⟨token, request, rfl⟩
      have hleft : (turn.state next).standing r = none := by
        cases turn with
        | answered a => exact TaskState.standing_fresh r (next a)
        | waiting w' => exact hnone w'
      have hright : s.standings.after u e turn.standing r u = s.standings r u := by
        cases e with
        | request run token request =>
            have hne : r ≠ run := fun heq => hr ⟨token, request, by rw [heq]⟩
            simp only [Standings.after, Standings.set, Function.update_of_ne hne]
        | _ => rfl
      rw [hleft, hright, hbefore, hnone]
  · rw [hother r u hu]
    cases e with
    | request run token request =>
        by_cases hr : r = run
        · subst hr
          simp only [Standings.after, Standings.set, Function.update_self, Function.update_of_ne hu]
        · simp only [Standings.after, Standings.set, Function.update_of_ne hr]
    | _ => rfl

/-- Without a poll, the tasks stand as before. -/
theorem Unpolled.standings (h : s.Unpolled log s') : s'.standings = s.standings := by
  funext run u
  simp only [System.standings]
  rcases h.tasks u with hsame | ⟨hidle, hfresh⟩
  · rw [hsame]
  · have hbefore : (s.task? u).bind (TaskState.standing run) = none := by
      refine Option.eq_none_iff_forall_ne_some.mpr fun x hx => ?_
      obtain ⟨state, hstate, hx⟩ := Option.bind_eq_some_iff.mp hx
      obtain ⟨token, request, next, w, rfl, -⟩ := TaskState.request_of_standing hx
      exact hidle _ _ _ hstate
    have hafter : (s'.task? u).bind (TaskState.standing run) = none := by
      refine Option.eq_none_iff_forall_ne_some.mpr fun x hx => ?_
      obtain ⟨state, hstate, hx⟩ := Option.bind_eq_some_iff.mp hx
      obtain ⟨token, request, next, w, rfl, hw⟩ := TaskState.request_of_standing hx
      rw [hfresh _ _ hstate] at hw
      cases hw
    rw [hbefore, hafter]

end System

/-! ## The books of a session -/

theorem Wait.standing_eq_queued {w : Wait} (h : w.standing = some .queued) : w = .permit := by
  cases w <;> first | rfl | cases h

namespace Machine

variable {m m' : Machine} {stands : Standings}

theorem maxConcurrency_of_shared (h : m'.shared = m.shared) :
    m'.maxConcurrency = m.maxConcurrency := (congrArg Machine.maxConcurrency h :)

theorem gate?_advanceClock? (h : m.advanceClock? = some m') : m'.gate? = m.gate? := by
  have hfold (fired : List Timer) (m' : Machine) :
      (fired.foldl (fun m t => m.ring t.alarm) m').gate? = m'.gate? := by
    induction fired generalizing m' with
    | nil => rfl
    | cons t rest ih =>
        refine (ih _).trans ?_
        change (m'.ring t.alarm).gate? = m'.gate?
        cases t.alarm with
        | wake u => exact gate?_of_shared (m'.shared_wake u)
        | cancel token => exact m'.gate?_cancel token
  unfold advanceClock? at h
  cases hdue : m.nextDue? with
  | none =>
      rw [hdue] at h
      cases h
  | some due =>
      rw [hdue] at h
      cases h
      exact hfold _ _

/-- What passes on without a poll keeps the gates of runs. -/
theorem Passes.gate? (h : m.Passes m') : m'.gate? = m.gate? ∧ m'.maxConcurrency = m.maxConcurrency := by
  cases h with
  | same shared => exact ⟨gate?_of_shared shared, maxConcurrency_of_shared shared⟩
  | counted shared =>
      have hgate := gate?_of_shared shared
      have hmax := maxConcurrency_of_shared shared
      exact ⟨hgate, hmax⟩
  | cancelled token => exact ⟨m.gate?_cancel token, (m.rouses_cancel [] token).maxConcurrency⟩
  | scheduled span token => exact ⟨rfl, rfl⟩
  | clock h => exact ⟨gate?_advanceClock? h, (m.rouses_advanceClock? [] h).maxConcurrency⟩

end Machine

namespace System

variable {config : Config} {s s' : System RunResult} {log : List Occurrence} {run : Nat} {t : TaskId}

def Admits (s : System RunResult) : Prop := s.machine.Admits s.standings

theorem Polls.standing_request {token : Token} {request : Request}
    {next : Except Interruption Outcome → Program t.Result} {w : Wait}
    (h : s.Polls t (.request run token request) next w s') : s.standings run t = w.standing := by
  rw [standings_of_active h.active]
  exact TaskState.standing_request run token request next w

/-- A task that was handed a permit does not fall asleep. -/
theorem Polls.granted {e : Effect} {next : e.Answer → Program t.Result} {w : Wait}
    (h : s.Polls t e next w s') (hs : s.Admits) (hafter : (s.machine.poll t w e).machine.Admits
      s'.standings) {g : Gate TaskId} (hg : (s.machine.poll t w e).machine.gate? run = some g)
    {u : TaskId} (hu : u ∈ g.granted) : s'.machine.Awake u := by
  refine h.awake (hafter.granted hg hu) ?_
  by_cases hut : u = t
  · subst hut
    refine Or.inr ?_
    have hqueued : s'.standings run u = some .queued :=
      (hafter.books hg).queued.mp (List.mem_append_right _ hu)
    rw [standings_of_active h.result] at hqueued
    obtain ⟨token, request, next', w', hstate, hw'⟩ := TaskState.request_of_standing hqueued
    cases hturn : (s.machine.poll u w e).turn with
    | answered a => rfl
    | waiting w'' =>
        rw [hturn] at hstate
        cases hstate
        obtain rfl := Wait.standing_eq_queued hw'
        exact absurd hu (hs.not_granted h.standing_request hturn hg)
  · exact Or.inl hut

theorem Moves.admits (h : s.Moves config log s') (hs : s.Admits) : s'.Admits := by
  rcases h.polled_or_unpolled with ⟨t, e, next, w, polls, -⟩ | unpolled
  · have hpolled : (s.machine.poll t w e).machine.Admits s'.standings := by
      rw [polls.standings]
      refine Machine.Admits.poll hs ?_
      rintro run token request rfl
      exact polls.standing_request
    have hgate := Machine.gate?_of_shared polls.shared
    refine ⟨fun hg => hpolled.books (hgate ▸ hg), fun hg => ?_,
      fun hg hu => polls.granted hs hpolled (hgate ▸ hg) hu, fun ht => hgate ▸ hpolled.opened ht⟩
    exact (hpolled.size (hgate ▸ hg)).trans (Machine.maxConcurrency_of_shared polls.shared).symm
  · obtain ⟨hgate, hmax⟩ := unpolled.machine.gate?
    rw [Admits, unpolled.standings]
    refine ⟨fun hg => hs.books (hgate ▸ hg), fun hg => (hs.size (hgate ▸ hg)).trans hmax.symm,
      fun {run g u} hg hu => ?_, fun ht => hgate ▸ hs.opened ht⟩
    replace hg : s.machine.gate? run = some g := hgate ▸ hg
    have hqueued := (hs.books hg).queued.mp (List.mem_append_right _ hu)
    obtain ⟨state, hstate, hx⟩ := Option.bind_eq_some_iff.mp hqueued
    obtain ⟨token, request, next, w, rfl, -⟩ := TaskState.request_of_standing hx
    exact unpolled.awake hstate (hs.granted hg hu)

end System

theorem Session.admits {config : Config} {log : List Occurrence} {s : System RunResult}
    (h : Session config log s) : s.Admits := by
  obtain ⟨s₀, ⟨world, numbered⟩, hreaches⟩ := h
  induction hreaches with
  | refl =>
      have hno {run : Nat} {g : Gate TaskId} : (Machine.new config world).gate? run ≠ some g := by
        simp [Machine.gate?, Machine.new]
      refine ⟨fun hg => absurd hg hno, fun hg => absurd hg hno, fun hg => absurd hg hno,
        fun {run t x} ht => ?_⟩
      obtain ⟨state, hstate, hx⟩ := Option.bind_eq_some_iff.mp ht
      cases t with
      | main =>
          cases hstate
          cases hx
      | _ => cases hstate
  | move before move ih => exact move.admits ih

/-- The number of permits of every run is that of the configuration. -/
theorem Session.maxConcurrency {config : Config} {log : List Occurrence} {s : System RunResult}
    (h : Session config log s) : s.machine.maxConcurrency = config.maxConcurrency.toNat := by
  obtain ⟨s₀, ⟨world, numbered⟩, hreaches⟩ := h
  induction hreaches with
  | refl => rfl
  | move before move ih =>
      rw [← ih]
      rcases move.polled_or_unpolled with ⟨t, e, next, w, polls, -⟩ | unpolled
      · rw [Machine.maxConcurrency_of_shared polls.shared,
          (Machine.rouses_poll _ t w e).maxConcurrency]
      · exact unpolled.machine.gate?.2

/-! ## Requests in progress -/

namespace System

variable (s : System RunResult)

def tasks : List TaskId :=
  .main :: (List.range s.machine.branches.size).map .branch ++
    (List.range s.machine.submissions.size).map .submission

def inProgress (run : Nat) : List TaskId :=
  s.tasks.filter fun t => s.standings run t = some .calling

theorem mem_tasks {t : TaskId} (h : (s.task? t).isSome) : t ∈ s.tasks := by
  cases t with
  | main => simp [tasks]
  | branch number =>
      have hlt : number < s.machine.branches.size := by
        obtain ⟨state, hstate⟩ := Option.isSome_iff_exists.mp h
        obtain ⟨task, htask, -⟩ := Option.map_eq_some_iff.mp hstate
        exact (Array.getElem?_eq_some_iff.mp htask).1
      simp [tasks, hlt]
  | submission number =>
      have hlt : number < s.machine.submissions.size := by
        obtain ⟨state, hstate⟩ := Option.isSome_iff_exists.mp h
        obtain ⟨task, htask, -⟩ := Option.map_eq_some_iff.mp hstate
        exact (Array.getElem?_eq_some_iff.mp htask).1
      simp [tasks, hlt]

theorem nodup_tasks : s.tasks.Nodup := by
  refine List.nodup_append.mpr ⟨List.nodup_cons.mpr ⟨by simp, ?_⟩, ?_, ?_⟩
  · exact List.Nodup.map (fun a b h => TaskId.branch.inj h) List.nodup_range
  · exact List.Nodup.map (fun a b h => TaskId.submission.inj h) List.nodup_range
  · simp

theorem mem_inProgress {run : Nat} {t : TaskId} :
    t ∈ s.inProgress run ↔ s.standings run t = some .calling := by
  refine ⟨fun h => by simpa using (List.mem_filter.mp h).2, fun h => ?_⟩
  refine List.mem_filter.mpr ⟨s.mem_tasks ?_, by simpa using h⟩
  obtain ⟨state, hstate, -⟩ := Option.bind_eq_some_iff.mp h
  exact Option.isSome_of_eq_some hstate

theorem nodup_inProgress (run : Nat) : (s.inProgress run).Nodup := s.nodup_tasks.filter _

/-- Every permit of a run is free, on its way to a task that waits for one, or held by a request
that is in progress. -/
theorem Admits.sum {s : System RunResult} (h : s.Admits) {run : Nat} {r : ActiveRun}
    (hr : s.machine.runs[run]? = some r) :
    r.gate.free + r.gate.granted.length + (s.inProgress run).length = s.machine.maxConcurrency := by
  have hg := Machine.gate?_eq_some hr
  rw [← h.size hg]
  exact (h.books hg).held_eq (s.nodup_inProgress run) fun t => s.mem_inProgress

/-- A request starts while fewer requests are in progress than there are permits. -/
theorem Moves.lt_of_start {config : Config} {s s' : System RunResult} {t : TaskId} {run : Nat}
    {token : Token} {request : Request} {answer : Option (Except Interruption Outcome)}
    {m m' : Machine} (h : s.Moves config [.poll ⟨t, .request run token request, answer, m, m'⟩] s')
    (hs : s.Admits) (hbefore : t ∉ s.inProgress run)
    (hstart : (∃ outcome, answer = some (.ok outcome)) ∨ t ∈ s'.inProgress run) :
    (s.inProgress run).length < s.machine.maxConcurrency := by
  obtain ⟨-, next, w, polls, ha⟩ := h.polled
  have hstanding := polls.standing_request
  rw [mem_inProgress, hstanding] at hbefore
  rw [mem_inProgress, polls.standings, Standings.after, Standings.set_self] at hstart
  have hturn : (∃ outcome, (s.machine.pollRequest t run token request w).turn =
      .answered (.ok outcome)) ∨
      (s.machine.pollRequest t run token request w).turn.standing = some .calling := by
    refine hstart.imp_left ?_
    rintro ⟨outcome, hanswer⟩
    refine ⟨outcome, ?_⟩
    exact Turn.eq_answered (ha.trans hanswer)
  obtain ⟨g, hg, hpermit⟩ := Machine.permit_of_start hbefore hturn
  obtain ⟨r, hr, rfl⟩ := Option.map_eq_some_iff.mp hg
  have hsum := hs.sum hr
  rcases hpermit with hfree | hgranted
  · omega
  · have hpos := List.length_pos_of_mem hgranted
    omega

/-- What is true of the permits of a run at a moment of a session. -/
structure PermitsKept (config : Config) (log : List Occurrence) (s : System RunResult) (run : Nat)
    (r : ActiveRun) : Prop where
  /-- No more requests of the run are in progress than the configuration allows. -/
  bound : (s.inProgress run).length ≤ config.maxConcurrency.toNat
  /-- A permit that is neither free nor on its way to a task is held by a request in progress. -/
  held : r.gate.free + r.gate.granted.length + (s.inProgress run).length =
    config.maxConcurrency.toNat
  /-- A task that a permit is on its way to waits for one, and it is awake. -/
  handed {t : TaskId} : t ∈ r.gate.granted →
    s.standings run t = some .queued ∧ s.machine.Awake t
  /-- A request starts, or is answered at once, only while fewer requests are in progress. -/
  starts {t : TaskId} {token : Token} {request : Request}
    {answer : Option (Except Interruption Outcome)} {m m' : Machine} {s' : System RunResult} :
    s.Moves config [.poll ⟨t, .request run token request, answer, m, m'⟩] s' →
    t ∉ s.inProgress run → (∃ outcome, answer = some (.ok outcome)) ∨ t ∈ s'.inProgress run →
    (s.inProgress run).length < config.maxConcurrency.toNat
  closed : run ∈ closings log → r.gate.free = config.maxConcurrency.toNat

end System

theorem Session.standings_of_closed {config : Config} {log : List Occurrence} {s : System RunResult}
    (h : Session config log s) {run : Nat} (hclosed : run ∈ closings log) (t : TaskId) :
    s.standings run t = none := by
  refine Option.eq_none_iff_forall_ne_some.mpr fun x hx => ?_
  obtain ⟨state, hstate, hx⟩ := Option.bind_eq_some_iff.mp hx
  obtain ⟨token, request, next, w, rfl, -⟩ := TaskState.request_of_standing hx
  obtain ⟨place, hhoused⟩ := Residence.housed_of_session h
  rw [← System.task?_outline] at hstate
  have hconcerns : (Effect.request run token request).run? = some run := rfl
  obtain ⟨home, hhome, hrun⟩ :=
    Residence.home_of_allows (hhoused.obedient.active hstate).1 hconcerns
  exact (hhoused.closed run hclosed).2 ⟨t, _, w, home, hstate, hhome, hrun⟩

/-- Never more requests of a run are in progress than it has permits, nobody but a request in
progress holds a permit, and all permits are free once the run was closed. -/
theorem permits_kept {config : Config} {log : List Occurrence} {s : System RunResult} {run : Nat}
    {r : ActiveRun} (h : Session config log s) (hr : s.machine.runs[run]? = some r) :
    s.PermitsKept config log run r := by
  have hadmits := h.admits
  have hsum := hadmits.sum hr
  rw [h.maxConcurrency] at hsum
  have hbooks := hadmits.books (Machine.gate?_eq_some hr)
  refine ⟨by omega, hsum, fun {t} ht => ?_, fun move hbefore hstart => ?_, fun hclosed => ?_⟩
  · exact ⟨hbooks.queued.mp (List.mem_append_right _ ht),
      hadmits.granted (Machine.gate?_eq_some hr) ht⟩
  · rw [← h.maxConcurrency]
    exact move.lt_of_start hadmits hbefore hstart
  · have hnone := h.standings_of_closed hclosed
    have hgranted : r.gate.granted = [] := by
      refine List.eq_nil_iff_forall_not_mem.mpr fun t ht => ?_
      have hqueued := hbooks.queued.mp (List.mem_append_right _ ht)
      rw [hnone] at hqueued
      cases hqueued
    have hidle : s.inProgress run = [] := by
      refine List.eq_nil_iff_forall_not_mem.mpr fun t ht => ?_
      rw [s.mem_inProgress, hnone] at ht
      cases ht
    rw [hgranted, hidle] at hsum
    exact hsum

def Solo.narrow : Solo where
  config := { maxConcurrency := 1 }
  world := quietWorld [("slow", .delayed 20 .echo)]
  flow :=
    { name := "narrow"
      description := none
      steps := [.mk "fork" (.parallel
        [([calls "ship" "slow"], none), ([calls "pay" "slow"], none)] .waitAll) none none]
      onError := none }

/-- One of two calls waits for the other one, and in the end the only permit is free. -/
theorem permits_kept_narrow : ∃ log s r log' s' r',
    Session Solo.narrow.config log s ∧ s.machine.runs[0]? = some r ∧
    s.inProgress 0 = [.branch 0] ∧ s.standings 0 (.branch 1) = some .queued ∧
    s.PermitsKept Solo.narrow.config log 0 r ∧
    Session Solo.narrow.config log' s' ∧ s'.machine.runs[0]? = some r' ∧ 0 ∈ closings log' ∧
    s'.PermitsKept Solo.narrow.config log' 0 r' ∧ r'.gate.free = 1 := by
  let mid := Solo.narrow.course 16
  let final := Solo.narrow.course 60
  have hmid : Session Solo.narrow.config mid.1 mid.2 := Solo.narrow.session 16 rfl
  have hfinal : Session Solo.narrow.config final.1 final.2 := Solo.narrow.session 60 rfl
  have hr : mid.2.machine.runs[0]? = some _ := Array.getElem?_eq_getElem (by decide +kernel)
  have hr' : final.2.machine.runs[0]? = some _ := Array.getElem?_eq_getElem (by decide +kernel)
  have hkept := permits_kept hmid hr
  have hkept' := permits_kept hfinal hr'
  have hclosed : 0 ∈ closings final.1 := by decide +kernel
  exact ⟨_, _, _, _, _, _, hmid, hr, by decide +kernel, by decide +kernel, hkept, hfinal, hr', hclosed,
    hkept', hkept'.closed hclosed⟩

end FlowEngine
