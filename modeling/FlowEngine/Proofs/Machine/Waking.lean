import FlowEngine.Proofs.Machine.Numbers

/-!
# Who goes on

A task is awake while it is running or in line to run. What the running task does takes
nobody else out of line, a branch that ends wakes the task that it reports to, and
branches report to the same task until that task itself says otherwise.
-/
namespace FlowEngine

namespace Machine

def Awake (m : Machine) (t : TaskId) : Prop :=
  m.running = some t ∨ t ∈ m.ready ∨ t = .main ∧ m.mainReady = true

def waiter? (m : Machine) (number : Nat) : Option TaskId := m.branches[number]?.bind Task.waiter

theorem lt_of_waiter? {m : Machine} {n : Nat} {t : TaskId} (h : m.waiter? n = some t) :
    n < m.branches.size := by
  obtain ⟨task, htask, -⟩ := Option.bind_eq_some_iff.mp h
  exact (Array.getElem?_eq_some_iff.mp htask).1

/-- An operation of the running task: nobody falls asleep, and the branches that were there report
to the same tasks as before, except some that the operation is about. -/
structure Rouses (about : List Nat) (m m' : Machine) : Prop where
  running : m'.running = m.running
  ready : m.ready ⊆ m'.ready
  mainReady : m.mainReady = true → m'.mainReady = true
  size : m.branches.size ≤ m'.branches.size
  maxConcurrency : m'.maxConcurrency = m.maxConcurrency
  waiter {n : Nat} : n < m.branches.size → n ∉ about → m'.waiter? n = m.waiter? n

namespace Rouses

variable {about more : List Nat} {m m' m'' : Machine}

theorem of_eq (running : m'.running = m.running) (ready : m'.ready = m.ready)
    (mainReady : m'.mainReady = m.mainReady) (branches : m'.branches = m.branches)
    (maxConcurrency : m'.maxConcurrency = m.maxConcurrency) : Rouses about m m' where
  running := running
  ready := ready ▸ List.Subset.refl _
  mainReady h := mainReady.trans h
  size := Nat.le_of_eq (congrArg Array.size branches.symm)
  maxConcurrency
  waiter _ _ := by rw [waiter?, branches, waiter?]

theorem refl (about : List Nat) (m : Machine) : Rouses about m m := of_eq rfl rfl rfl rfl rfl

theorem trans (h : Rouses about m m') (h' : Rouses about m' m'') : Rouses about m m'' where
  running := h'.running.trans h.running
  ready := List.Subset.trans h.ready h'.ready
  mainReady hm := h'.mainReady (h.mainReady hm)
  size := Nat.le_trans h.size h'.size
  maxConcurrency := h'.maxConcurrency.trans h.maxConcurrency
  waiter hn habout := (h'.waiter (Nat.lt_of_lt_of_le hn h.size) habout).trans (h.waiter hn habout)

theorem mono (h : Rouses about m m') (hsub : about ⊆ more) : Rouses more m m' :=
  ⟨h.running, h.ready, h.mainReady, h.size, h.maxConcurrency, fun hn hmore => h.waiter hn fun hm => hmore (hsub hm)⟩

theorem awake (h : Rouses about m m') {t : TaskId} (ht : m.Awake t) : m'.Awake t := by
  rcases ht with hrunning | hready | ⟨rfl, hmain⟩
  · exact Or.inl (h.running.trans hrunning)
  · exact Or.inr (Or.inl (h.ready hready))
  · exact Or.inr (Or.inr ⟨rfl, h.mainReady hmain⟩)

end Rouses

variable (m : Machine)

/-! ## Operations -/

theorem rouses_wake (about : List Nat) (t : TaskId) : Rouses about m (m.wake t) := by
  unfold wake
  split
  · exact ⟨rfl, List.Subset.refl _, fun _ => rfl, Nat.le_refl _, rfl, fun _ _ => rfl⟩
  · split
    · exact .refl about m
    · exact ⟨rfl, List.subset_append_left _ _, id, Nat.le_refl _, rfl, fun _ _ => rfl⟩

theorem awake_wake (t : TaskId) : (m.wake t).Awake t := by
  unfold wake
  split
  · exact Or.inr (Or.inr ⟨rfl, rfl⟩)
  · split
    · rename_i hmem
      exact Or.inr (Or.inl hmem)
    · exact Or.inr (Or.inl (List.mem_append_right _ (List.mem_singleton_self t)))

theorem rouses_wakeIfSome (about : List Nat) (t : Option TaskId) :
    Rouses about m (m.wakeIfSome t) := by
  cases t with
  | none => exact .refl about m
  | some t => exact m.rouses_wake about t

theorem rouses_spawn (about : List Nat) (programs : List (Program (Except Failure Json))) :
    Rouses about m (m.spawn programs).2 := by
  induction programs generalizing m with
  | nil => exact .refl about m
  | cons p rest ih =>
      refine Rouses.trans ?_ (ih _)
      refine Rouses.trans ?_ (rouses_wake _ about (.branch m.branches.size))
      refine ⟨rfl, List.Subset.refl _, id, by simp, rfl, fun hn _ => ?_⟩
      simp only [waiter?, Array.getElem?_push, if_neg (Nat.ne_of_lt hn)]

theorem awake_spawn {programs : List (Program (Except Failure Json))} {n : Nat}
    (hn : m.branches.size ≤ n) (hn' : n < m.branches.size + programs.length) :
    (m.spawn programs).2.Awake (.branch n) := by
  induction programs generalizing m with
  | nil => exact absurd hn' (Nat.not_lt_of_le hn)
  | cons p rest ih =>
      have hsize : ({ m with branches := m.branches.push (.new p) }.wake
          (.branch m.branches.size)).branches.size = m.branches.size + 1 := by
        have hbranches := branches_wakeIfSome { m with branches := m.branches.push (.new p) }
          (some (.branch m.branches.size))
        exact (congrArg Array.size hbranches).trans (Array.size_push _)
      rcases Nat.eq_or_lt_of_le hn with rfl | hlt
      · exact (rouses_spawn _ [] rest).awake (awake_wake _ _)
      · refine ih _ (hsize ▸ hlt) ?_
        rw [hsize]
        rw [List.length_cons] at hn'
        omega

theorem waiter?_setWaiter (waiter : Option TaskId) (number n : Nat) :
    (m.setWaiter waiter number).waiter? n =
      if number = n ∧ n < m.branches.size then waiter else m.waiter? n := by
  simp only [waiter?, setWaiter, Array.getElem?_modify]
  by_cases hn : number = n
  · subst hn
    by_cases hlt : number < m.branches.size
    · simp [hlt]
    · simp [hlt]
  · simp [hn]

theorem rouses_setWaiter {about : List Nat} {number : Nat} (h : number ∈ about)
    (waiter : Option TaskId) : Rouses about m (m.setWaiter waiter number) where
  running := rfl
  ready := List.Subset.refl _
  mainReady := id
  size := by simp [setWaiter]
  maxConcurrency := rfl
  waiter hn habout := by
    rw [waiter?_setWaiter, if_neg]
    rintro ⟨rfl, -⟩
    exact habout h

theorem rouses_setWaiters {about : List Nat} {numbers : List Nat} (h : numbers ⊆ about)
    (waiter : Option TaskId) : Rouses about m (m.setWaiters waiter numbers) := by
  induction numbers generalizing m with
  | nil => exact .refl about m
  | cons number rest ih =>
      obtain ⟨hnumber, hrest⟩ := List.cons_subset.mp h
      exact (m.rouses_setWaiter hnumber waiter).trans (ih _ hrest)

theorem waiter?_setWaiters {waiter : Option TaskId} {numbers : List Nat} {n : Nat}
    (h : n ∈ numbers) (hn : n < m.branches.size) : (m.setWaiters waiter numbers).waiter? n = waiter := by
  induction numbers generalizing m with
  | nil => cases h
  | cons number rest ih =>
      have hsize : n < (m.setWaiter waiter number).branches.size := by
        simpa [setWaiter] using hn
      change ((m.setWaiter waiter number).setWaiters waiter rest).waiter? n = waiter
      by_cases hrest : n ∈ rest
      · exact ih _ hrest hsize
      · obtain rfl : n = number := (List.mem_cons.mp h).resolve_right hrest
        rw [((m.setWaiter waiter n).rouses_setWaiters (List.Subset.refl rest) waiter).waiter hsize
          hrest, waiter?_setWaiter, if_pos ⟨rfl, hn⟩]

theorem rouses_observe (about : List Nat) (token : Token) (t : TaskId) :
    Rouses about m (m.observe token t) := by
  unfold observe
  split
  · exact .refl about m
  · exact .of_eq rfl rfl rfl rfl rfl

theorem rouses_foldl {α : Type} {about : List Nat} {f : Machine → α → Machine}
    (hf : ∀ m a, Rouses about m (f m a)) (l : List α) : Rouses about m (l.foldl f m) := by
  induction l generalizing m with
  | nil => exact .refl about m
  | cons a rest ih => exact (hf m a).trans (ih _)

theorem rouses_cancel (about : List Nat) (token : Token) : Rouses about m (m.cancel token) := by
  unfold cancel
  refine Rouses.trans ?_ (rouses_foldl _ (fun m (p : Token × TaskId) => m.rouses_wake about p.2) _)
  exact .of_eq rfl rfl rfl rfl rfl

theorem rouses_ring (about : List Nat) (alarm : Alarm) : Rouses about m (m.ring alarm) := by
  cases alarm with
  | wake t => exact m.rouses_wake about t
  | cancel token => exact m.rouses_cancel about token

theorem rouses_advanceClock? {m' : Machine} (about : List Nat) (h : m.advanceClock? = some m') :
    Rouses about m m' := by
  unfold advanceClock? at h
  cases hd : m.nextDue? with
  | none =>
      rw [hd] at h
      cases h
  | some due =>
      rw [hd] at h
      cases h
      refine Rouses.trans ?_ (rouses_foldl _ (fun m (t : Timer) => m.rouses_ring about t.alarm) _)
      exact .of_eq rfl rfl rfl rfl rfl

theorem rouses_mark (about : List Nat) (run : Nat) (step : String) (status : Option StepStatus) :
    Rouses about m (m.mark run step status).2 := by
  unfold mark
  split
  · exact .of_eq rfl rfl rfl rfl rfl
  · exact .refl about m
  · exact .refl about m

theorem errand_rouses (about : List Nat) (me : TaskId) : Errand (Rouses about) me := by
  refine .of_wake ?_ (fun m => m.rouses_wake about) fun _ _ _ => .of_eq rfl rfl rfl rfl rfl
  exact {
    refl := .refl about
    trans := .trans
    modifyRun _ _ _ _ _ := .of_eq rfl rfl rfl rfl rfl
    modifyWorld _ _ _ := .of_eq rfl rfl rfl rfl rfl
    forget _ := .of_eq rfl rfl rfl rfl rfl
    observe m token := m.rouses_observe about token me
    schedule _ _ := .of_eq rfl rfl rfl rfl rfl
    stopTimer _ _ := .of_eq rfl rfl rfl rfl rfl }

/-! ## Polls -/

def concerns (m : Machine) (answered : Bool) : Wait → Effect → List Nat
  | .branches tasks, .join _ _ _ _ => if answered then tasks else []
  | wait, .settle run _ => wait.pending ++ m.runs[run]?.elim [] ActiveRun.stragglers
  | _, _ => []

theorem concerns_cases {m : Machine} {answered : Bool} {w : Wait} {e : Effect} {n : Nat}
    (h : n ∈ m.concerns answered w e) :
    (∃ tasks run policy group bs, w = .branches tasks ∧ e = .join run policy group bs ∧
      answered = true ∧ n ∈ tasks) ∨
    ∃ run token, e = .settle run token ∧
      (n ∈ w.pending ∨ n ∈ m.runs[run]?.elim [] ActiveRun.stragglers) := by
  unfold concerns at h
  split at h
  · cases answered with
    | true => exact Or.inl ⟨_, _, _, _, _, rfl, rfl, rfl, h⟩
    | false => cases h
  · exact Or.inr ⟨_, _, rfl, List.mem_append.mp h⟩
  · cases h

/-- The branches that a join starts report to its task, and they are awake. -/
theorem waiter?_pollJoin {me : TaskId} {run : Nat} {policy : JoinPolicy} {group : Token}
    {branches : List Branch} {wait : Wait} (hw : ∀ tasks, wait ≠ .branches tasks)
    (hwaits : (m.pollJoin me run policy group branches wait).turn.answer? = none) {n : Nat}
    (hn : m.branches.size ≤ n) (hn' : n < m.branches.size + branches.length) :
    (m.pollJoin me run policy group branches wait).machine.waiter? n = some me ∧
      (m.pollJoin me run policy group branches wait).machine.Awake (.branch n) := by
  obtain ⟨hnumbers, hspawned⟩ := m.spawn_eq (.ended default 0) (branches.map Branch.program)
  have hmem : n ∈ (m.spawn (branches.map Branch.program)).1 := by
    rw [hnumbers, List.length_map, List.mem_range'_1]
    exact ⟨hn, hn'⟩
  have hsize := congrArg (fun o => o.branches.length) hspawned
  simp only [outline, Outline.spawn, List.length_append, List.length_map, Array.length_toList] at hsize
  have hawake : (m.spawn (branches.map Branch.program)).2.Awake (.branch n) :=
    m.awake_spawn hn (by simpa using hn')
  simp only [pollJoin] at hwaits ⊢
  split at hwaits
  · cases hwaits
  · rename_i hempty
    rw [if_neg hempty]
    exact ⟨waiter?_setWaiters _ hmem (hsize ▸ hn'),
      (rouses_setWaiters _ (List.Subset.refl _) (some me)).awake hawake⟩

theorem rouses_pollJoin (me : TaskId) (run : Nat) (policy : JoinPolicy) (group : Token)
    (branches : List Branch) (wait : Wait) :
    Rouses (m.concerns (m.pollJoin me run policy group branches wait).turn.answer?.isSome wait
      (.join run policy group branches)) m (m.pollJoin me run policy group branches wait).machine := by
  have hgather (about tasks : List Nat) : Rouses about m (m.gather tasks).machine := by
    unfold gather
    split <;> exact .refl about m
  have hfork (about : List Nat) :
      Rouses about m ((m.spawn (branches.map Branch.program)).2.setWaiters (some me)
        (m.spawn (branches.map Branch.program)).1) := by
    have hspawn := m.rouses_spawn about (branches.map Branch.program)
    have hwaiters := rouses_setWaiters (m.spawn (branches.map Branch.program)).2
      (List.Subset.refl (m.spawn (branches.map Branch.program)).1) (some me)
    refine ⟨hwaiters.running.trans hspawn.running, List.Subset.trans hspawn.ready hwaiters.ready,
      fun h => hwaiters.mainReady (hspawn.mainReady h), Nat.le_trans hspawn.size hwaiters.size,
      hwaiters.maxConcurrency.trans hspawn.maxConcurrency, fun hn habout => ?_⟩
    refine (hwaiters.waiter (Nat.lt_of_lt_of_le hn hspawn.size) fun hm => ?_).trans
      (hspawn.waiter hn habout)
    rw [(m.spawn_eq (.ended default 0) _).1, List.mem_range'_1] at hm
    omega
  unfold pollJoin
  cases wait with
  | branches tasks =>
      dsimp only [concerns]
      unfold checkJoin
      split
      · rename_i order _
        have hleft := rouses_setWaiters (m.cancel group)
          (List.filter_subset_self tasks (p := m.endedAfter order)) none
        refine ((m.rouses_cancel tasks group).trans hleft).trans ?_
        exact .of_eq rfl rfl rfl rfl rfl
      · exact hgather _ tasks
  | _ =>
      dsimp only
      split
      · exact m.rouses_spawn _ _
      · exact hfork _

theorem rouses_settleList (me : TaskId) (run : Nat) (token : Option Token) {about tasks : List Nat}
    (h : tasks ⊆ about) (count : Nat) :
    Rouses about m (settleList me run token tasks count m).machine := by
  induction tasks generalizing m count with
  | nil => exact .refl about m
  | cons n rest ih =>
      obtain ⟨hn, hrest⟩ := List.cons_subset.mp h
      have hforget : Rouses about m (m.forget me) := .of_eq rfl rfl rfl rfl rfl
      unfold settleList
      split
      · exact (hforget.trans (rouses_setWaiter _ hn none)).trans (.of_eq rfl rfl rfl rfl rfl)
      · split
        · exact hforget.trans (ih _ hrest (count + 1))
        · have hwaiter := m.rouses_setWaiter hn (some me)
          cases token with
          | none => exact hwaiter
          | some token => exact hwaiter.trans (rouses_observe _ about token me)

theorem runs_settleList {me : TaskId} {run : Nat} {token : Option Token} {tasks : List Nat}
    {count count' : Nat} {u v : Machine}
    (h : settleList me run token tasks count u = .settled count' v) : v.runs = u.runs := by
  induction tasks generalizing u count with
  | nil =>
      cases h
      rfl
  | cons n rest ih =>
      unfold settleList at h
      split at h
      · cases h
      · split at h
        · exact ih (u := u.forget me) h
        · cases h

theorem rouses_settleRun (me : TaskId) (run : Nat) (token : Option Token) (tasks : List Nat)
    (count : Nat) : Rouses (tasks ++ m.runs[run]?.elim [] ActiveRun.stragglers) m
      (m.settleRun me run token tasks count).machine := by
  have hlist := m.rouses_settleList me run token (List.subset_append_left tasks
    (m.runs[run]?.elim [] ActiveRun.stragglers)) count
  unfold settleRun
  cases hs : settleList me run token tasks count m with
  | settled count m' =>
      rw [hs] at hlist
      have hruns := runs_settleList hs
      have htake : Rouses (tasks ++ m.runs[run]?.elim [] ActiveRun.stragglers) m'
          (m'.takeStragglers run).2 := .of_eq rfl rfl rfl rfl rfl
      refine (hlist.trans htake).trans (rouses_settleList _ me run token ?_ count)
      rw [hruns]
      exact List.subset_append_right _ _
  | _ =>
      rw [hs] at hlist
      exact hlist

theorem rouses_pollSettle (me : TaskId) (run : Nat) (token : Option Token) (wait : Wait) :
    Rouses (wait.pending ++ m.runs[run]?.elim [] ActiveRun.stragglers) m
      (m.pollSettle me run token wait).machine := by
  have hpoll {about : List Nat} {settling : Settling} {turn : Polled (Except Failure Nat)}
      (h : Rouses about m settling.machine) (hturn : turn.machine = settling.machine) :
      Rouses about m turn.machine := hturn ▸ h
  unfold pollSettle
  cases wait with
  | stragglers tasks count =>
      refine hpoll (m.rouses_settleRun me run token tasks count) ?_
      dsimp only
      cases m.settleRun me run token tasks count <;> rfl
  | _ =>
      refine hpoll (m.rouses_settleRun me run token [] 0) ?_
      dsimp only
      cases m.settleRun me run token [] 0 <;> rfl

theorem rouses_poll (me : TaskId) (wait : Wait) (e : Effect) :
    Rouses (m.concerns (m.poll me wait e).turn.answer?.isSome wait e) m
      (m.poll me wait e).machine := by
  cases e with
  | startSpan ctx step => exact m.rouses_mark _ ctx.run step none
  | endSpan ctx step status => exact m.rouses_mark _ ctx.run step (some status)
  | request run token request => exact (errand_rouses _ me).pollRequest m run token request wait
  | sleep token span => exact (errand_rouses _ me).pollSleep m token span wait
  | join run policy group branches => exact m.rouses_pollJoin me run policy group branches wait
  | settle run token =>
      have hconcerns (answered : Bool) : m.concerns answered wait (.settle run token) =
          wait.pending ++ m.runs[run]?.elim [] ActiveRun.stragglers := by
        cases wait <;> rfl
      rw [hconcerns]
      exact m.rouses_pollSettle me run token wait
  | childToken | startDeadline | stopDeadline | openRun => exact .of_eq rfl rfl rfl rfl rfl
  | acquireSlot =>
      unfold poll pollSlot
      cases wait <;> dsimp only <;> split <;> exact .of_eq rfl rfl rfl rfl rfl
  | releaseSlot =>
      change Rouses _ m m.releaseSlot
      unfold releaseSlot
      rcases m.slots.release with ⟨slots, next⟩
      refine Rouses.trans ?_ (rouses_wakeIfSome _ _ next)
      exact .of_eq rfl rfl rfl rfl rfl
  | awaitRun submission =>
      unfold poll
      dsimp only
      unfold pollRun
      split <;> exact .of_eq rfl rfl rfl rfl rfl
  | _ => exact (errand_rouses _ me).toClerical.poll m me wait rfl

/-! ## Turns -/

theorem step_machine {α : Type} (me : TaskId) (w : Wait) (e : Effect)
    (next : e.Answer → Program α) :
    (TaskState.step me m (.active (.perform e next) w)).2.2 = (m.poll me w e).machine := by
  simp only [TaskState.step]
  split <;>
    · rename_i hp
      rw [hp]
      rfl

/-- The branches that a task may take from those that they report to in its turn. -/
theorem rouses_step {α : Type} (me : TaskId) (state : TaskState α) :
    ∃ about, Rouses about m (state.step me m).2.2 ∧ ∀ n ∈ about, ∃ e next w,
      state = .active (.perform e next) w ∧
        n ∈ m.concerns (m.poll me w e).turn.answer?.isSome w e := by
  cases state with
  | ended a order => exact ⟨[], .refl [] m, by simp⟩
  | active p w =>
      cases p with
      | pure a => exact ⟨[], .of_eq rfl rfl rfl rfl rfl, by simp⟩
      | perform e next =>
          refine ⟨m.concerns (m.poll me w e).turn.answer?.isSome w e, ?_,
            fun n hn => ⟨e, next, w, rfl, hn⟩⟩
          rw [step_machine]
          exact m.rouses_poll me w e

theorem rouses_setBranch (about : List Nat) (number : Nat)
    (state : TaskState (Except Failure Json)) : Rouses about m
      { m with branches := m.branches.modify number fun task => { task with state } } := by
  refine ⟨rfl, List.Subset.refl _, id, by simp, rfl, fun _ _ => ?_⟩
  simp only [waiter?, Array.getElem?_modify]
  split
  · rw [Option.bind_map]
    rfl
  · rfl

theorem rouses_setSubmission (about : List Nat) (number : Nat) (state : TaskState RunResult) :
    Rouses about m
      { m with submissions := m.submissions.modify number fun task => { task with state } } :=
  .of_eq rfl rfl rfl rfl rfl

def shared (m : Machine) : Machine :=
  { m with ready := [], mainReady := false, running := none, branches := #[], submissions := #[] }

@[simp] theorem shared_wake (t : TaskId) : (m.wake t).shared = m.shared := by
  unfold wake
  split
  · rfl
  · split <;> rfl

@[simp] theorem shared_wakeIfSome (t : Option TaskId) : (m.wakeIfSome t).shared = m.shared := by
  cases t with
  | none => rfl
  | some t => exact m.shared_wake t

@[simp] theorem shared_resume {α : Type} (progress : TaskState α) (goesOn : Bool)
    (waiter : Option TaskId) : (m.resume progress goesOn waiter).shared = m.shared := by
  unfold resume
  cases goesOn with
  | true => rfl
  | false =>
      cases progress with
      | active p w => rfl
      | ended a order => exact shared_wakeIfSome _ waiter

theorem awake_resume {α : Type} (progress : TaskState α) (goesOn : Bool) (waiter : Option TaskId)
    {t : TaskId} (ht : m.Awake t) (hr : m.running ≠ some t) :
    (m.resume progress goesOn waiter).Awake t := by
  have hline : { m with running := none }.Awake t := Or.inr (ht.resolve_left hr)
  unfold resume
  cases goesOn with
  | true => exact ht
  | false =>
      cases progress with
      | active p w => exact hline
      | ended a order => exact (rouses_wakeIfSome _ [] waiter).awake hline

theorem waiter?_resume {α : Type} (progress : TaskState α) (goesOn : Bool) (waiter : Option TaskId)
    (n : Nat) : (m.resume progress goesOn waiter).waiter? n = m.waiter? n := by
  rw [waiter?, branches_resume, waiter?]

theorem awake_dispatch? {m' : Machine} (h : m.dispatch? = some m') {t : TaskId} (ht : m.Awake t)
    (hr : m.running = none) : m'.Awake t := by
  have hline := ht.resolve_left fun h => nomatch hr.symm.trans h
  unfold dispatch? at h
  split at h
  · rename_i task ready hready
    cases h
    rcases hline with hmem | hmain
    · rw [hready] at hmem
      rcases List.mem_cons.mp hmem with rfl | hmem
      · exact Or.inl rfl
      · exact Or.inr (Or.inl hmem)
    · exact Or.inr (Or.inr hmain)
  · rename_i hready
    split at h
    · cases h
      rcases hline with hmem | ⟨rfl, -⟩
      · rw [hready] at hmem
        cases hmem
      · exact Or.inl rfl
    · exact (m.rouses_advanceClock? [] h).awake ht

theorem waiter?_dispatch? {m' : Machine} (h : m.dispatch? = some m') {n : Nat}
    (hn : n < m.branches.size) : m'.waiter? n = m.waiter? n := by
  unfold dispatch? at h
  split at h
  · cases h
    rfl
  · split at h
    · cases h
      rfl
    · exact (m.rouses_advanceClock? [] h).waiter hn List.not_mem_nil

theorem pollOf_eq (t : TaskId) (w : Wait) (e : Effect) : m.pollOf t w e =
    ⟨t, e, (m.poll t w e).turn.answer?, m, (m.poll t w e).machine⟩ := by
  unfold pollOf
  split <;>
    · rename_i hp
      rw [hp]
      rfl

end Machine

namespace System

variable {config : Config} {s s' : System RunResult} {log : List Occurrence} {t : TaskId}

/-- The turn of a task: it makes its step, and the task that it reports to is woken if it ended. -/
theorem step?_resumes {state : TaskState t.Result} (h : s.step? = some s')
    (running : s.machine.running = some t) (hs : s.task? t = some state) :
    ∃ m w, (∀ about, Machine.Rouses about (state.step t s.machine).2.2 m) ∧
      s'.machine = m.resume (state.step t s.machine).1 (state.step t s.machine).2.1 w ∧
      m.shared = (state.step t s.machine).2.2.shared ∧ ∀ n, t = .branch n → w = m.waiter? n := by
  unfold step? at h
  rw [running] at h
  cases t with
  | main =>
      cases hs
      cases h
      exact ⟨_, none, fun about => .refl about _, rfl, rfl, by rintro _ ⟨⟩⟩
  | branch number =>
      obtain ⟨task, htask, rfl⟩ := Option.map_eq_some_iff.mp hs
      cases h
      simp only [Machine.stepBranch, htask]
      have hstate (about : List Nat) := (task.state.step (.branch number) s.machine).2.2.rouses_setBranch
        about number (task.state.step (.branch number) s.machine).1
      refine ⟨_, _, hstate, rfl, rfl, ?_⟩
      rintro _ ⟨⟩
      simp only [Machine.waiter?, Array.getElem?_modify, if_true, Option.bind_map]
      rfl
  | submission number =>
      obtain ⟨task, htask, rfl⟩ := Option.map_eq_some_iff.mp hs
      cases h
      simp only [Machine.stepSubmission, htask]
      have hstate (about : List Nat) :=
        (task.state.step (.submission number) s.machine).2.2.rouses_setSubmission
          about number (task.state.step (.submission number) s.machine).1
      exact ⟨_, _, hstate, rfl, rfl, by rintro _ ⟨⟩⟩

theorem Moves.awake (h : s.Moves config log s') (ht : s.machine.Awake t)
    (hr : s.machine.running ≠ some t) : s'.machine.Awake t := by
  cases h with
  | step h =>
      cases running : s.machine.running with
      | none =>
          unfold step? at h
          rw [running] at h
          obtain ⟨m, hm, rfl⟩ := Option.map_eq_some_iff.mp h
          exact s.machine.awake_dispatch? hm ht running
      | some u =>
          cases hs : s.task? u with
          | none =>
              rw [step?_of_missing h running hs]
              exact Or.inr (ht.resolve_left hr)
          | some state =>
              obtain ⟨m, w, hm, hmachine, -⟩ := step?_resumes h running hs
              obtain ⟨about, hstep, -⟩ := s.machine.rouses_step u state
              have hrouses := hstep.trans (hm about)
              rw [hmachine]
              refine m.awake_resume _ _ w (hrouses.awake ht) ?_
              rwa [hrouses.running]
  | newToken h => exact ht
  | cancel h token => exact (s.machine.rouses_cancel [] token).awake ht
  | cancelAfter h span token => exact ht
  | submit h flow inputs token =>
      refine (Machine.rouses_wake _ [] _).awake ?_
      exact ht
  | start h errand =>
      exact Or.inr ((ht.resolve_left hr).imp_right fun hmain => ⟨hmain.1, rfl⟩)

/-- Branches report to the same tasks as before, except those that a poll is about. -/
theorem Moves.waiter (h : s.Moves config log s') {n : Nat} (hn : n < s.machine.branches.size)
    (hconcerns : ∀ t e (answer : Option e.Answer) m m' next w, log = [.poll ⟨t, e, answer, m, m'⟩] →
      s.task? t = some (.active (.perform e next) w) →
      n ∉ s.machine.concerns answer.isSome w e) :
    s'.machine.waiter? n = s.machine.waiter? n := by
  cases h with
  | step h =>
      cases running : s.machine.running with
      | none =>
          unfold step? at h
          rw [running] at h
          obtain ⟨m, hm, rfl⟩ := Option.map_eq_some_iff.mp h
          exact s.machine.waiter?_dispatch? hm hn
      | some u =>
          cases hs : s.task? u with
          | none =>
              rw [step?_of_missing h running hs]
              rfl
          | some state =>
              obtain ⟨m, w, hm, hmachine, -⟩ := step?_resumes h running hs
              obtain ⟨about, hstep, habout⟩ := s.machine.rouses_step u state
              rw [hmachine, Machine.waiter?_resume]
              refine (hstep.trans (hm about)).waiter hn fun hmem => ?_
              obtain ⟨e, next, w, rfl, hconcerned⟩ := habout n hmem
              have hpoll : s.occurrences = [.poll (s.machine.pollOf u w e)] := by
                simp [occurrences, running, hs]
              rw [Machine.pollOf_eq] at hpoll
              exact hconcerns u e _ _ _ next w hpoll hs hconcerned
  | newToken h => rfl
  | cancel h token => exact (s.machine.rouses_cancel [] token).waiter hn List.not_mem_nil
  | cancelAfter h span token => rfl
  | submit h flow inputs token =>
      exact (Machine.rouses_wake _ [] _).waiter hn List.not_mem_nil
  | start h errand => rfl

/-- Whatever happens is the turn of the running task, unless the main task begins anew. -/
theorem Moves.turn {x : Occurrence} (h : s.Moves config [x] s') (hx : x ≠ .errand) :
    s.step? = some s' ∧ ∃ t state, s.machine.running = some t ∧ s.task? t = some state ∧
      s.occurrences = [x] := by
  obtain ⟨log, hlog⟩ : ∃ log, log = [x] := ⟨_, rfl⟩
  rw [← hlog] at h ⊢
  cases h with
  | step h =>
      refine ⟨h, ?_⟩
      cases running : s.machine.running with
      | none => simp [occurrences, running] at hlog
      | some t =>
          cases hs : s.task? t with
          | none => simp [occurrences, running, hs] at hlog
          | some state => exact ⟨t, state, rfl, hs, rfl⟩
  | start h errand => exact absurd (List.cons.inj hlog).1.symm hx
  | _ => cases hlog

/-- The task that a branch reports to is awake after the end of the branch. -/
theorem Moves.wakes {n : Nat} (h : s.Moves config [.ended (.branch n)] s')
    (ht : s.machine.waiter? n = some t) : s'.machine.Awake t := by
  obtain ⟨hstep, u, state, running, hs, hlog⟩ := h.turn nofun
  simp only [occurrences, running, hs] at hlog
  split at hlog
  · cases hlog
  · rename_i a w hstate
    cases hstate
    cases hlog
    obtain ⟨m, w', hm, hmachine, -, hw'⟩ := step?_resumes hstep running hs
    have hn : n < s.machine.branches.size := by
      obtain ⟨task, htask, -⟩ := Option.map_eq_some_iff.mp hs
      exact (Array.getElem?_eq_some_iff.mp htask).1
    have hreports : m.waiter? n = s.machine.waiter? n := (hm []).waiter hn List.not_mem_nil
    rw [hmachine, hw' n rfl, hreports, ht]
    exact Machine.awake_wake _ t
  · cases hlog

/-- The branches that a join starts report to the task of the join, and they are awake. -/
theorem Moves.reports {run : Nat} {policy : JoinPolicy} {group : Token} {bs : List Branch}
    {next : Except Failure (List BranchOutcome) → Program t.Result} {w : Wait} {m m' : Machine}
    (h : s.Moves config [.poll ⟨t, .join run policy group bs, none, m, m'⟩] s')
    (ht : s.task? t = some (.active (.perform (.join run policy group bs) next) w))
    (hw : ∀ tasks, w ≠ .branches tasks) {n : Nat} (hn : s.machine.branches.size ≤ n)
    (hn' : n < s.machine.branches.size + bs.length) :
    s'.machine.waiter? n = some t ∧ s'.machine.Awake (.branch n) := by
  obtain ⟨hstep, u, state, running, hs, hlog⟩ := h.turn nofun
  simp only [occurrences, running, hs] at hlog
  split at hlog
  · rename_i e next' w' hstate
    rw [Machine.pollOf_eq, List.cons.injEq, Occurrence.poll.injEq, Poll.mk.injEq] at hlog
    obtain ⟨⟨rfl, he, hanswer, -, -⟩, -⟩ := hlog
    cases hs.symm.trans ht
    cases hstate
    obtain ⟨m₁, w₁, hm, hmachine, -⟩ := step?_resumes hstep running hs
    have hpolled := s.machine.step_machine u w (.join run policy group bs) next
    have hrouses : Machine.Rouses [] (s.machine.pollJoin u run policy group bs w).machine m₁ :=
      hpolled ▸ hm []
    obtain ⟨hreports, hawake⟩ := s.machine.waiter?_pollJoin hw (eq_of_heq hanswer) hn hn'
    rw [hmachine, Machine.waiter?_resume]
    refine ⟨(hrouses.waiter (Machine.lt_of_waiter? hreports) List.not_mem_nil).trans hreports, ?_⟩
    refine Machine.awake_resume _ _ _ _ (hrouses.awake hawake) ?_
    rw [hrouses.running, (s.machine.rouses_pollJoin u run policy group bs w).running, running]
    rintro ⟨⟩
    obtain ⟨task, htask, -⟩ := Option.map_eq_some_iff.mp hs
    exact absurd (Array.getElem?_eq_some_iff.mp htask).1 (Nat.not_lt_of_le hn)
  · cases hlog
  · cases hlog

theorem Moves.awake_main (h : s.Moves config [.errand] s') : s'.machine.Awake .main := by
  obtain ⟨log, hlog⟩ : ∃ log, log = [Occurrence.errand] := ⟨_, rfl⟩
  rw [← hlog] at h
  cases h with
  | step h =>
      unfold occurrences at hlog
      split at hlog
      · cases hlog
      · split at hlog <;> cases hlog
  | start h errand => exact Or.inr (Or.inr ⟨rfl, rfl⟩)
  | _ => cases hlog

end System
end FlowEngine
