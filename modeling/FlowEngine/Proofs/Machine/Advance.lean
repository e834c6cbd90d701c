import FlowEngine.Proofs.Machine.Polls
import FlowEngine.Proofs.Store.Snapshots

/-!
# What a move can do

`Outline.Advances` says once what a move of a session does to the outline: the
running task ends, is answered or has to wait, a task is picked, tokens are
cancelled, or the owner hands over new work. Every invariant of sessions is proved
by cases on it.
-/

/-!
## What single effects leave alone

Only a join cancels a scope in its poll, only joins and settling concern the branches
that are waited for, and many effects are answered at once.
-/
namespace FlowEngine

namespace Outline

variable {o o₁ : Outline}

/-- What a poll does to the outline: nothing, or a change of the one part that the effect is
about. -/
inductive Alters (o : Outline) (w : Wait) : (e : Effect) → Turn e.Answer → Outline → Prop where
  | still {e : Effect} {turn : Turn e.Answer} (silent : ∀ run entry, e ≠ .note run entry) :
      Alters o w e turn o
  | noted {run : Nat} {entry : Entry} {turn : Turn Unit} : Alters o w (.note run entry) turn
      (o.modifyRun run fun r => { r with journal := r.journal.add entry })
  | called {run : Nat} {token : Token} {request : Request} {turn : Turn (Except Interruption Outcome)}
      (calls : Route → List Call) : Alters o w (.request run token request) turn { o with calls }
  | performed {run : Nat} {token : Token} {operation : RecordRequest} :
      Alters o w (.request run token (.record operation))
        (.answered (.ok (o.store.perform operation).1))
        { o with store := (o.store.perform operation).2 }
  | spawned {run : Nat} {policy : JoinPolicy} {group : Token} {bs : List Branch}
      {turn : Turn (Except Failure (List BranchOutcome))} (first : ∀ tasks, w ≠ .branches tasks) :
      Alters o w (.join run policy group bs) turn (o.spawn (bs.map Branch.program))
  | failed {run : Nat} {policy : JoinPolicy} {group : Token} {bs : List Branch}
      {turn : Turn (Except Failure (List BranchOutcome))} (left : List Nat) :
      Alters o w (.join run policy group bs) turn
        ({ o with cancelled := group :: o.cancelled }.modifyRun run fun r =>
          { r with stragglers := r.stragglers ++ left })
  | settled {run : Nat} {token : Option Token} {turn : Turn (Except Failure Nat)}
      (left : List Nat → List Nat) : Alters o w (.settle run token) turn
        (o.modifyRun run fun r => { r with stragglers := left r.stragglers })
  | begun {ctx : Context} {handle : String} {slot : TransactionSlot} {store : ScriptedStore}
      (begins : (o.slot ctx.run).begin o.store = .ok (handle, slot, store)) :
      Alters o w (.beginTransaction ctx) (.answered (.ok handle))
        ({ o with store }.modifyRun ctx.run fun r => { r with slot })
  | released {run : Nat} {handle : String} {turn : Turn (Except EngineError Unit)}
      (slot : TransactionSlot) : Alters o w (.releaseTransaction run handle) turn
        (o.modifyRun run fun r => { r with slot })
  | discarded {handle : String} {store : ScriptedStore} (discards : o.store.discard handle = .ok store) :
      Alters o w (.discardSnapshot handle) (.answered (.ok ())) { o with store }
  | restored {handle : String} {store : ScriptedStore} (restores : o.store.restore handle = .ok store) :
      Alters o w (.restoreSnapshot handle) (.answered (.ok ())) { o with store }
  | opened {flow : String} {parent : Token} {turn : Turn (Nat × Token)} :
      Alters o w (.openRun flow parent) turn { o with runs := o.runs ++ [⟨.empty, [], .start flow⟩] }
  | closed {run : Nat} {ending : Ending} {outputs : List (String × Json)} {turn : Turn RunResult}
      (journal : Journal) : Alters o w (.closeRun run ending outputs) turn
        (o.modifyRun run fun r => { r with journal })

theorem Polls.alters {w : Wait} {e : Effect} {turn : Turn e.Answer} (h : o.Polls w o₁ e turn) :
    o.Alters w e turn o₁ := by
  cases e with
  | note run entry =>
      obtain ⟨-, rfl⟩ := h
      exact .noted
  | request run token request =>
      simp only [Polls] at h
      split at h
      · obtain ⟨-, rfl⟩ := h
        exact .still (by simp)
      · cases h with
        | refused => exact .still (by simp)
        | waiting w' calls => exact .called calls
        | replied outcome calls => exact .called calls
        | performed hr =>
            subst hr
            exact .performed
  | join run policy group bs =>
      simp only [Polls] at h
      split at h
      · cases h with
        | failed => exact .failed _
        | _ => exact .still (by simp)
      · rename_i first
        obtain ⟨rfl, -⟩ := h
        exact .spawned first
  | settle run token =>
      cases h with
      | waitingFirst => exact .still (by simp)
      | @interruptedFirst ended rest => exact .settled (· ++ rest)
      | @interruptedLater ended rest => exact .settled fun _ => rest
      | _ => exact .settled fun _ => []
  | beginTransaction ctx =>
      simp only [Polls] at h
      split at h
      · rename_i begins
        obtain ⟨rfl, rfl⟩ := h
        exact .begun begins
      · obtain ⟨-, rfl⟩ := h
        exact .still (by simp)
  | releaseTransaction run handle =>
      simp only [Polls] at h
      split at h
      · obtain ⟨-, rfl⟩ := h
        exact .released _
      · obtain ⟨-, rfl⟩ := h
        exact .still (by simp)
  | discardSnapshot handle =>
      simp only [Polls, Stores] at h
      split at h
      · rename_i discards
        obtain ⟨rfl, rfl⟩ := h
        exact .discarded discards
      · obtain ⟨-, rfl⟩ := h
        exact .still (by simp)
  | restoreSnapshot handle =>
      simp only [Polls, Stores] at h
      split at h
      · rename_i restores
        obtain ⟨rfl, rfl⟩ := h
        exact .restored restores
      · obtain ⟨-, rfl⟩ := h
        exact .still (by simp)
  | openRun flow parent =>
      obtain ⟨-, rfl⟩ := h
      exact .opened
  | closeRun run ending outputs =>
      simp only [Polls] at h
      split at h
      · obtain ⟨-, rfl⟩ := h
        exact .still (by simp)
      · obtain ⟨-, rfl⟩ := h
        exact .closed _
  | sleep token span =>
      obtain ⟨rfl, -⟩ := h
      exact .still (by simp)
  | acquireSlot =>
      obtain ⟨rfl, -⟩ := h
      exact .still (by simp)
  | awaitRun number =>
      obtain ⟨rfl, -⟩ := h
      exact .still (by simp)
  | _ =>
      obtain ⟨-, rfl⟩ := h
      exact .still (by simp)

/-- Only joins, settling and the opening of a run concern what tasks wait for. -/
theorem Polls.calm {w : Wait} {e : Effect} {turn : Turn e.Answer}
    (h : o.Polls w o₁ e turn) (hj : ∀ run policy group bs, e ≠ .join run policy group bs)
    (hs : ∀ run token, e ≠ .settle run token) (ho : ∀ flow parent, e ≠ .openRun flow parent) :
    o₁.branches = o.branches ∧ o₁.cancelled = o.cancelled ∧
      o.runs.length = o₁.runs.length ∧ ∀ run, o₁.stragglers run = o.stragglers run := by
  cases h.alters with
  | spawned first => exact absurd rfl (hj _ _ _ _)
  | failed left => exact absurd rfl (hj _ _ _ _)
  | settled left => exact absurd rfl (hs _ _)
  | opened => exact absurd rfl (ho _ _)
  | noted => exact ⟨rfl, rfl, by simp, fun r => stragglers_modifyRun_of_eq _ _ r fun _ => rfl⟩
  | begun begins => exact ⟨rfl, rfl, by simp, fun r => stragglers_modifyRun_of_eq _ _ r fun _ => rfl⟩
  | released slot => exact ⟨rfl, rfl, by simp, fun r => stragglers_modifyRun_of_eq _ _ r fun _ => rfl⟩
  | closed journal => exact ⟨rfl, rfl, by simp, fun r => stragglers_modifyRun_of_eq _ _ r fun _ => rfl⟩
  | _ => exact ⟨rfl, rfl, rfl, fun _ => rfl⟩

theorem Polls.cancelled {w : Wait} {e : Effect} {turn : Turn e.Answer} (h : o.Polls w o₁ e turn) :
    o₁.cancelled = o.cancelled ∨ ∃ run policy group bs, e = .join run policy group bs ∧
      o₁.cancelled = group :: o.cancelled := by
  cases h.alters with
  | failed left => exact Or.inr ⟨_, _, _, _, rfl, rfl⟩
  | _ => exact Or.inl rfl

theorem Polls.cancelled_suffix {w : Wait} {e : Effect} {turn : Turn e.Answer}
    (h : o.Polls w o₁ e turn) : o.cancelled <:+ o₁.cancelled := by
  rcases h.cancelled with hsame | ⟨run, policy, group, bs, -, hgroup⟩
  · exact hsame ▸ List.suffix_rfl
  · exact hgroup ▸ List.suffix_cons group _

theorem Polls.starts {run : Nat} {policy : JoinPolicy} {group : Token} {bs : List Branch}
    {w w' : Wait} (h : o.Polls w o₁ (.join run policy group bs) (.waiting w'))
    (hw : ∀ tasks, w ≠ .branches tasks) :
    o₁ = o.spawn (bs.map Branch.program) ∧ bs ≠ [] ∧
      w' = .branches (List.range' o.branches.length bs.length) := by
  simp only [Polls] at h
  obtain ⟨hspawn, ⟨hturn, -⟩ | ⟨hbs, hturn⟩⟩ := h
  · cases hturn
  · cases hturn
    exact ⟨hspawn, hbs, rfl⟩

theorem Polls.keeps_waiting {run : Nat} {policy : JoinPolicy} {group : Token} {bs : List Branch}
    {tasks : List Nat} {w' : Wait}
    (h : o.Polls (.branches tasks) o₁ (.join run policy group bs) (.waiting w')) :
    w' = .branches tasks ∧ o₁ = o ∧ (∃ n ∈ tasks, ¬ o.Ended n) ∧
      (policy = .failFast → ∀ n ∈ tasks, ∀ f k, o.branchResult? n ≠ some (.error f, k)) := by
  change o.Joins run policy group tasks _ _ at h
  cases h with
  | waiting quiet unended => exact ⟨rfl, rfl, unended, quiet⟩

/-- What a poll after which the task has to wait does to branches: a join starts its branches in
its first turn and waits for them in the later ones, and nothing else concerns branches. -/
inductive Delays (o : Outline) (w : Wait) : Effect → Wait → Outline → Prop where
  | starts {run : Nat} {policy : JoinPolicy} {group : Token} {bs : List Branch}
      (first : ∀ tasks, w ≠ .branches tasks) (some : bs ≠ []) :
      Delays o w (.join run policy group bs)
        (.branches (List.range' o.branches.length bs.length)) (o.spawn (bs.map Branch.program))
  | keeps {run : Nat} {policy : JoinPolicy} {group : Token} {bs : List Branch} {tasks : List Nat}
      (later : w = .branches tasks) :
      Delays o w (.join run policy group bs) (.branches tasks) o
  | other {e : Effect} {w' : Wait} {o₁ : Outline}
      (ne_join : ∀ run policy group bs, e ≠ .join run policy group bs) : Delays o w e w' o₁

theorem Polls.delays {w w' : Wait} {e : Effect} (h : o.Polls w o₁ e (.waiting w')) :
    o.Delays w e w' o₁ := by
  cases e with
  | join run policy group bs =>
      by_cases hw : ∃ tasks, w = .branches tasks
      · obtain ⟨tasks, rfl⟩ := hw
        obtain ⟨rfl, rfl, -⟩ := h.keeps_waiting
        exact .keeps rfl
      · have first (tasks : List Nat) (hw' : w = .branches tasks) : False := hw ⟨tasks, hw'⟩
        obtain ⟨rfl, hbs, rfl⟩ := h.starts first
        exact .starts first hbs
  | _ => exact .other (by simp)

theorem Polls.wait_of_join {run : Nat} {policy : JoinPolicy} {group : Token} {bs : List Branch}
    {w w' : Wait} (h : o.Polls w o₁ (.join run policy group bs) (.waiting w')) :
    ∃ tasks, w' = .branches tasks := by
  cases h.delays with
  | starts first some => exact ⟨_, rfl⟩
  | keeps later => exact ⟨_, rfl⟩
  | other ne_join => exact absurd rfl (ne_join _ _ _ _)

def Waits : Effect → Prop
  | .request _ _ _ | .sleep _ _ | .join _ _ _ _ | .settle _ _ | .acquireSlot | .awaitRun _ => True
  | _ => False

theorem Polls.waits {w w' : Wait} {e : Effect} (h : o.Polls w o₁ e (.waiting w')) : Waits e := by
  cases e with
  | isCancelled token => cases h.1
  | childToken token =>
      obtain ⟨⟨n, h⟩, -⟩ := h
      cases h
  | startDeadline token limit =>
      obtain ⟨⟨n, h⟩, -⟩ := h
      cases h
  | stopDeadline deadline =>
      obtain ⟨⟨n, h⟩, -⟩ := h
      cases h
  | startSpan ctx step =>
      obtain ⟨⟨n, h⟩, -⟩ := h
      cases h
  | endSpan ctx step status =>
      obtain ⟨⟨n, h⟩, -⟩ := h
      cases h
  | openRun flow parent =>
      obtain ⟨⟨n, h⟩, -⟩ := h
      cases h
  | note run entry => cases h.1
  | releaseSlot => cases h.1
  | beginTransaction ctx =>
      simp only [Polls] at h
      split at h <;> cases h.1
  | releaseTransaction run handle =>
      simp only [Polls] at h
      split at h <;> cases h.1
  | discardSnapshot handle =>
      simp only [Polls, Stores] at h
      split at h <;> cases h.1
  | restoreSnapshot handle =>
      simp only [Polls, Stores] at h
      split at h <;> cases h.1
  | closeRun run ending outputs =>
      simp only [Polls] at h
      split at h <;> cases h.1
  | _ => trivial

def Suspended (o : Outline) (t : TaskId) : Prop :=
  ∃ e next w, o.task? t = some (.active (.perform e next) w) ∧ Waits e

end Outline
end FlowEngine

namespace FlowEngine

namespace Outline

inductive Advances (config : Config) (o : Outline) : List Occurrence → Outline → Prop where
  | pick (t : TaskId) (idle : o.running = none) : Advances config o [] { o with running := some t }
  | cancel (tokens : List Token) (idle : o.running = none) :
      Advances config o [] { o with cancelled := tokens ++ o.cancelled }
  | stop {t : TaskId} (running : o.running = some t)
      (inactive : ∀ p w, o.task? t ≠ some (.active p w)) :
      Advances config o [] { o with running := none }
  | finish {t : TaskId} {a : t.Result} {w : Wait} (running : o.running = some t)
      (active : o.task? t = some (.active (.pure a) w)) (order : Nat) :
      Advances config o [.ended t] { o.setTask t (.ended a order) with running := none }
  | answer {t : TaskId} {e : Effect} {next : e.Answer → Program t.Result} {w : Wait}
      {a : e.Answer} {before after : Machine} (running : o.running = some t)
      (active : o.task? t = some (.active (.perform e next) w))
      (start : before.outline o.main = o)
      (polls : o.Polls w (after.outline o.main) e (.answered a)) :
      Advances config o [.poll ⟨t, e, some a, before, after⟩]
        ((after.outline o.main).setTask t (.active (next a) .fresh))
  | wait {t : TaskId} {e : Effect} {next : e.Answer → Program t.Result} {w w' : Wait}
      {before after : Machine} (running : o.running = some t)
      (active : o.task? t = some (.active (.perform e next) w))
      (start : before.outline o.main = o)
      (polls : o.Polls w (after.outline o.main) e (.waiting w')) :
      Advances config o [.poll ⟨t, e, none, before, after⟩]
        { (after.outline o.main).setTask t (.active (.perform e next) w') with running := none }
  | submit (flow : Flow) (inputs : List (String × Json)) (token : Token)
      (idle : o.running = none) : Advances config o []
        { o with submissions := o.submissions ++
          [.active (Execution.submitted config flow inputs token) .fresh] }
  | errand {p : Program RunResult} (idle : o.running = none)
      (ended : ∃ result order, o.main = .ended result order) (errand : System.Errand config p) :
      Advances config o [.errand] { o with main := .active p .fresh }

/-! ## Replacing the progress of a task -/

variable (o : Outline) {t u : TaskId} (state : TaskState t.Result)

@[simp] theorem setTask_running : (o.setTask t state).running = o.running := by
  cases t <;> rfl

@[simp] theorem setTask_cancelled : (o.setTask t state).cancelled = o.cancelled := by
  cases t <;> rfl

@[simp] theorem setTask_store : (o.setTask t state).store = o.store := by
  cases t <;> rfl

@[simp] theorem setTask_runs : (o.setTask t state).runs = o.runs := by
  cases t <;> rfl

@[simp] theorem setTask_stragglers (run : Nat) :
    (o.setTask t state).stragglers run = o.stragglers run := by
  cases t <;> rfl

@[simp] theorem setTask_slot (run : Nat) : (o.setTask t state).slot run = o.slot run := by
  cases t <;> rfl

@[simp] theorem setTask_branches_length :
    (o.setTask t state).branches.length = o.branches.length := by
  cases t <;> simp [setTask]

theorem setTask_same (h : o.task? t = some state) : o.setTask t state = o := by
  have hl {α : Type} (l : List α) (i : Nat) (a : α) (h : l[i]? = some a) :
      (l.modify i fun _ => a) = l := by
    apply List.ext_getElem?
    intro j
    rw [List.getElem?_modify]
    by_cases hij : i = j
    · subst hij
      simp [h]
    · simp [hij]
  cases t with
  | main =>
      cases h
      rfl
  | branch number => simp only [setTask, hl _ _ _ h]
  | submission number => simp only [setTask, hl _ _ _ h]

theorem task?_setTask_self (h : (o.task? t).isSome) : (o.setTask t state).task? t = some state := by
  cases t with
  | main => rfl
  | branch number =>
      obtain ⟨old, ho⟩ := Option.isSome_iff_exists.mp h
      simp only [task?] at ho
      simp [setTask, task?, ho]
  | submission number =>
      obtain ⟨old, ho⟩ := Option.isSome_iff_exists.mp h
      simp only [task?] at ho
      simp [setTask, task?, ho]

theorem eq_of_task?_setTask {state' : TaskState t.Result}
    (h : (o.setTask t state).task? t = some state') : state' = state := by
  cases t with
  | main => exact (Option.some.inj h).symm
  | branch number =>
      simp only [setTask, task?, List.getElem?_modify_eq, Option.map_eq_map,
        Option.map_eq_some_iff] at h
      obtain ⟨_, _, rfl⟩ := h
      rfl
  | submission number =>
      simp only [setTask, task?, List.getElem?_modify_eq, Option.map_eq_map,
        Option.map_eq_some_iff] at h
      obtain ⟨_, _, rfl⟩ := h
      rfl

theorem task?_setTask_of_ne (h : u ≠ t) : (o.setTask t state).task? u = o.task? u := by
  cases t with
  | main => cases u <;> first | exact absurd rfl h | rfl
  | branch number =>
      cases u with
      | branch other =>
          have hne : number ≠ other := fun he => h (by rw [he])
          exact List.getElem?_modify_ne _ _ hne
      | _ => rfl
  | submission number =>
      cases u with
      | submission other =>
          have hne : number ≠ other := fun he => h (by rw [he])
          exact List.getElem?_modify_ne _ _ hne
      | _ => rfl

theorem Advances.cancelled {o o' : Outline} {config : Config} {log : List Occurrence}
    (h : o.Advances config log o') : o.cancelled <:+ o'.cancelled := by
  cases h with
  | cancel tokens idle => exact List.suffix_append tokens _
  | finish running active order =>
      change _ <:+ (o.setTask _ _).cancelled
      simp only [setTask_cancelled, List.suffix_refl]
  | answer running active start polls =>
      rw [setTask_cancelled]
      exact polls.cancelled_suffix
  | wait running active start polls =>
      change _ <:+ (setTask _ _ _).cancelled
      rw [setTask_cancelled]
      exact polls.cancelled_suffix
  | _ => exact List.suffix_rfl

end Outline

namespace Machine

variable (m : Machine) (main : TaskState RunResult)

/-! ## The steps of the machine -/

theorem outline_advanceClock? {m m' : Machine} (h : m.advanceClock? = some m') :
    ∃ tokens, m'.outline main = { m.outline main with cancelled := tokens ++ m.cancelled } := by
  have hfold (fired : List Timer) (m₀ : Machine) : ∃ tokens,
      (fired.foldl (fun m t => m.ring t.alarm) m₀).outline main =
        { m₀.outline main with cancelled := tokens ++ m₀.cancelled } := by
    induction fired generalizing m₀ with
    | nil => exact ⟨[], rfl⟩
    | cons timer rest ih =>
        obtain ⟨tokens, h⟩ := m₀.outline_ring main timer.alarm
        obtain ⟨more, h'⟩ := ih (m₀.ring timer.alarm)
        have hc : (m₀.ring timer.alarm).cancelled = tokens ++ m₀.cancelled :=
          congrArg Outline.cancelled h
        refine ⟨more ++ tokens, ?_⟩
        rw [List.foldl_cons, h', h, hc, List.append_assoc]
  unfold advanceClock? at h
  cases hd : m.nextDue? with
  | none =>
      rw [hd] at h
      cases h
  | some due =>
      rw [hd] at h
      cases h
      exact hfold _ _

theorem outline_resume {α : Type} (progress : TaskState α) (goesOn : Bool)
    (waiter : Option TaskId) : (m.resume progress goesOn waiter).outline main =
      if goesOn then m.outline main else { m.outline main with running := none } := by
  unfold resume
  cases goesOn with
  | true => rfl
  | false =>
      cases progress with
      | active p w => rfl
      | ended a order => exact outline_wakeIfSome _ main waiter

theorem outline_setBranch (number : Nat) (state : TaskState (Except Failure Json)) :
    ({ m with branches := m.branches.modify number fun task => { task with state } } :
      Machine).outline main = (m.outline main).setTask (.branch number) state := by
  have hm := map_modify (h := Task.state) (g := fun _ => state)
    (f := fun task => { task with state }) (fun _ => rfl) m.branches.toList number
  simp only [outline, Outline.setTask, Array.toList_modify, hm]

theorem outline_setSubmission (number : Nat) (state : TaskState RunResult) :
    ({ m with submissions := m.submissions.modify number fun task => { task with state } } :
      Machine).outline main = (m.outline main).setTask (.submission number) state := by
  have hm := map_modify (h := Task.state) (g := fun _ => state)
    (f := fun task => { task with state }) (fun _ => rfl) m.submissions.toList number
  simp only [outline, Outline.setTask, Array.toList_modify, hm]

end Machine

/-! ## Moves of a session -/

namespace System

variable {s s' : System RunResult}

@[simp] theorem task?_outline (t : TaskId) : s.outline.task? t = s.task? t := by
  cases t <;> simp [outline, Machine.outline, Outline.task?, task?]

@[simp] theorem running_outline : s.outline.running = s.machine.running := rfl

theorem advances_of_progress (config : Config) {t : TaskId} {state state' : TaskState t.Result}
    {goesOn : Bool} {m : Machine} (running : s.machine.running = some t)
    (active : s.task? t = some state) (hstep : state.step t s.machine = (state', goesOn, m)) :
    s.outline.Advances config s.occurrences
      (if goesOn then (m.outline s.main).setTask t state'
        else { (m.outline s.main).setTask t state' with running := none }) := by
  have hact : s.outline.task? t = some state := by rw [task?_outline, active]
  cases state with
  | ended a order =>
      have hocc : s.occurrences = [] := by simp [occurrences, running, active]
      cases hstep
      rw [hocc, if_neg (by simp)]
      have hsame := s.outline.setTask_same _ hact
      rw [outline] at hsame
      rw [hsame]
      exact .stop running fun p w => by simp [active]
  | active p w =>
      cases p with
      | pure a =>
          have hocc : s.occurrences = [.ended t] := by simp [occurrences, running, active]
          cases hstep
          rw [hocc, if_neg (by simp)]
          exact .finish running hact s.machine.next
      | perform e next =>
          have hpoll := s.machine.poll_outline s.main t w e
          have hocc : s.occurrences = [.poll (s.machine.pollOf t w e)] := by
            simp [occurrences, running, active]
          rw [hocc, Machine.pollOf]
          rw [TaskState.step] at hstep
          cases hp : s.machine.poll t w e with
          | answered a m' =>
              rw [hp] at hpoll hstep
              cases hstep
              exact .answer running hact rfl hpoll
          | waiting w' m' =>
              rw [hp] at hpoll hstep
              cases hstep
              exact .wait running hact rfl hpoll

theorem stop_advances {config : Config} {t : TaskId} (running : s.machine.running = some t)
    (missing : s.task? t = none) :
    s.outline.Advances config s.occurrences { s.outline with running := none } := by
  have hocc : s.occurrences = [] := by simp [occurrences, running, missing]
  rw [hocc]
  exact .stop running fun p w => by simp [missing]

theorem step?_outline {t : TaskId} {state state' : TaskState t.Result} {goesOn : Bool} {m : Machine}
    (h : s.step? = some s') (running : s.machine.running = some t) (active : s.task? t = some state)
    (hstep : state.step t s.machine = (state', goesOn, m)) :
    s'.outline = if goesOn then (m.outline s.main).setTask t state'
      else { (m.outline s.main).setTask t state' with running := none } := by
  unfold step? at h
  rw [running] at h
  cases t with
  | main =>
      cases active
      simp only [hstep] at h
      cases h
      simp only [outline]
      rw [Machine.outline_resume]
      cases goesOn <;> rfl
  | branch number =>
      obtain ⟨task, htask, rfl⟩ := Option.map_eq_some_iff.mp active
      simp only [Machine.stepBranch, htask, hstep] at h
      cases h
      simp only [outline]
      rw [Machine.outline_resume, Machine.outline_setBranch]
  | submission number =>
      obtain ⟨task, htask, rfl⟩ := Option.map_eq_some_iff.mp active
      simp only [Machine.stepSubmission, htask, hstep] at h
      cases h
      simp only [outline]
      rw [Machine.outline_resume, Machine.outline_setSubmission]

theorem step?_of_missing {t : TaskId} (h : s.step? = some s') (running : s.machine.running = some t)
    (missing : s.task? t = none) : s' = { s with machine := { s.machine with running := none } } := by
  unfold step? at h
  rw [running] at h
  cases t with
  | main => cases missing
  | branch number =>
      have htask := Option.map_eq_none_iff.mp missing
      cases h
      simp only [Machine.stepBranch, htask]
  | submission number =>
      have htask := Option.map_eq_none_iff.mp missing
      cases h
      simp only [Machine.stepSubmission, htask]

/-- When no task is running, one is picked, or the clock is moved on. -/
theorem step?_outline_of_idle (h : s.step? = some s') (idle : s.machine.running = none) :
    (∃ t, s'.outline = { s.outline with running := some t }) ∨
      ∃ tokens, s'.outline = { s.outline with cancelled := tokens ++ s.outline.cancelled } := by
  unfold step? at h
  rw [idle] at h
  obtain ⟨m, hd, rfl⟩ := Option.map_eq_some_iff.mp h
  unfold Machine.dispatch? at hd
  split at hd
  · cases hd
    exact Or.inl ⟨_, rfl⟩
  · split at hd
    · cases hd
      exact Or.inl ⟨.main, rfl⟩
    · obtain ⟨tokens, ho⟩ := Machine.outline_advanceClock? s.main hd
      exact Or.inr ⟨tokens, ho⟩

theorem step?_advances {config : Config} (h : s.step? = some s') :
    s.outline.Advances config s.occurrences s'.outline := by
  cases running : s.machine.running with
  | none =>
      have hocc : s.occurrences = [] := by simp [occurrences, running]
      rw [hocc]
      rcases step?_outline_of_idle h running with ⟨t, ho⟩ | ⟨tokens, ho⟩
      · rw [ho]
        exact .pick t running
      · rw [ho]
        exact .cancel tokens running
  | some t =>
      cases active : s.task? t with
      | none =>
          rw [step?_of_missing h running active]
          exact stop_advances running active
      | some state =>
          rcases hstep : state.step t s.machine with ⟨state', goesOn, m⟩
          rw [step?_outline h running active hstep]
          exact advances_of_progress config running active hstep

theorem outline_submit (s : System RunResult) (p : Program RunResult) :
    ({ s with machine := (s.machine.submit p).2 } : System RunResult).outline =
      { s.outline with submissions := s.outline.submissions ++ [.active p .fresh] } := by
  simp only [outline, Machine.submit, Machine.outline_wake]
  simp [Machine.outline, Task.new]

theorem Moves.advances {config : Config} {log : List Occurrence} (h : s.Moves config log s') :
    s.outline.Advances config log s'.outline := by
  cases h with
  | step h => exact step?_advances h
  | newToken h => exact .cancel [] h.2
  | cancel h token =>
      simp only [outline, Machine.outline_cancel]
      exact .cancel [token] h.2
  | cancelAfter h span token => exact .cancel [] h.2
  | submit h flow inputs token =>
      rw [outline_submit]
      exact .submit flow inputs token h.2
  | start h errand =>
      have : s.outline.Advances config [.errand] _ := .errand h.2 h.1 errand
      have hr : s.machine.running = none := h.2
      simpa [outline, Machine.outline, System.start, hr] using this

end System
end FlowEngine

/-!
## What a poll does to the store

Few effects reach the store: operations on records, and the three calls that take a
snapshot, discard it and restore it. Whatever else is polled leaves the store alone.
-/
namespace FlowEngine

namespace TransactionSlot

variable {slot slot' : TransactionSlot} {store store' : ScriptedStore} {handle : String}

theorem begin_eq_ok (h : slot.begin store = .ok (handle, slot', store')) :
    slot.held = none ∧ slot' = ⟨some handle⟩ ∧ store.snapshot = .ok (handle, store') := by
  unfold TransactionSlot.begin at h
  split at h
  · cases h
  · rename_i hheld
    obtain ⟨p, hp, h⟩ := exists_of_bind_eq_ok h
    cases h
    exact ⟨hheld, rfl, hp⟩

theorem release_of_held (h : slot.held = some handle) : slot.release handle = .ok .empty :=
  if_pos h

end TransactionSlot

namespace Outline

variable {o o₁ : Outline}

inductive Stored (o o₁ : Outline) : (e : Effect) → Turn e.Answer → Prop where
  | same {e : Effect} {turn : Turn e.Answer} (h : o₁.store = o.store) : Stored o o₁ e turn
  | performed {run : Nat} {token : Token} {operation : RecordRequest}
      (h : o₁.store = (o.store.perform operation).2) :
      Stored o o₁ (.request run token (.record operation))
        (.answered (.ok (o.store.perform operation).1))
  | taken {ctx : Context} {handle : String} (h : o.store.snapshot = .ok (handle, o₁.store)) :
      Stored o o₁ (.beginTransaction ctx) (.answered (.ok handle))
  | discarded {handle : String} (h : o.store.discard handle = .ok o₁.store) :
      Stored o o₁ (.discardSnapshot handle) (.answered (.ok ()))
  | restored {handle : String} (h : o.store.restore handle = .ok o₁.store) :
      Stored o o₁ (.restoreSnapshot handle) (.answered (.ok ()))

theorem Polls.stored {w : Wait} {e : Effect} {turn : Turn e.Answer} (h : o.Polls w o₁ e turn) :
    o.Stored o₁ e turn := by
  cases h.alters with
  | performed => exact .performed rfl
  | begun begins =>
      obtain ⟨-, -, snapshot⟩ := TransactionSlot.begin_eq_ok begins
      exact .taken snapshot
  | discarded discards => exact .discarded discards
  | restored restores => exact .restored restores
  | _ => exact .same rfl

end Outline
end FlowEngine
