import FlowEngine.Proofs.Likeness.Machines

/-!
# Polls of machines that are alike

Machines that are alike answer a task alike, or they let it wait alike, whatever it asks for.
-/
namespace FlowEngine

inductive Polled.Like (v : Likeness) {α β : Type} (R : α → β → Prop) :
    Polled α → Polled β → Prop where
  | answered {a : α} {b : β} {m m' : Machine} (related : R a b) (machines : m.Like v m') :
      Like v R (.answered a m) (.answered b m')
  | waiting {m m' : Machine} (w : Wait) (machines : m.Like v m') :
      Like v R (.waiting w m) (.waiting (v.shift.wait w) m')

inductive Machine.Settling.Like (v : Likeness) : Settling → Settling → Prop where
  | settled {m m' : Machine} (count : Nat) (machines : m.Like v m') :
      Like v (.settled count m) (.settled count m')
  | interrupted {m m' : Machine} (machines : m.Like v m') :
    Like v (.interrupted m) (.interrupted m')
  | waiting {m m' : Machine} (tasks : List Nat) (count : Nat) (machines : m.Like v m') :
      Like v (.waiting tasks count m) (.waiting (tasks.map (· + v.shift.branches)) count m')

namespace Machine.Like

variable {v : Likeness} {m m' : Machine}

/-! ## Requests -/

theorem setGate (h : m.Like v m') (run : Nat) (gate : Gate TaskId) :
    (m.setGate run gate).Like v (m'.setGate (run + v.shift.runs) (v.shift.gate gate)) :=
  h.modifyRun run fun _ _ hr => { hr with gate := rfl }

theorem releasePermit (h : m.Like v m') (run : Nat) :
    (m.releasePermit run).Like v (m'.releasePermit (run + v.shift.runs)) := by
  unfold Machine.releasePermit
  have hrun := h.runs.get run
  generalize m.runs[run]? = a, m'.runs[run + v.shift.runs]? = a' at hrun
  cases hrun with
  | none => exact h
  | @some r r' hr =>
      simp only [hr.gate, Shift.release_gate]
      exact (h.setGate run r.gate.release.1).wakeIfSome r.gate.release.2

theorem withdraw (h : m.Like v m') (run : Nat) (me : TaskId) :
    (m.withdraw run me).Like v (m'.withdraw (run + v.shift.runs) (v.shift.task me)) := by
  unfold Machine.withdraw
  have hrun := h.runs.get run
  generalize m.runs[run]? = a, m'.runs[run + v.shift.runs]? = a' at hrun
  cases hrun with
  | none => exact h
  | @some r r' hr =>
      simp only [hr.gate, Shift.withdraw_gate]
      exact (h.setGate run (r.gate.withdraw me).1).wakeIfSome (r.gate.withdraw me).2

variable {request : Request} (hrequest : v.requests request)
include hrequest

theorem hangUp (h : m.Like v m') : (m.hangUp request).Like v (m'.hangUp request) := by
  cases request with
  | call route target inputs =>
    exact { h with world := v.finishes route target inputs h.world hrequest }
  | record operation => exact h

theorem answerRequest (h : m.Like v m') (me : TaskId) (run : Nat) (outcome : Outcome) :
    Polled.Like v Eq (m.answerRequest me run request outcome)
      (m'.answerRequest (v.shift.task me) (run + v.shift.runs) request outcome) :=
  .answered rfl (((h.hangUp hrequest).forget me).releasePermit run)

theorem abandonRequest (h : m.Like v m') (me : TaskId) (run timer : Nat) :
    Polled.Like v Eq (m.abandonRequest me run request timer)
      (m'.abandonRequest (v.shift.task me) (run + v.shift.runs) request (v.shift.moved timer)) :=
  .answered rfl ((((h.stopTimer timer).hangUp hrequest).forget me).releasePermit run)

omit hrequest in
theorem operate (h : m.Like v m') {operation : RecordRequest}
    (hrequest : v.requests (.record operation)) :
    (m'.operate operation).1 = (m.operate operation).1 ∧
      (m.operate operation).2.Like v (m'.operate operation).2 := by
  obtain ⟨outcome, store, store', hs, hs', hworld⟩ := v.operates operation h.world hrequest
  simp only [Machine.operate, hs, hs']
  exact ⟨trivial, { h with world := hworld }⟩

theorem startRequest (h : m.Like v m') (me : TaskId) (run : Nat) (token : Token) :
    Polled.Like v Eq (m.startRequest me run token request)
      (m'.startRequest (v.shift.task me) (run + v.shift.runs) (v.shift.token token) request) := by
  have hforgot := h.forget me
  have hwaits {m m' : Machine} (h : m.Like v m') (span : Nat) :
      (m'.schedule span (.wake (v.shift.task me))).1 =
        v.shift.moved (m.schedule span (.wake me)).1 ∧
        ((m.schedule span (.wake me)).2.observe token me).Like v
          ((m'.schedule span (.wake (v.shift.task me))).2.observe (v.shift.token token)
            (v.shift.task me)) := by
    obtain ⟨htimer, hlike⟩ := h.schedule span (.wake me)
    exact ⟨htimer, hlike.observe token me⟩
  cases request with
  | call route target inputs =>
      obtain ⟨delay, outcome, c, c', hc, hc', hworld⟩ :=
        v.calls route target inputs hforgot.world hrequest
      have hcalled : Machine.Like v
          ((m.forget me).modifyWorld fun w => Machine.setCollaborator w route c)
          ((m'.forget (v.shift.task me)).modifyWorld fun w => Machine.setCollaborator w route c') :=
        { hforgot with world := hworld }
      simp only [Machine.startRequest, hc, hc']
      by_cases hdelay : delay = 0
      · rw [if_pos hdelay, if_pos hdelay]
        exact hcalled.answerRequest hrequest me run outcome
      · rw [if_neg hdelay, if_neg hdelay]
        obtain ⟨htimer, hlike⟩ := hwaits hcalled delay
        rw [htimer]
        exact .waiting (.call _ outcome) hlike
  | record operation =>
      simp only [Machine.startRequest, v.delays operation.op hforgot.world]
      split
      · obtain ⟨houtcome, hlike⟩ := hforgot.operate hrequest
        rw [houtcome]
        exact hlike.answerRequest hrequest me run _
      · obtain ⟨htimer, hlike⟩ := hwaits hforgot ((m.forget me).world.store.delay operation.op)
        rw [htimer]
        exact .waiting (.operation _) hlike

/-- A request that has not begun takes a permit, or it joins the line for one. -/
theorem enterRequest (h : m.Like v m') (me : TaskId) (run : Nat) (token : Token) :
    Polled.Like v Eq (m.pollRequest me run token request .fresh)
      (m'.pollRequest (v.shift.task me) (run + v.shift.runs) (v.shift.token token) request
        .fresh) := by
  simp only [Machine.pollRequest, h.isCancelled]
  split
  · exact .answered rfl h
  · have hrun := h.runs.get run
    generalize m.runs[run]? = a, m'.runs[run + v.shift.runs]? = a' at hrun
    cases hrun with
    | none => exact .answered rfl h
    | @some r r' hr =>
        simp only [hr.gate, Shift.tryAcquire?_gate]
        cases r.gate.tryAcquire? with
        | some gate => exact (h.setGate run gate).startRequest hrequest me run token
        | none =>
            simp only [Option.map_none, Shift.enqueue_gate]
            exact .waiting .permit ((h.setGate run _).observe token me)

theorem pollRequest (h : m.Like v m') (me : TaskId) (run : Nat) (token : Token) (wait : Wait) :
    Polled.Like v Eq (m.pollRequest me run token request wait)
      (m'.pollRequest (v.shift.task me) (run + v.shift.runs) (v.shift.token token) request
        (v.shift.wait wait)) := by
  cases wait with
  | permit =>
      simp only [Machine.pollRequest, Shift.wait, h.isCancelled]
      split
      · exact .answered rfl ((h.withdraw run me).forget me)
      · have hrun := h.runs.get run
        generalize m.runs[run]? = a, m'.runs[run + v.shift.runs]? = a' at hrun
        cases hrun with
        | none => exact .waiting .permit h
        | @some r r' hr =>
            simp only [Option.bind_some, hr.gate, Shift.claim?_gate]
            cases r.gate.claim? me with
            | some gate => exact (h.setGate run gate).startRequest hrequest me run token
            | none => exact .waiting .permit h
  | call timer outcome =>
      simp only [Machine.pollRequest, Shift.wait, h.isCancelled, h.isPending]
      split
      · exact h.abandonRequest hrequest me run timer
      · split
        · exact .waiting (.call timer outcome) h
        · exact h.answerRequest hrequest me run outcome
  | operation timer =>
      simp only [Machine.pollRequest, Shift.wait, h.isCancelled, h.isPending]
      split
      · exact h.abandonRequest hrequest me run timer
      · split
        · exact .waiting (.operation timer) h
        · cases request with
          | call route target inputs => exact .waiting (.operation timer) h
          | record operation =>
              obtain ⟨houtcome, hlike⟩ := h.operate hrequest
              simp only [houtcome]
              exact hlike.answerRequest hrequest me run _
  | _ => exact h.enterRequest hrequest me run token

omit hrequest

/-! ## Waiting for time -/

theorem interrupts (h : m.Like v m') (token : Option Token) :
    m'.interrupts (token.map v.shift.token) = m.interrupts token := by
  cases token with
  | none => rfl
  | some token => exact h.isCancelled token

theorem enterSleep (h : m.Like v m') (me : TaskId) (token : Option Token) (span : Nat) :
    Polled.Like v Eq (m.pollSleep me token span .fresh)
      (m'.pollSleep (v.shift.task me) (token.map v.shift.token) span .fresh) := by
  simp only [Machine.pollSleep, h.interrupts]
  split
  · exact .answered rfl h
  · split
    · exact .answered rfl h
    · obtain ⟨htimer, hlike⟩ := h.schedule span (.wake me)
      rw [Shift.alarm] at htimer hlike
      cases token with
      | none =>
          simp only [Option.map_none, htimer]
          exact .waiting (.timer _) hlike
      | some token =>
          simp only [Option.map_some, htimer]
          exact .waiting (.timer _) (hlike.observe token me)

theorem pollSleep (h : m.Like v m') (me : TaskId) (token : Option Token) (span : Nat)
    (wait : Wait) :
    Polled.Like v Eq (m.pollSleep me token span wait)
      (m'.pollSleep (v.shift.task me) (token.map v.shift.token) span (v.shift.wait wait)) := by
  cases wait with
  | timer timer =>
      simp only [Machine.pollSleep, Shift.wait, h.interrupts, h.isPending]
      split
      · exact .answered rfl ((h.stopTimer timer).forget me)
      · split
        · exact .waiting (.timer timer) h
        · exact .answered rfl (h.forget me)
  | _ => exact h.enterSleep me token span

/-! ## Joins -/

theorem firstFailure? (h : m.Like v m') (tasks : List Nat) :
    m'.firstFailure? (tasks.map (· + v.shift.branches)) =
      (m.firstFailure? tasks).map fun x => (x.1, v.shift.moved x.2) := by
  let moved (x : Option (Failure × Nat)) : Option (Failure × Nat) :=
    x.map fun x => (x.1, v.shift.moved x.2)
  have hearlier (first : Option (Failure × Nat)) (r : Option (Except Failure Json × Nat)) :
      Machine.earlier (moved first) (r.map fun r => (r.1, v.shift.moved r.2)) =
        moved (Machine.earlier first r) := by
    cases r with
    | none => rfl
    | some r =>
        obtain ⟨result, order⟩ := r
        cases result with
        | ok value => rfl
        | error f =>
            cases first with
            | none => rfl
            | some least =>
                simp only [Machine.earlier, moved, Option.map_some, v.shift.moved_lt_moved]
                split <;> rfl
  have hfold (first : Option (Failure × Nat)) :
      (tasks.map (· + v.shift.branches)).foldl
        (fun first task => Machine.earlier first (m'.branchResult? task))
        (moved first) =
      moved
        (tasks.foldl (fun first task => Machine.earlier first (m.branchResult? task)) first) := by
    induction tasks generalizing first with
    | nil => rfl
    | cons task rest ih =>
        rw [List.map_cons, List.foldl_cons, List.foldl_cons, h.branchResult?, hearlier]
        exact ih _
  exact hfold none

theorem endedAfter (h : m.Like v m') (order task : Nat) :
    m'.endedAfter (v.shift.moved order) (task + v.shift.branches) = m.endedAfter order task := by
  unfold Machine.endedAfter
  rw [h.branchResult?]
  cases m.branchResult? task with
  | none => rfl
  | some r => simp [v.shift.moved_lt_moved]

theorem outcomes? (h : m.Like v m') (tasks : List Nat) :
    m'.outcomes? (tasks.map (· + v.shift.branches)) = m.outcomes? tasks := by
  unfold Machine.outcomes?
  induction tasks with
  | nil => rfl
  | cons task rest ih =>
      rw [List.map_cons, List.mapM_cons, List.mapM_cons, ih, h.branchResult?, Option.map_map]
      rfl

theorem gather (h : m.Like v m') (tasks : List Nat) :
    Polled.Like v Eq (m.gather tasks) (m'.gather (tasks.map (· + v.shift.branches))) := by
  unfold Machine.gather
  rw [h.outcomes?]
  split
  · exact .answered rfl h
  · exact .waiting (.branches tasks) h

theorem checkJoin (h : m.Like v m') (run : Nat) (policy : JoinPolicy) (group : Token)
    (tasks : List Nat) : Polled.Like v Eq (m.checkJoin run policy group tasks)
      (m'.checkJoin (run + v.shift.runs) policy (v.shift.token group)
        (tasks.map (· + v.shift.branches))) := by
  unfold Machine.checkJoin
  rw [h.firstFailure?]
  cases policy with
  | waitAll => exact h.gather tasks
  | failFast =>
      cases m.firstFailure? tasks with
      | none => exact h.gather tasks
      | some first =>
          have hleft : (tasks.map (· + v.shift.branches)).filter
              (m'.endedAfter (v.shift.moved first.2)) =
              (tasks.filter (m.endedAfter first.2)).map (· + v.shift.branches) := by
            rw [List.filter_map]
            congr 1
            exact List.filter_congr fun task _ => h.endedAfter first.2 task
          simp only [Option.map_some, hleft]
          exact .answered rfl (((h.cancel group).setWaiters none _).adopt run _)

theorem pollJoin (h : m.Like v m') (me : TaskId) (run : Nat) (policy : JoinPolicy) (group : Token)
    {branches : List Branch} (wait : Wait)
    (hbranches : ∀ b ∈ branches, Program.Like v Eq b.program (v.shift.branch b).program) :
    Polled.Like v Eq (m.pollJoin me run policy group branches wait)
      (m'.pollJoin (v.shift.task me) (run + v.shift.runs) policy (v.shift.token group)
        (branches.map v.shift.branch) (v.shift.wait wait)) := by
  have hprograms : List.Forall₂ (Program.Like v Eq) (branches.map Branch.program)
      ((branches.map v.shift.branch).map Branch.program) := by
    induction branches with
    | nil => exact .nil
    | cons b rest ih =>
        exact .cons (hbranches b List.mem_cons_self)
          (ih fun b hb => hbranches b (List.mem_cons_of_mem _ hb))
  have hfresh : Polled.Like v Eq (m.pollJoin me run policy group branches .fresh)
      (m'.pollJoin (v.shift.task me) (run + v.shift.runs) policy (v.shift.token group)
        (branches.map v.shift.branch) .fresh) := by
    obtain ⟨htasks, hlike⟩ := h.spawn hprograms
    simp only [Machine.pollJoin, htasks, List.isEmpty_map]
    split
    · exact .answered rfl hlike
    · exact .waiting (.branches _) (hlike.setWaiters (some me) _)
  cases wait with
  | branches tasks => exact h.checkJoin run policy group tasks
  | _ => exact hfresh

/-! ## Settling -/

theorem settleList (h : m.Like v m') (me : TaskId) (run : Nat) (token : Option Token)
    (tasks : List Nat) (count : Nat) :
      Settling.Like v (Machine.settleList me run token tasks count m)
      (Machine.settleList (v.shift.task me) (run + v.shift.runs) (token.map v.shift.token)
        (tasks.map (· + v.shift.branches)) count m') := by
  induction tasks generalizing m m' count with
  | nil => exact .settled count h
  | cons task rest ih =>
      simp only [List.map_cons, Machine.settleList, h.interrupts, h.branchResult?,
        Option.isSome_map]
      split
      · exact .interrupted (((h.forget me).setWaiter none task).adopt run (task :: rest))
      · split
        · exact ih (h.forget me) (count + 1)
        · have hwaits := h.setWaiter (some me) task
          cases token with
          | none => exact .waiting (task :: rest) count hwaits
          | some token => exact .waiting (task :: rest) count (hwaits.observe token me)

theorem settleRun (h : m.Like v m') (me : TaskId) (run : Nat) (token : Option Token)
    (tasks : List Nat) (count : Nat) : Settling.Like v (m.settleRun me run token tasks count)
      (m'.settleRun (v.shift.task me) (run + v.shift.runs) (token.map v.shift.token)
        (tasks.map (· + v.shift.branches)) count) := by
  have hlist := h.settleList me run token tasks count
  unfold Machine.settleRun
  generalize Machine.settleList me run token tasks count m = x,
    Machine.settleList (v.shift.task me) (run + v.shift.runs) (token.map v.shift.token)
      (tasks.map (· + v.shift.branches)) count m' = x' at hlist
  cases hlist with
  | settled count h =>
      obtain ⟨hmore, hlike⟩ := h.takeStragglers run
      dsimp only
      rw [hmore]
      exact hlike.settleList me run token _ count
  | interrupted h => exact .interrupted h
  | waiting tasks count h => exact .waiting tasks count h

theorem pollSettle (h : m.Like v m') (me : TaskId) (run : Nat) (token : Option Token)
    (wait : Wait) :
    Polled.Like v Eq (m.pollSettle me run token wait)
      (m'.pollSettle (v.shift.task me) (run + v.shift.runs) (token.map v.shift.token)
        (v.shift.wait wait)) := by
  have hsettles (tasks : List Nat) (count : Nat) :
      Polled.Like v Eq (m.pollSettle me run token (.stragglers tasks count))
        (m'.pollSettle (v.shift.task me) (run + v.shift.runs) (token.map v.shift.token)
          (.stragglers (tasks.map (· + v.shift.branches)) count)) := by
    have hrun := h.settleRun me run token tasks count
    unfold Machine.pollSettle
    dsimp only
    generalize m.settleRun me run token tasks count = x,
      m'.settleRun (v.shift.task me) (run + v.shift.runs) (token.map v.shift.token)
        (tasks.map (· + v.shift.branches)) count = x' at hrun
    cases hrun with
    | settled count h => exact .answered rfl h
    | interrupted h => exact .answered rfl h
    | waiting tasks count h => exact .waiting (.stragglers tasks count) h
  cases wait with
  | stragglers tasks count => exact hsettles tasks count
  | _ => exact hsettles [] 0

/-! ## Transactions -/

theorem slot (h : m.Like v m') (run : Nat) :
    m'.runs[run + v.shift.runs]?.elim .empty ActiveRun.slot =
    m.runs[run]?.elim .empty ActiveRun.slot := by
  have hrun := h.runs.get run
  generalize m.runs[run]? = a, m'.runs[run + v.shift.runs]? = a' at hrun
  cases hrun with
  | none => rfl
  | some hr => exact hr.slot

theorem setSlot (h : m.Like v m') (run : Nat) (slot : TransactionSlot) :
    (m.setSlot run slot).Like v (m'.setSlot (run + v.shift.runs) slot) :=
  h.modifyRun run fun _ _ hr => { hr with slot := rfl }

section

variable (hv : v.transactions)
include hv

theorem setStore (h : m.Like v m') (store : ScriptedStore) :
    (m.setStore store).Like v (m'.setStore store) :=
  { h with world := (v.stores hv h.world).2 store }

theorem storeAnswer (h : m.Like v m') (r : Except EngineError ScriptedStore) :
    Polled.Like v Eq (m.storeAnswer r) (m'.storeAnswer r) := by
  cases r with
  | ok store => exact .answered rfl (h.setStore hv store)
  | error e => exact .answered rfl h

theorem beginTransaction (h : m.Like v m') (run : Nat) :
    Polled.Like v Eq (m.beginTransaction run) (m'.beginTransaction (run + v.shift.runs)) := by
  simp only [Machine.beginTransaction, h.slot, (v.stores hv h.world).1]
  split
  · exact .answered rfl ((h.setSlot run _).setStore hv _)
  · exact .answered rfl h

omit hv in
theorem releaseTransaction (h : m.Like v m') (run : Nat) (handle : String) :
    Polled.Like v Eq (m.releaseTransaction run handle)
      (m'.releaseTransaction (run + v.shift.runs) handle) := by
  simp only [Machine.releaseTransaction, h.slot]
  split
  · exact .answered rfl (h.setSlot run _)
  · exact .answered rfl h

end

/-! ## All effects -/

theorem closeRun (h : m.Like v m') (run : Nat) (ending : Ending) (outputs : List (String × Json)) :
    v.shift.Results (m.closeRun run ending outputs).1
        (m'.closeRun (run + v.shift.runs) ending outputs).1 ∧
      (m.closeRun run ending outputs).2.Like v
        (m'.closeRun (run + v.shift.runs) ending outputs).2 := by
  unfold Machine.closeRun
  have hrun := h.runs.get run
  generalize m.runs[run]? = a, m'.runs[run + v.shift.runs]? = a' at hrun
  cases hrun with
  | none => exact ⟨Or.inr rfl, h⟩
  | @some r r' hr =>
      simp only [hr.journal]
      exact ⟨Or.inl rfl, h.modifyRun run fun _ _ hr => { hr with journal := rfl }⟩

/-- Machines that are alike carry an effect equally far, and their answers mean the same. -/
theorem poll (h : m.Like v m') (me : TaskId) (wait : Wait) {e : Effect} (he : v.Allows e)
    (hbranches : ∀ run policy group bs, e = .join run policy group bs → ∀ b ∈ bs,
      Program.Like v Eq b.program (v.shift.branch b).program) :
    Polled.Like v (v.shift.Answers e) (m.poll me wait e)
      (m'.poll (v.shift.task me) (v.shift.wait wait) (v.shift.effect e)) := by
  have eq_comm {α : Type} {p p' : Polled α} (hp : Polled.Like v Eq p p') :
      Polled.Like v (fun a a' => a' = a) p p' := by
    cases hp with
    | answered related machines => exact .answered related.symm machines
    | waiting w machines => exact .waiting w machines
  cases e with
  | isCancelled token => exact .answered (h.isCancelled token) h
  | childToken token =>
      obtain ⟨htoken, hlike⟩ := h.childToken token
      exact .answered htoken hlike
  | startDeadline token limit =>
      obtain ⟨htimer, hlike⟩ := h.schedule limit.toNat (.cancel token)
      exact .answered htimer hlike
  | stopDeadline deadline =>
      refine .answered ?_ (h.stopTimer deadline)
      exact congrArg (!·) (h.isPending deadline)
  | note run entry => exact .answered trivial (h.note run entry)
  | startSpan ctx step => exact .answered trivial (h.mark ctx.run step none)
  | endSpan ctx step status => exact .answered trivial (h.mark ctx.run step (some status))
  | request run token request => exact eq_comm (h.pollRequest he me run token wait)
  | sleep token span => exact eq_comm (h.pollSleep me token span wait)
  | join run policy group branches =>
      exact eq_comm (h.pollJoin me run policy group wait (hbranches _ _ _ _ rfl))
  | settle run token => exact eq_comm (h.pollSettle me run token wait)
  | beginTransaction ctx => exact eq_comm (h.beginTransaction he ctx.run)
  | releaseTransaction run handle => exact eq_comm (h.releaseTransaction run handle)
  | discardSnapshot handle =>
      simp only [Machine.poll, Shift.effect, (v.stores he h.world).1]
      exact eq_comm (h.storeAnswer he _)
  | restoreSnapshot handle =>
      simp only [Machine.poll, Shift.effect, (v.stores he h.world).1]
      exact eq_comm (h.storeAnswer he _)
  | acquireSlot => exact he.elim
  | releaseSlot => exact he.elim
  | openRun flow parent =>
      obtain ⟨hopened, hlike⟩ := h.openRun flow parent
      exact .answered hopened hlike
  | closeRun run ending outputs =>
      obtain ⟨hresult, hlike⟩ := h.closeRun run ending outputs
      exact .answered hresult hlike
  | awaitRun submission => exact he.elim

end Machine.Like
end FlowEngine
