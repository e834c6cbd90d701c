import FlowEngine.Proofs.Machine.Heeding

/-!
# Who is told when a task ends

A task that waits for others is told when they end. Only joins, settling and waiting for a submitted
run have to do with that: the task that is polled is the only one that begins to be told, and it is
told about nobody that it does not wait for.
-/
namespace FlowEngine

/-- The tasks that a task waits for: the branches of a join, the first of the branches that it settles,
or a submitted run. -/
def Effect.awaits : Effect → Wait → Option (List TaskId)
  | .join _ _ _ _, .branches tasks => some (tasks.map .branch)
  | .settle _ _, .stragglers tasks _ => some (tasks.head?.toList.map .branch)
  | .awaitRun number, .submission => some [.submission number]
  | _, _ => none

@[simp] theorem Effect.awaits_of_fresh (e : Effect) : e.awaits .fresh = none := by
  cases e <;> rfl

namespace Machine

def heir? (m : Machine) : TaskId → Option TaskId
  | .main => none
  | .branch number => m.waiter? number
  | .submission number => m.submissions[number]?.bind Task.waiter

def desk (m : Machine) :
    Gate TaskId × Array (Task (Except Failure Json)) × Array (Task RunResult) :=
  (m.slots, m.branches, m.submissions)

theorem heir?_of_desk {m m' : Machine} (h : m'.desk = m.desk) : m'.heir? = m.heir? := by
  have hbranches : m'.branches = m.branches := congrArg (fun d => d.2.1) h
  have hsubmissions : m'.submissions = m.submissions := congrArg (fun d => d.2.2) h
  funext t
  cases t <;> simp only [heir?, waiter?, hbranches, hsubmissions]

theorem slots_of_desk {m m' : Machine} (h : m'.desk = m.desk) : m'.slots = m.slots :=
  congrArg Prod.fst h

variable (m : Machine)

/-! ## What leaves the desk as it is -/

@[simp] theorem desk_wake (t : TaskId) : (m.wake t).desk = m.desk := by
  unfold wake
  split
  · rfl
  · split <;> rfl

@[simp] theorem desk_wakeIfSome (t : Option TaskId) : (m.wakeIfSome t).desk = m.desk := by
  cases t with
  | none => rfl
  | some t => exact m.desk_wake t

@[simp] theorem desk_observe (token : Token) (t : TaskId) : (m.observe token t).desk = m.desk := by
  unfold observe
  split <;> rfl

@[simp] theorem desk_cancel (token : Token) : (m.cancel token).desk = m.desk := by
  have hfold (released : List (Token × TaskId)) (m' : Machine) :
      (released.foldl (fun m p => m.wake p.2) m').desk = m'.desk := by
    induction released generalizing m' with
    | nil => rfl
    | cons p rest ih => exact (ih _).trans (m'.desk_wake p.2)
  exact hfold _ _

@[simp] theorem desk_ring (alarm : Alarm) : (m.ring alarm).desk = m.desk := by
  cases alarm with
  | wake t => exact m.desk_wake t
  | cancel token => exact m.desk_cancel token

theorem desk_advanceClock? {m m' : Machine} (h : m.advanceClock? = some m') : m'.desk = m.desk := by
  have hfold (fired : List Timer) (m' : Machine) :
      (fired.foldl (fun m x => m.ring x.alarm) m').desk = m'.desk := by
    induction fired generalizing m' with
    | nil => rfl
    | cons x rest ih => exact (ih _).trans (m'.desk_ring x.alarm)
  obtain ⟨due, rfl⟩ := m.advanceClock?_eq h
  exact hfold _ _

@[simp] theorem desk_mark (run : Nat) (step : String) (status : Option StepStatus) :
    (m.mark run step status).2.desk = m.desk := by
  unfold mark
  split <;> rfl

theorem errand_desk (me : TaskId) : Errand (fun m m' => m'.desk = m.desk) me := by
  refine .of_wake ?_ (fun m t => m.desk_wake t) fun _ _ _ => rfl
  exact {
    refl _ := rfl
    trans h h' := h'.trans h
    modifyRun _ _ _ _ _ := rfl
    modifyWorld _ _ _ := rfl
    forget _ := rfl
    observe m token := m.desk_observe token me
    schedule _ _ := rfl
    stopTimer _ _ := rfl }

/-- Most effects have nothing to do with slots and other tasks. -/
theorem desk_poll (me : TaskId) (wait : Wait) {e : Effect}
    (hjoin : ∀ run policy group bs, e ≠ .join run policy group bs)
    (hsettle : ∀ run token, e ≠ .settle run token) (hacquire : e ≠ .acquireSlot)
    (hrelease : e ≠ .releaseSlot) (hawait : ∀ number, e ≠ .awaitRun number) :
    (m.poll me wait e).machine.desk = m.desk := by
  cases e with
  | request run token request => exact (errand_desk me).pollRequest m run token request wait
  | sleep token span => exact (errand_desk me).pollSleep m token span wait
  | startSpan ctx step => exact m.desk_mark ctx.run step none
  | endSpan ctx step status => exact m.desk_mark ctx.run step (some status)
  | join run policy group bs => exact absurd rfl (hjoin _ _ _ _)
  | settle run token => exact absurd rfl (hsettle _ _)
  | acquireSlot => exact absurd rfl hacquire
  | releaseSlot => exact absurd rfl hrelease
  | awaitRun number => exact absurd rfl (hawait _)
  | childToken | startDeadline | stopDeadline | openRun => rfl
  | _ => exact (errand_desk me).toClerical.poll m me wait rfl

/-! ## Joins and settling -/

/-- A task has ended. -/
def Over (m : Machine) : TaskId → Prop
  | .main => False
  | .branch number => (m.branchResult? number).isSome
  | .submission number => (m.submissions[number]?.bind fun task => task.state.result?).isSome

/-- How a task has come to be told about the end of another one after a poll. It was told before, and
if it is the one that is polled and waited for the other one, that one has ended. Or it is the one
that is polled, and waits for the other one. -/
inductive Tells (m : Machine) (me : TaskId) (wait : Wait) (e : Effect) (turn : Turn e.Answer)
    (u t : TaskId) : Prop where
  | before (was : m.heir? u = some t)
      (ended : t = me → ∀ l, e.awaits wait = some l → u ∈ l → m.Over u)
  | begins (self : t = me) {w : Wait} {l : List TaskId} (waits : turn = .waiting w)
      (awaits : e.awaits w = some l) (mem : u ∈ l)

variable {m}

theorem Tells.of_same {me : TaskId} {wait : Wait} {e : Effect} {turn : Turn e.Answer}
    {u t : TaskId} {m' : Machine} (h : m'.heir? u = some t) (hsame : m'.heir? = m.heir?)
    (hidle : e.awaits wait = none) : m.Tells me wait e turn u t := by
  rw [hsame] at h
  refine .before h fun _ l hl => ?_
  rw [hidle] at hl
  cases hl

theorem submissions_spawn (programs : List (Program (Except Failure Json))) (m : Machine) :
    (m.spawn programs).2.submissions = m.submissions := by
  induction programs generalizing m with
  | nil => rfl
  | cons p rest ih => exact (ih _).trans (congrArg (fun d => d.2.2) (desk_wake _ _))

theorem submissions_setWaiters (waiter : Option TaskId) (numbers : List Nat) (m : Machine) :
    (m.setWaiters waiter numbers).submissions = m.submissions := by
  induction numbers generalizing m with
  | nil => rfl
  | cons number rest ih => exact ih _

theorem heir?_setWaiters {waiter : Option TaskId} {numbers : List Nat} {u t : TaskId}
    (h : (m.setWaiters waiter numbers).heir? u = some t) :
    (∃ n ∈ numbers, u = .branch n ∧ waiter = some t) ∨
      (∀ n ∈ numbers, u ≠ .branch n) ∧ m.heir? u = some t := by
  cases u with
  | main => cases h
  | submission number =>
      rw [heir?, submissions_setWaiters] at h
      exact Or.inr ⟨nofun, h⟩
  | branch n =>
      have hlt := lt_of_waiter? h
      have hsize : (m.setWaiters waiter numbers).branches.size = m.branches.size := by
        clear h hlt
        induction numbers generalizing m with
        | nil => rfl
        | cons number rest ih =>
            exact (@ih (m.setWaiter waiter number)).trans (by simp [setWaiter])
      rw [hsize] at hlt
      by_cases hn : n ∈ numbers
      · rw [heir?, waiter?_setWaiters _ hn hlt] at h
        exact Or.inl ⟨n, hn, rfl, h⟩
      · refine Or.inr ⟨?_, ?_⟩
        · rintro k hk ⟨⟩
          exact hn hk
        · rwa [heir?, (m.rouses_setWaiters (List.Subset.refl numbers) waiter).waiter hlt hn] at h

theorem heir?_setWaiter {waiter : Option TaskId} {number : Nat} {u t : TaskId}
    (h : (m.setWaiter waiter number).heir? u = some t) :
    u = .branch number ∧ waiter = some t ∨ u ≠ .branch number ∧ m.heir? u = some t := by
  have hlist : (m.setWaiters waiter [number]).heir? u = some t := h
  rcases heir?_setWaiters hlist with ⟨n, hn, rfl, hwaiter⟩ | ⟨hnot, hsame⟩
  · rw [List.mem_singleton.mp hn]
    exact Or.inl ⟨rfl, hwaiter⟩
  · exact Or.inr ⟨hnot number (List.mem_singleton_self _), hsame⟩

/-- Whoever is told about a branch that is spawned was not told before. -/
theorem heir?_spawn {programs : List (Program (Except Failure Json))} {u t : TaskId}
    (h : (m.spawn programs).2.heir? u = some t) (hnew : ∀ n ∈ (m.spawn programs).1, u ≠ .branch n) :
    m.heir? u = some t := by
  cases u with
  | main => cases h
  | submission number => rwa [heir?, submissions_spawn] at h
  | branch n =>
      have hlt := lt_of_waiter? h
      obtain ⟨hnumbers, hspawned⟩ := m.spawn_eq (.ended default 0) programs
      have hsize := congrArg (fun o => o.branches.length) hspawned
      simp only [outline, Outline.spawn, List.length_append, List.length_map,
        Array.length_toList] at hsize
      by_cases hold : n < m.branches.size
      · rwa [heir?, (m.rouses_spawn [] programs).waiter hold List.not_mem_nil] at h
      · refine absurd rfl (hnew n ?_)
        rw [hnumbers, List.mem_range'_1]
        omega

theorem Tells.of_waiting {me : TaskId} {wait w : Wait} {e : Effect} {u t : TaskId}
    (h : m.heir? u = some t) (hsame : e.awaits w = e.awaits wait) :
    m.Tells me wait e (.waiting w) u t := by
  by_cases hu : t = me ∧ ∃ l, e.awaits wait = some l ∧ u ∈ l
  · obtain ⟨hme, l, hl, hmem⟩ := hu
    exact .begins hme rfl (hsame.trans hl) hmem
  · exact .before h fun hme l hl hmem => absurd ⟨hme, l, hl, hmem⟩ hu

theorem tells_checkJoin {me u t : TaskId} {run : Nat} {policy : JoinPolicy} {group : Token}
    {bs : List Branch} {tasks : List Nat}
    (h : (m.checkJoin run policy group tasks).machine.heir? u = some t) :
    m.Tells me (.branches tasks) (.join run policy group bs)
      (m.checkJoin run policy group tasks).turn u t := by
  unfold checkJoin at h ⊢
  split at h
  · rename_i f order hfirst
    have hleft : ((m.cancel group).setWaiters none (tasks.filter (m.endedAfter order))).heir? u =
        some t := h
    rcases heir?_setWaiters hleft with ⟨n, -, -, hnone⟩ | ⟨hnot, hsame⟩
    · cases hnone
    · rw [heir?_of_desk (m.desk_cancel group)] at hsame
      refine .before hsame ?_
      rintro - l ⟨⟩ hu
      obtain ⟨n, hn, rfl⟩ := List.mem_map.mp hu
      change (m.branchResult? n).isSome
      cases hresult : m.branchResult? n with
      | some result => rfl
      | none =>
          refine absurd rfl (hnot n (List.mem_filter.mpr ⟨hn, ?_⟩))
          rw [endedAfter, hresult]
  · have hall := m.outcomes?_outline (.ended default 0) tasks
    unfold gather at h ⊢
    cases houtcomes : m.outcomes? tasks with
    | none =>
        rw [houtcomes] at h
        exact .of_waiting h rfl
    | some outcomes =>
        rw [houtcomes] at h hall
        refine .before h ?_
        rintro - l ⟨⟩ hu
        obtain ⟨n, hn, rfl⟩ := List.mem_map.mp hu
        have hended := Outline.ended_of_outcomes hall n hn
        rwa [Outline.Ended, branchResult?_outline] at hended

theorem tells_pollJoin {me u t : TaskId} {run : Nat} {policy : JoinPolicy} {group : Token}
    {bs : List Branch} {wait : Wait}
    (h : (m.pollJoin me run policy group bs wait).machine.heir? u = some t) :
    m.Tells me wait (.join run policy group bs) (m.pollJoin me run policy group bs wait).turn u t := by
  by_cases hwait : ∃ tasks, wait = .branches tasks
  · obtain ⟨tasks, rfl⟩ := hwait
    exact tells_checkJoin h
  · have hidle : (Effect.join run policy group bs).awaits wait = none := by
      cases wait with
      | branches tasks => exact absurd ⟨tasks, rfl⟩ hwait
      | _ => rfl
    have hbefore {turn : Turn (Effect.join run policy group bs).Answer}
        (hu : m.heir? u = some t) : m.Tells me wait (.join run policy group bs) turn u t :=
      .of_same hu rfl hidle
    unfold pollJoin at h ⊢
    cases wait with
    | branches tasks => exact absurd ⟨tasks, rfl⟩ hwait
    | _ =>
        dsimp only at h ⊢
        split at h
        · rename_i hempty
          rw [if_pos hempty]
          refine hbefore (heir?_spawn h fun n hn => ?_)
          rw [List.isEmpty_iff.mp hempty] at hn
          cases hn
        · rename_i hsome
          rw [if_neg hsome]
          rcases heir?_setWaiters h with ⟨n, hn, rfl, hme⟩ | ⟨hnot, hsame⟩
          · exact .begins (Option.some.inj hme).symm rfl rfl (List.mem_map.mpr ⟨n, hn, rfl⟩)
          · exact hbefore (heir?_spawn hsame hnot)

/-- When a task settles, it is told about the branch that it has to wait for. -/
theorem heir?_settleList {me u t : TaskId} {run : Nat} {token : Option Token} {tasks : List Nat}
    {count : Nat} (h : (settleList me run token tasks count m).machine.heir? u = some t) :
    m.heir? u = some t ∧ (t = me → ∀ n, tasks.head? = some n → u = .branch n → m.Over u) ∨
      t = me ∧ ∃ n rest count' m', settleList me run token tasks count m =
        .waiting (n :: rest) count' m' ∧ u = .branch n := by
  induction tasks generalizing m count with
  | nil => exact Or.inl ⟨h, nofun⟩
  | cons k rest ih =>
      unfold settleList at h ⊢
      split at h
      · rename_i hcancelled
        rw [if_pos hcancelled]
        have hcleared : ((m.forget me).setWaiter none k).heir? u = some t := h
        rcases heir?_setWaiter hcleared with ⟨-, hnone⟩ | ⟨hne, hsame⟩
        · cases hnone
        · refine Or.inl ⟨hsame, ?_⟩
          rintro - n ⟨⟩ rfl
          exact absurd rfl hne
      · rename_i hcancelled
        rw [if_neg hcancelled]
        split at h
        · rename_i hended
          rw [if_pos hended]
          refine (ih h).imp_left fun hsame => ⟨hsame.1, ?_⟩
          rintro - n ⟨⟩ rfl
          exact hended
        · rename_i hunended
          rw [if_neg hunended]
          have htold : (m.setWaiter (some me) k).heir? u = some t := by
            cases token with
            | none => exact h
            | some token =>
                have hdesk := desk_observe (m.setWaiter (some me) k) token me
                rw [← heir?_of_desk hdesk]
                exact h
          rcases heir?_setWaiter htold with ⟨rfl, hme⟩ | ⟨hne, hsame⟩
          · exact Or.inr ⟨(Option.some.inj hme).symm, k, rest, _, _, rfl, rfl⟩
          · refine Or.inl ⟨hsame, ?_⟩
            rintro - n ⟨⟩ rfl
            exact absurd rfl hne

theorem heir?_settleRun {me u t : TaskId} {run : Nat} {token : Option Token} {tasks : List Nat}
    {count : Nat} (h : (m.settleRun me run token tasks count).machine.heir? u = some t) :
    m.heir? u = some t ∧ (t = me → ∀ n, tasks.head? = some n → u = .branch n → m.Over u) ∨
      t = me ∧ ∃ n rest count' m', m.settleRun me run token tasks count =
        .waiting (n :: rest) count' m' ∧ u = .branch n := by
  have hfirst (hlist : (settleList me run token tasks count m).machine.heir? u = some t) :=
    heir?_settleList hlist
  unfold settleRun at h ⊢
  cases hs : settleList me run token tasks count m with
  | settled count' m' =>
      rw [hs] at h hfirst
      rcases heir?_settleList h with ⟨hsame, -⟩ | hwaits
      · refine Or.inl ((hfirst hsame).resolve_right ?_)
        rintro ⟨-, n, rest, count'', m'', hwaiting, -⟩
        cases hwaiting
      · exact Or.inr hwaits
  | interrupted m' =>
      rw [hs] at h hfirst
      exact hfirst h
  | waiting rest count' m' =>
      rw [hs] at h hfirst
      exact hfirst h

theorem tells_pollSettle {me u t : TaskId} {run : Nat} {token : Option Token} {wait : Wait}
    (h : (m.pollSettle me run token wait).machine.heir? u = some t) :
    m.Tells me wait (.settle run token) (m.pollSettle me run token wait).turn u t := by
  rw [pollSettle_eq] at h ⊢
  have hmachine : (m.settleRun me run token wait.pending wait.settled).polled.machine =
      (m.settleRun me run token wait.pending wait.settled).machine := by
    cases m.settleRun me run token wait.pending wait.settled <;> rfl
  rw [hmachine] at h
  rcases heir?_settleRun h with ⟨hsame, hover⟩ | ⟨hme, n, rest, count, m', hwaiting, rfl⟩
  · refine .before hsame fun hme l hl hu => ?_
    cases wait with
    | stragglers tasks count =>
        cases hl
        obtain ⟨n, hn, rfl⟩ := List.mem_map.mp hu
        exact hover hme n (Option.mem_toList.mp hn) rfl
    | _ => cases hl
  · rw [hwaiting]
    exact .begins hme rfl rfl (List.mem_singleton_self _)

theorem tells_pollRun {me u t : TaskId} {number : Nat} {wait : Wait}
    (h : (m.pollRun me number).machine.heir? u = some t) :
    m.Tells me wait (.awaitRun number) (m.pollRun me number).turn u t := by
  have hidle {l : List TaskId} (hl : (Effect.awaitRun number).awaits wait = some l) :
      l = [.submission number] := by
    cases wait <;> cases hl
    rfl
  unfold pollRun at h ⊢
  cases hresult : m.submissions[number]?.bind fun task => task.state.result? with
  | some result =>
      rw [hresult] at h
      refine .before h fun _ l hl hu => ?_
      rw [hidle hl, List.mem_singleton] at hu
      subst hu
      exact Option.isSome_of_eq_some hresult
  | none =>
      rw [hresult] at h
      by_cases hu : u = .submission number
      · subst hu
        have htold : ((m.submissions.modify number fun task =>
            { task with waiter := some me })[number]?.bind Task.waiter) = some t := h
        simp only [Array.getElem?_modify, if_true, Option.bind_map] at htold
        obtain ⟨task, -, hme⟩ := Option.bind_eq_some_iff.mp htold
        exact .begins (Option.some.inj hme).symm rfl rfl (List.mem_singleton_self _)
      · refine .before ?_ fun _ l hl hmem => ?_
        · cases u with
          | submission other =>
              have hne : number ≠ other := fun hn => hu (congrArg _ hn.symm)
              have htold : ((m.submissions.modify number fun task =>
                  { task with waiter := some me })[other]?.bind Task.waiter) = some t := h
              rwa [Array.getElem?_modify, if_neg hne] at htold
          | _ => exact h
        · rw [hidle hl, List.mem_singleton] at hmem
          exact absurd hmem hu

/-! ## All effects -/

theorem heir?_pollSlot (me : TaskId) (wait : Wait) : (m.pollSlot me wait).machine.heir? = m.heir? := by
  have hslots (slots : Gate TaskId) : { m with slots }.heir? = m.heir? := by
    funext u
    cases u <;> rfl
  unfold pollSlot
  cases wait <;> dsimp only <;> split <;> exact hslots _

theorem heir?_releaseSlot (m : Machine) : m.releaseSlot.heir? = m.heir? := by
  have hwake : m.releaseSlot.heir? = { m with slots := m.slots.release.1 }.heir? :=
    heir?_of_desk (desk_wakeIfSome _ _)
  rw [hwake]
  funext u
  cases u <;> rfl

theorem awaits_acquireSlot (wait : Wait) : Effect.acquireSlot.awaits wait = none := by
  cases wait <;> rfl

theorem awaits_releaseSlot (wait : Wait) : Effect.releaseSlot.awaits wait = none := by
  cases wait <;> rfl

/-- Whoever is told about the end of a task after a poll was told before, or has to wait for it. -/
theorem tells_poll {me u t : TaskId} {wait : Wait} {e : Effect}
    (h : (m.poll me wait e).machine.heir? u = some t) :
    m.Tells me wait e (m.poll me wait e).turn u t := by
  cases e with
  | join run policy group bs => exact tells_pollJoin h
  | settle run token => exact tells_pollSettle h
  | acquireSlot => exact .of_same h (heir?_pollSlot me wait) (awaits_acquireSlot wait)
  | releaseSlot => exact .of_same h (heir?_releaseSlot m) (awaits_releaseSlot wait)
  | awaitRun number => exact tells_pollRun h
  | _ =>
      refine .of_same h (heir?_of_desk (m.desk_poll me wait ?_ ?_ ?_ ?_ ?_)) (by cases wait <;> rfl)
      all_goals nofun

end Machine
end FlowEngine
