import FlowEngine.Proofs.Run.Residence

/-!
# Branches and those that wait for them

Every branch that has not ended is waited for: by the join that started it, by a task
that settles, or it is left to its run. Who settles was not cancelled at a time when
the branch was, and a join is older than its branches and in a scope above theirs.
So nobody waits in a circle, and when the owner of a run has waited for all branches
of the run, they have ended.
-/
namespace FlowEngine

def TaskState.held {α : Type} : TaskState α → List Nat
  | active (.perform (.join _ _ _ _) _) (.branches tasks) => tasks
  | active (.perform (.settle _ _) _) (.stragglers tasks _) => tasks
  | _ => []

@[simp] theorem TaskState.held_fresh {α : Type} (p : Program α) : (active p .fresh).held = [] := by
  unfold held
  split <;> simp_all

namespace Outline

def held (o : Outline) (t : TaskId) : List Nat := (o.task? t).elim [] TaskState.held

theorem held_of_task? {o : Outline} {t : TaskId} {state : TaskState t.Result}
    (h : o.task? t = some state) : o.held t = state.held := by
  rw [held, h]
  rfl

theorem held_cases {o : Outline} {t : TaskId} {n : Nat} (h : n ∈ o.held t) :
    (∃ run policy group bs next tasks,
      o.task? t = some (.active (.perform (.join run policy group bs) next) (.branches tasks)) ∧
      n ∈ tasks) ∨
    ∃ run token next tasks count,
      o.task? t = some (.active (.perform (.settle run token) next) (.stragglers tasks count)) ∧
      n ∈ tasks := by
  unfold held at h
  cases ht : o.task? t with
  | none =>
      rw [ht] at h
      cases h
  | some state =>
      rw [ht, Option.elim_some] at h
      unfold TaskState.held at h
      split at h
      · exact Or.inl ⟨_, _, _, _, _, _, rfl, h⟩
      · exact Or.inr ⟨_, _, _, _, _, rfl, h⟩
      · cases h

end Outline

namespace Residence

def BranchOf (o : Outline) (place : TaskId → Residence) (number run : Nat) (base : Token) : Prop :=
  number < o.branches.length ∧ (place (.branch number)).home? = some ⟨run, base, false⟩

def Settles (o : Outline) (place : TaskId → Residence) (cancelled : List Token) (t : TaskId)
    (run n : Nat) : Prop :=
  ∃ base home, BranchOf o place n run base ∧ base.isCancelled cancelled = true ∧
    (place t).home? = some home ∧ home.run = run ∧ (home.owner = false →
      ∃ older, older <:+ cancelled ∧ base.isCancelled older = true ∧
        home.base.isCancelled older = false)

structure Holds (o : Outline) (place : TaskId → Residence) : Prop where
  opened {t : TaskId} {home : Home} : (place t).home? = some home → home.run < o.runs.length
  housed {n : Nat} : n < o.branches.length → ∃ run base, BranchOf o place n run base
  rooted {t : TaskId} {home : Home} : (∀ n, t ≠ .branch n) → (place t).home? = some home →
    home.owner = true
  owner {t u : TaskId} {home home' : Home} : (place t).home? = some home →
    (place u).home? = some home' → home.owner = true → home'.owner = true →
    home.run = home'.run → t = u
  joined {t : TaskId} {run : Nat} {policy : JoinPolicy} {group : Token} {bs : List Branch}
    {next : Except Failure (List BranchOutcome) → Program t.Result} {tasks : List Nat} {n : Nat} :
    o.task? t = some (.active (.perform (.join run policy group bs) next) (.branches tasks)) →
    n ∈ tasks → BranchOf o place n run group ∧ (∀ m, t = .branch m → m < n) ∧
      ∃ home, (place t).home? = some home ∧ home.run = run ∧ home.base.covers group = true
  settling {t : TaskId} {run : Nat} {token : Option Token}
    {next : Except Failure Nat → Program t.Result} {tasks : List Nat} {count n : Nat} :
    o.task? t = some (.active (.perform (.settle run token) next) (.stragglers tasks count)) →
    n ∈ tasks → Settles o place o.cancelled t run n
  left {run n : Nat} : n ∈ o.stragglers run →
    ∃ base, BranchOf o place n run base ∧ base.isCancelled o.cancelled = true
  kept {n run : Nat} {base : Token} : BranchOf o place n run base → ¬ o.Ended n →
    n ∈ o.stragglers run ∨ ∃ t, n ∈ o.held t
  drained {t : TaskId} {home : Home} : place t = .drained home → home.owner = true ∧
    ∀ n base, BranchOf o place n home.run base → o.Ended n

variable {o o' : Outline} {place place' : TaskId → Residence}

theorem ended_or_active {n : Nat} (h : n < o.branches.length) :
    o.Ended n ∨ ∃ p w, o.task? (.branch n) = some (.active p w) := by
  have hget : o.branches[n]? = some o.branches[n] := List.getElem?_eq_getElem h
  cases hs : o.branches[n] with
  | active p w =>
      refine Or.inr ⟨p, w, ?_⟩
      rw [Outline.task?, hget, hs]
  | ended r k =>
      refine Or.inl ?_
      simp [Outline.Ended, Outline.branchResult?, hget, hs, TaskState.result?]

theorem not_ended_of_active {n : Nat} {p : Program (Except Failure Json)} {w : Wait}
    (h : o.task? (.branch n) = some (.active p w)) : ¬ o.Ended n := by
  simp only [Outline.task?] at h
  simp [Outline.Ended, Outline.branchResult?, h, TaskState.result?]

theorem branchOf_unique {n run run' : Nat} {base base' : Token}
    (h : BranchOf o place n run base) (h' : BranchOf o place n run' base') :
    run = run' ∧ base = base' := by
  have := h.2.symm.trans h'.2
  simpa using this

/-- The branches that a branch waits for are of the same run: they are newer and in a scope below,
or they were cancelled at a time when the branch was not. -/
theorem Holds.waits (hh : Holds o place) {m n run : Nat} {above : Token}
    (hm : BranchOf o place m run above) (hn : n ∈ o.held (.branch m)) :
    ∃ base, BranchOf o place n run base ∧ (m < n ∧ above.covers base = true ∨
      ∃ older, older <:+ o.cancelled ∧ base.isCancelled older = true ∧
        above.isCancelled older = false) := by
  rcases Outline.held_cases hn with ⟨run', policy, group, bs, next, tasks, hs, hmem⟩ |
    ⟨run', token, next, tasks, count, hs, hmem⟩
  · obtain ⟨hb, hless, home, hhome, hrun, hcovers⟩ := hh.joined hs hmem
    cases hm.2.symm.trans hhome
    cases hrun
    exact ⟨group, hb, Or.inl ⟨hless m rfl, hcovers⟩⟩
  · obtain ⟨base, home, hb, -, hhome, hrun, holder⟩ := hh.settling hs hmem
    cases hm.2.symm.trans hhome
    cases hrun
    exact ⟨base, hb, Or.inr (holder rfl)⟩

/-- A task that waits for a branch owns the run of the branch, or it is a branch of the
run itself: an older one in a scope above, or one that was not cancelled yet when the
other was. -/
theorem Holds.waiter (hh : Holds o place) {t : TaskId} {n run : Nat} {base : Token}
    (ht : n ∈ o.held t) (hn : BranchOf o place n run base) :
    (∃ home, (place t).home? = some home ∧ home.owner = true ∧ home.run = run) ∨
      ∃ m above, BranchOf o place m run above ∧ ¬ o.Ended m ∧
        (m < n ∧ above.covers base = true ∨ ∃ older, older <:+ o.cancelled ∧
          base.isCancelled older = true ∧ above.isCancelled older = false) := by
  have hroot (hb : ∀ m, t ≠ .branch m) :
      ∃ home, (place t).home? = some home ∧ home.owner = true ∧ home.run = run := by
    rcases Outline.held_cases ht with ⟨run', policy, group, bs, next, tasks, hs, hmem⟩ |
      ⟨run', token, next, tasks, count, hs, hmem⟩
    · obtain ⟨hn', -, home, hhome, hrun, -⟩ := hh.joined hs hmem
      exact ⟨home, hhome, hh.rooted hb hhome, hrun.trans (branchOf_unique hn' hn).1⟩
    · obtain ⟨base', home, hn', -, hhome, hrun, -⟩ := hh.settling hs hmem
      exact ⟨home, hhome, hh.rooted hb hhome, hrun.trans (branchOf_unique hn' hn).1⟩
  cases t with
  | branch m =>
      have hactive : ∃ p w, o.task? (.branch m) = some (.active p w) := by
        rcases Outline.held_cases ht with ⟨_, _, _, _, _, _, hs, -⟩ | ⟨_, _, _, _, _, hs, -⟩
        · exact ⟨_, _, hs⟩
        · exact ⟨_, _, hs⟩
      obtain ⟨p, w, hs⟩ := hactive
      obtain ⟨run', above, hm⟩ := hh.housed (List.getElem?_eq_some_iff.mp hs).1
      obtain ⟨base', hn', hwaits⟩ := hh.waits hm ht
      obtain ⟨rfl, rfl⟩ := branchOf_unique hn hn'
      exact Or.inr ⟨m, above, hm, not_ended_of_active hs, hwaits⟩
  | _ => exact Or.inl (hroot (by simp))

/-- When the owner of a run waits for no branch and none is left to the run, then all
branches of the run have ended. -/
theorem Holds.all_ended (hh : Holds o place) {t : TaskId} {home : Home}
    (ht : (place t).home? = some home) (howner : home.owner = true)
    (hheld : ∀ n ∈ o.held t, o.Ended n) (hleft : ∀ n ∈ o.stragglers home.run, o.Ended n)
    {n : Nat} {base : Token} (hn : BranchOf o place n home.run base) : o.Ended n := by
  have hall (k : Nat) : ∀ n base, BranchOf o place n home.run base →
      base.isCancelled (o.cancelled.drop k) = false → o.Ended n := by
    induction k using Nat.strongRecOn with
    | ind k ihk =>
        intro n
        induction n using Nat.strongRecOn with
        | ind n ihn =>
            intro base hn hbase
            by_contra hnot
            rcases hh.kept hn hnot with hm | ⟨u, hu⟩
            · exact hnot (hleft n hm)
            · rcases hh.waiter hu hn with ⟨home', hhome, howner', hrun⟩ |
                ⟨m, above, hm, hactive, ⟨hless, hcovers⟩ | ⟨older, hsuffix, hold, hnew⟩⟩
              · obtain rfl := hh.owner hhome ht howner' howner hrun
                exact hnot (hheld n hu)
              · refine hactive (ihn m hless above hm ?_)
                by_contra hc
                rw [Bool.not_eq_false] at hc
                rw [Token.isCancelled_of_covers hcovers hc] at hbase
                cases hbase
              · rw [List.suffix_iff_eq_drop] at hsuffix
                rw [hsuffix] at hold hnew
                refine hactive (ihk _ ?_ m above hm hnew)
                by_contra hle
                have hdrop := List.drop_suffix_drop_left o.cancelled (Nat.le_of_not_lt hle)
                rw [Token.isCancelled_mono hdrop hold] at hbase
                cases hbase
  exact hall o.cancelled.length n base hn (by simp [Token.isCancelled])

/-- When every branch of a run in certain scopes that has not ended waits for another branch that has
not ended, then all branches in these scopes have ended: nobody waits in a circle. The scopes include
those that are cancelled, and those below them. -/
theorem Holds.ended_of_waits (hh : Holds o place) {run : Nat} {Q : Token → Prop}
    (hbelow : ∀ above base, Q above → above.covers base = true → Q base)
    (hcancelled : ∀ base, base.isCancelled o.cancelled = true → Q base)
    (hall : ∀ m base, BranchOf o place m run base → Q base → ¬ o.Ended m →
      ∃ n ∈ o.held (.branch m), ¬ o.Ended n) {n : Nat} {base : Token}
    (hn : BranchOf o place n run base) (hbase : Q base) : o.Ended n := by
  have hage (d k : Nat) (hd : o.cancelled.length < k + d) : ∀ m above, BranchOf o place m run above →
      Q above → (∀ i < k, above.isCancelled (o.cancelled.drop i) = true) → o.Ended m := by
    induction d generalizing k with
    | zero =>
        intro m above hm _ hold
        have hnever := hold o.cancelled.length (by omega)
        simp [Token.isCancelled] at hnever
    | succ d ihd =>
        have hnumber (j m : Nat) (hj : o.branches.length ≤ m + j) : ∀ above,
            BranchOf o place m run above → Q above →
            (∀ i < k, above.isCancelled (o.cancelled.drop i) = true) → o.Ended m := by
          induction j generalizing m with
          | zero =>
              intro above hm
              have hlt := hm.1
              omega
          | succ j ihj =>
              intro above hm hQ hold
              by_contra hnot
              obtain ⟨n, hheld, hunended⟩ := hall m above hm hQ hnot
              obtain ⟨base, hn, ⟨hless, hcovers⟩ | ⟨older, hsuffix, hbase, habove⟩⟩ :=
                hh.waits hm hheld
              · exact hunended (ihj n (by omega) base hn (hbelow _ _ hQ hcovers) fun i hi =>
                  Token.isCancelled_of_covers hcovers (hold i hi))
              · refine hunended (ihd (k + 1) (by omega) n base hn
                  (hcancelled base (Token.isCancelled_mono hsuffix hbase)) fun i hi => ?_)
                rw [List.suffix_iff_eq_drop] at hsuffix
                have hlate : k ≤ o.cancelled.length - older.length := by
                  by_contra hlt
                  have hcancelled := hold _ (Nat.lt_of_not_le hlt)
                  rw [← hsuffix, habove] at hcancelled
                  cases hcancelled
                have hle : i ≤ o.cancelled.length - older.length := by omega
                have hdrop := List.drop_suffix_drop_left o.cancelled hle
                rw [← hsuffix] at hdrop
                exact Token.isCancelled_mono hdrop hbase
        exact fun m above hm hQ hold => hnumber o.branches.length m (by omega) above hm hQ hold
  exact hage (o.cancelled.length + 1) 0 (by omega) n base hn hbase nofun

/-! ## What keeps the invariant -/

theorem Settles.mono {cancelled cancelled' : List Token} {t : TaskId} {run n : Nat}
    (h : Settles o place cancelled t run n) (hc : cancelled <:+ cancelled') :
    Settles o place cancelled' t run n := by
  obtain ⟨base, home, hb, hbase, hhome, hrun, holder⟩ := h
  refine ⟨base, home, hb, Token.isCancelled_mono hc hbase, hhome, hrun, fun howner => ?_⟩
  obtain ⟨older, hsuffix, hold⟩ := holder howner
  exact ⟨older, hsuffix.trans hc, hold⟩

/-- The invariant is kept when no branch is added and no task enters a run, if what is
waited for still is. -/
theorem Holds.rebuild (hh : Holds o place) (hlen : o'.branches.length = o.branches.length)
    (hends : ∀ n, o.Ended n → o'.Ended n)
    (hhome : ∀ t, (place' t).home? = (place t).home? ∨
      (place' t).home? = none ∧ (∀ n, t ≠ .branch n) ∧ o'.held t = [])
    (hcancel : o.cancelled <:+ o'.cancelled) (hruns : o.runs.length ≤ o'.runs.length)
    (hwait : ∀ t, o'.task? t = o.task? t ∨ ∀ n ∈ o'.held t, ∃ run token next tasks count,
      o'.task? t = some (.active (.perform (.settle run token) next) (.stragglers tasks count)) ∧
        Settles o place o'.cancelled t run n)
    (hleft : ∀ run n, n ∈ o'.stragglers run →
      ∃ base, BranchOf o place n run base ∧ base.isCancelled o'.cancelled = true)
    (hkept : ∀ n run base, BranchOf o place n run base → ¬ o'.Ended n →
      (n ∈ o.stragglers run ∨ ∃ t, n ∈ o.held t) → n ∈ o'.stragglers run ∨ ∃ t, n ∈ o'.held t)
    (hdrained : ∀ t home, place' t = .drained home → home.owner = true ∧
      ∀ n base, BranchOf o place n home.run base → o'.Ended n) : Holds o' place' := by
  have hbranch {n run : Nat} {base : Token} :
      BranchOf o' place' n run base ↔ BranchOf o place n run base := by
    unfold BranchOf
    rw [hlen]
    rcases hhome (.branch n) with h | ⟨-, h, -⟩
    · rw [h]
    · exact absurd rfl (h n)
  have hold {t : TaskId} {home : Home} (h : (place' t).home? = some home) :
      (place t).home? = some home := by
    rcases hhome t with ht | ⟨ht, -, -⟩
    · rwa [ht] at h
    · rw [ht] at h
      cases h
  have hnew {t : TaskId} {n : Nat} {home : Home} (hn : n ∈ o'.held t)
      (h : (place t).home? = some home) : (place' t).home? = some home := by
    rcases hhome t with ht | ⟨-, -, ht⟩
    · rwa [ht]
    · rw [ht] at hn
      cases hn
  constructor
  · intro t home h
    exact Nat.lt_of_lt_of_le (hh.opened (hold h)) hruns
  · intro n hn
    obtain ⟨run, base, hb⟩ := hh.housed (hlen ▸ hn)
    exact ⟨run, base, hbranch.mpr hb⟩
  · intro t home ht h
    exact hh.rooted ht (hold h)
  · intro t u home home' ht hu
    exact hh.owner (hold ht) (hold hu)
  · intro t run policy group bs next tasks n ht hn
    have hheld : n ∈ o'.held t := by rwa [Outline.held_of_task? ht]
    rcases hwait t with hsame | hs
    · obtain ⟨hb, hless, home, hthome, hrun, hcovers⟩ := hh.joined (hsame ▸ ht) hn
      exact ⟨hbranch.mpr hb, hless, home, hnew hheld hthome, hrun, hcovers⟩
    · obtain ⟨_, _, _, _, _, ht', -⟩ := hs n hheld
      cases ht.symm.trans ht'
  · intro t run token next tasks count n ht hn
    have hheld : n ∈ o'.held t := by rwa [Outline.held_of_task? ht]
    have hs : Settles o place o'.cancelled t run n := by
      rcases hwait t with hsame | hs
      · exact (hh.settling (hsame ▸ ht) hn).mono hcancel
      · obtain ⟨_, _, _, _, _, ht', hs⟩ := hs n hheld
        cases ht.symm.trans ht'
        exact hs
    obtain ⟨base, home, hb, hbase, hthome, hrest⟩ := hs
    exact ⟨base, home, hbranch.mpr hb, hbase, hnew hheld hthome, hrest⟩
  · intro run n hn
    obtain ⟨base, hb, hbase⟩ := hleft run n hn
    exact ⟨base, hbranch.mpr hb, hbase⟩
  · intro n run base hb hn
    have hb' := hbranch.mp hb
    exact hkept n run base hb' hn (hh.kept hb' fun he => hn (hends n he))
  · intro t home ht
    obtain ⟨howner, hall⟩ := hdrained t home ht
    exact ⟨howner, fun n base hb => hall n base (hbranch.mp hb)⟩

/-- The invariant is kept when nothing happens to branches and those who wait for them. -/
theorem Holds.calm (hh : Holds o place) (hlen : o'.branches.length = o.branches.length)
    (hends : ∀ n, o.Ended n → o'.Ended n)
    (hhome : ∀ t, (place' t).home? = (place t).home? ∨
      (place' t).home? = none ∧ (∀ n, t ≠ .branch n) ∧ o'.held t = [])
    (hcancel : o.cancelled <:+ o'.cancelled) (hruns : o.runs.length ≤ o'.runs.length)
    (hleft : ∀ run, o'.stragglers run = o.stragglers run)
    (hwait : ∀ t, o'.task? t = o.task? t ∨ o'.held t = [] ∧ o.held t = [])
    (hdrained : ∀ t home, place' t = .drained home → place t = .drained home) :
    Holds o' place' := by
  refine hh.rebuild hlen hends hhome hcancel hruns (fun t => ?_) (fun run n hn => ?_)
    (fun n run base hb hn hk => ?_) fun t home ht => ?_
  · refine (hwait t).imp id fun h n hn => ?_
    rw [h.1] at hn
    cases hn
  · rw [hleft] at hn
    obtain ⟨base, hb, hbase⟩ := hh.left hn
    exact ⟨base, hb, Token.isCancelled_mono hcancel hbase⟩
  · rw [hleft]
    refine hk.imp id ?_
    rintro ⟨t, ht⟩
    refine ⟨t, ?_⟩
    rcases hwait t with h | ⟨-, h⟩
    · rwa [Outline.held, h]
    · rw [h] at ht
      cases ht
  · obtain ⟨howner, hall⟩ := hh.drained (hdrained t home ht)
    exact ⟨howner, fun n base hb => hends n (hall n base hb)⟩

variable {o₁ : Outline}

theorem ended_of_branches (h : o'.branches = o.branches) {n : Nat} (hn : o.Ended n) :
    o'.Ended n := by
  unfold Outline.Ended Outline.branchResult? at hn ⊢
  rwa [h]

/-- A task other than a branch goes on, or a branch does, without having ended. -/
theorem ended_of_setTask {t : TaskId} {p q : Program t.Result} {w w' : Wait}
    (ht : o.task? t = some (.active p w)) {n : Nat} (hn : o.Ended n) :
    (o.setTask t (.active q w')).Ended n := by
  cases t with
  | branch m =>
      have hne : m ≠ n := by
        rintro rfl
        exact not_ended_of_active ht hn
      unfold Outline.Ended Outline.branchResult? at hn ⊢
      rwa [Outline.setTask, List.getElem?_modify_ne _ _ hne]
  | _ => exact hn

theorem ended_spawn {programs : List (Program (Except Failure Json))} {n : Nat}
    (hn : o.Ended n) : (o.spawn programs).Ended n := by
  unfold Outline.Ended Outline.branchResult? at hn ⊢
  cases hs : o.branches[n]? with
  | none =>
      rw [hs] at hn
      cases hn
  | some state =>
      rw [hs] at hn
      rw [Outline.spawn, List.getElem?_append_left (List.getElem?_eq_some_iff.mp hs).1, hs]
      exact hn

theorem ended_of_setTask_ended (t : TaskId) (a : t.Result) (order : Nat) {n : Nat}
    (hn : o.Ended n) : (o.setTask t (.ended a order)).Ended n := by
  cases t with
  | branch m =>
      unfold Outline.Ended Outline.branchResult? at hn ⊢
      rw [Outline.setTask, List.getElem?_modify]
      cases hs : o.branches[n]? with
      | none =>
          rw [hs] at hn
          cases hn
      | some state =>
          rw [hs] at hn
          by_cases hm : m = n
          · simp [hm, TaskState.result?]
          · simpa [hm] using hn
  | _ => exact hn

theorem held_of_calm {t : TaskId} {e : Effect} {next : e.Answer → Program t.Result} {w : Wait}
    (ht : o.task? t = some (.active (.perform e next) w))
    (hj : ∀ run policy group bs, e ≠ .join run policy group bs)
    (hs : ∀ run token, e ≠ .settle run token) : o.held t = [] := by
  rw [Outline.held_of_task? ht]
  cases e with
  | join run policy group bs => exact absurd rfl (hj _ _ _ _)
  | settle run token => exact absurd rfl (hs _ _)
  | _ => rfl

/-- The running task performs an effect that concerns nobody who waits. -/
theorem Holds.goOn (hh : Holds o place) {t : TaskId} {e : Effect}
    {next : e.Answer → Program t.Result} {w w' : Wait} {p : Program t.Result} {u : Residence}
    {turn : Turn e.Answer} (ht : o.task? t = some (.active (.perform e next) w))
    (polls : o.Polls w o₁ e turn)
    (hj : ∀ run policy group bs, e ≠ .join run policy group bs)
    (hs : ∀ run token, e ≠ .settle run token) (ho : ∀ flow parent, e ≠ .openRun flow parent)
    (hp : (TaskState.active p w').held = [])
    (hu : u.home? = (place t).home? ∨ u.home? = none ∧ ∀ n, t ≠ .branch n)
    (hd : ∀ home, u = .drained home → place t = .drained home) {running : Option TaskId} :
    Holds { o₁.setTask t (.active p w') with running } (Function.update place t u) := by
  obtain ⟨hb, hc, hr, hl⟩ := polls.calm hj hs ho
  have ht₁ := polls.task? ht
  have hheld : ({ o₁.setTask t (.active p w') with running } : Outline).held t = [] := by
    have hself : ({ o₁.setTask t (.active p w') with running } : Outline).task? t =
        some (.active p w') := o₁.task?_setTask_self _ (by rw [ht₁]; rfl)
    rw [Outline.held_of_task? hself]
    exact hp
  refine hh.calm ?_ (fun n hn => ended_of_setTask ht₁ (ended_of_branches hb hn)) (fun v => ?_)
    ?_ ?_ (fun run => ?_) (fun v => ?_) fun v home hv => ?_
  · exact (o₁.setTask_branches_length _).trans (congrArg List.length hb)
  · by_cases hvt : v = t
    · subst hvt
      rw [Function.update_self]
      exact hu.imp id fun h => ⟨h.1, h.2, hheld⟩
    · exact Or.inl (by rw [Function.update_of_ne hvt])
  · rw [← hc]
    exact (o₁.setTask_cancelled _).symm ▸ List.suffix_rfl
  · rw [hr]
    exact Nat.le_of_eq (congrArg List.length (o₁.setTask_runs _).symm)
  · exact (o₁.setTask_stragglers _ run).trans (hl run)
  · by_cases hvt : v = t
    · subst hvt
      exact Or.inr ⟨hheld, held_of_calm ht hj hs⟩
    · exact Or.inl ((o₁.task?_setTask_of_ne _ hvt).trans (polls.task?_of_ne_join hj v))
  · by_cases hvt : v = t
    · subst hvt
      rw [Function.update_self] at hv
      exact hd home hv
    · rwa [Function.update_of_ne hvt] at hv

theorem Holds.settles (hh : Holds o place) {t : TaskId} {run : Nat} {token : Option Token}
    {next : Except Failure Nat → Program t.Result} {w : Wait} {n : Nat}
    (ht : o.task? t = some (.active (.perform (.settle run token) next) w))
    (hn : n ∈ o.held t) : Settles o place o.cancelled t run n := by
  rcases Outline.held_cases hn with ⟨_, _, _, _, _, _, hs, -⟩ | ⟨_, _, _, _, _, hs, hm⟩
  · cases ht.symm.trans hs
  · cases ht.symm.trans hs
    exact hh.settling hs hm

/-- A task goes on, other branches are left to one run than before, and scopes may be
cancelled. -/
structure Hands (o o' : Outline) (t : TaskId) (q : Program t.Result) (w : Wait) (run : Nat)
    (g : List Nat → List Nat) : Prop where
  self : o'.task? t = some (.active q w)
  other {v : TaskId} : v ≠ t → o'.task? v = o.task? v
  length : o'.branches.length = o.branches.length
  ends (n : Nat) : o.Ended n → o'.Ended n
  mine : o'.stragglers run = g (o.stragglers run)
  left {r : Nat} : r ≠ run → o'.stragglers r = o.stragglers r
  cancelled : o.cancelled <:+ o'.cancelled
  runs : o.runs.length ≤ o'.runs.length

theorem hands {t : TaskId} {p q : Program t.Result} {w w' : Wait} {run : Nat}
    {g : List Nat → List Nat} {cancelled : List Token} (ht : o.task? t = some (.active p w))
    (hrun : run < o.runs.length) (hc : o.cancelled <:+ cancelled) :
    Hands o ((({ o with cancelled } : Outline).modifyRun run fun r => { r with
      stragglers := g r.stragglers }).setTask t (.active q w')) t q w' run g where
  self := Outline.task?_setTask_self _ _ (by change (o.task? t).isSome; rw [ht]; rfl)
  other hv := Outline.task?_setTask_of_ne _ _ hv
  length := Outline.setTask_branches_length _ _
  ends n hn := ended_of_setTask (o := ({ o with cancelled } : Outline).modifyRun run _) ht hn
  mine := (Outline.setTask_stragglers _ _ _).trans
    (Outline.stragglers_modifyRun_self _ (fun _ => rfl) hrun)
  left hr := (Outline.setTask_stragglers _ _ _).trans (Outline.stragglers_modifyRun_of_ne _ _ hr)
  cancelled := (Outline.setTask_cancelled _ _).symm ▸ hc
  runs := Nat.le_of_eq (by rw [Outline.setTask_runs, Outline.modifyRun_length])

theorem Hands.running {t : TaskId} {q : Program t.Result} {w : Wait} {run : Nat}
    {g : List Nat → List Nat} (H : Hands o o' t q w run g) (running : Option TaskId) :
    Hands o { o' with running } t q w run g :=
  ⟨H.self, H.other, H.length, H.ends, H.mine, H.left, H.cancelled, H.runs⟩

/-- A branch that was left to a run or waited for still is, if those of the task that goes
on are left to its run or waited for. -/
theorem Hands.kept {t : TaskId} {home : Home} {q : Program t.Result} {w : Wait}
    {g : List Nat → List Nat} {n run : Nat} {base : Token} (H : Hands o o' t q w home.run g)
    (hheld : ∀ n ∈ o.held t, ∃ base, BranchOf o place n home.run base)
    (hkept : n ∈ o.stragglers home.run ∨ n ∈ o.held t →
      n ∈ g (o.stragglers home.run) ∨ n ∈ (TaskState.active q w).held)
    (hb : BranchOf o place n run base) (hk : n ∈ o.stragglers run ∨ ∃ v, n ∈ o.held v) :
    n ∈ o'.stragglers run ∨ ∃ v, n ∈ o'.held v := by
  have hmine (hm : n ∈ o.stragglers home.run ∨ n ∈ o.held t) (hrun : run = home.run) :
      n ∈ o'.stragglers run ∨ ∃ v, n ∈ o'.held v := by
    rw [hrun, H.mine]
    exact (hkept hm).imp id fun hm => ⟨t, by rwa [Outline.held_of_task? H.self]⟩
  rcases hk with hm | ⟨v, hm⟩
  · by_cases hrun : run = home.run
    · exact hmine (Or.inl (hrun ▸ hm)) hrun
    · rw [H.left hrun]
      exact Or.inl hm
  · by_cases hvt : v = t
    · subst hvt
      obtain ⟨_, hb'⟩ := hheld n hm
      exact hmine (Or.inr hm) (branchOf_unique hb hb').1
    · exact Or.inr ⟨v, by rwa [Outline.held, H.other hvt]⟩

/-- The invariant is kept when branches of a run pass from the task that goes on to the run,
if they are cancelled, or from the run to the task, if it settles the run. -/
theorem Holds.handOver (hh : Holds o place) {t : TaskId} {home : Home} {q : Program t.Result}
    {w : Wait} {u : Residence} {g : List Nat → List Nat} (H : Hands o o' t q w home.run g)
    (hhome : (place t).home? = some home) (hu : u.home? = some home)
    (hg : ∀ n ∈ g (o.stragglers home.run), n ∈ o.stragglers home.run ∨
      ∃ base, BranchOf o place n home.run base ∧ base.isCancelled o'.cancelled = true)
    (hheld : ∀ n ∈ o.held t, ∃ base, BranchOf o place n home.run base)
    (hsettles : ∀ n ∈ (TaskState.active q w).held, Settles o place o'.cancelled t home.run n ∧
      ∃ token next tasks count, q = .perform (.settle home.run token) next ∧
        w = .stragglers tasks count)
    (hkept : ∀ n, ¬ o.Ended n → n ∈ o.stragglers home.run ∨ n ∈ o.held t →
      n ∈ g (o.stragglers home.run) ∨ n ∈ (TaskState.active q w).held)
    (hd : ∀ home', u = .drained home' → home' = home ∧ home.owner = true ∧
      ∀ n base, BranchOf o place n home.run base → o.Ended n) :
    Holds o' (Function.update place t u) := by
  refine hh.rebuild H.length H.ends (fun v => ?_) H.cancelled H.runs (fun v => ?_)
    (fun run n hn => ?_) (fun n run base hb hn hk => ?_) fun v home' hv => ?_
  · by_cases hvt : v = t
    · subst hvt
      exact Or.inl (by rw [Function.update_self, hu, hhome])
    · exact Or.inl (by rw [Function.update_of_ne hvt])
  · by_cases hvt : v = t
    · subst hvt
      refine Or.inr fun n hn => ?_
      rw [Outline.held_of_task? H.self] at hn
      obtain ⟨hs, token, next, tasks, count, rfl, rfl⟩ := hsettles n hn
      exact ⟨home.run, token, next, tasks, count, H.self, hs⟩
    · exact Or.inl (H.other hvt)
  · have hold (hm : n ∈ o.stragglers run) :
        ∃ base, BranchOf o place n run base ∧ base.isCancelled o'.cancelled = true := by
      obtain ⟨base, hb, hbase⟩ := hh.left hm
      exact ⟨base, hb, Token.isCancelled_mono H.cancelled hbase⟩
    by_cases hrun : run = home.run
    · subst hrun
      rw [H.mine] at hn
      exact (hg n hn).elim hold id
    · exact hold (by rwa [H.left hrun] at hn)
  · exact H.kept hheld (hkept n fun he => hn (H.ends n he)) hb hk
  · by_cases hvt : v = t
    · subst hvt
      rw [Function.update_self] at hv
      obtain ⟨rfl, howner, hall⟩ := hd home' hv
      exact ⟨howner, fun n base hb => H.ends n (hall n base hb)⟩
    · rw [Function.update_of_ne hvt] at hv
      obtain ⟨howner, hall⟩ := hh.drained hv
      exact ⟨howner, fun n base hb => H.ends n (hall n base hb)⟩

/-- A task that settles the branches of its run exchanges branches that it waits for
with ones that are left to the run. -/
theorem Holds.exchange (hh : Holds o place) {t : TaskId} {home : Home} {token : Option Token}
    {next : Except Failure Nat → Program t.Result} {w w' : Wait} {p : Program t.Result}
    {u : Residence} {g : List Nat → List Nat}
    (ht : o.task? t = some (.active (.perform (.settle home.run token) next) w))
    (hhome : (place t).home? = some home) (hu : u.home? = some home)
    (hg : ∀ n ∈ g (o.stragglers home.run), n ∈ o.stragglers home.run ∨ n ∈ o.held t)
    (hheld : ∀ n ∈ (TaskState.active p w').held, Settles o place o.cancelled t home.run n ∧
      ∃ token next tasks count, p = .perform (.settle home.run token) next ∧
        w' = .stragglers tasks count)
    (hkept : ∀ n, ¬ o.Ended n → n ∈ o.stragglers home.run ∨ n ∈ o.held t →
      n ∈ g (o.stragglers home.run) ∨ n ∈ (TaskState.active p w').held)
    (hd : ∀ home', u = .drained home' → home' = home ∧ home.owner = true ∧
      ∀ n base, BranchOf o place n home.run base → o.Ended n) {running : Option TaskId} :
    Holds { (o.modifyRun home.run fun r => { r with stragglers := g r.stragglers }).setTask t
      (.active p w') with running } (Function.update place t u) := by
  have H : Hands o _ t p w' home.run g := hands ht (hh.opened hhome) List.suffix_rfl
  have hcancelled : Outline.cancelled ((o.modifyRun home.run fun r => { r with
      stragglers := g r.stragglers }).setTask t (.active p w')) = o.cancelled :=
    Outline.setTask_cancelled _ _
  have hsettles {n : Nat} (hn : n ∈ o.held t) :
      ∃ base, BranchOf o place n home.run base ∧ base.isCancelled o.cancelled = true := by
    obtain ⟨base, _, hb, hbase, -⟩ := hh.settles ht hn
    exact ⟨base, hb, hbase⟩
  refine hh.handOver (H.running running) hhome hu (fun n hn => ?_) (fun n hn => ?_) (fun n hn => ?_)
    hkept hd
  · rw [hcancelled]
    exact (hg n hn).imp id hsettles
  · obtain ⟨base, hb, -⟩ := hsettles hn
    exact ⟨base, hb⟩
  · rw [hcancelled]
    exact hheld n hn

/-- A task may only settle its own run, and all of it only if it owns the run. -/
theorem settle_allowed {u : Residence} {run : Nat} {token : Option Token}
    (h : protocol.allows u (.settle run token)) :
    ∃ home, u.home? = some home ∧ run = home.run ∧
      (token = none ∧ home.owner = true ∨
        ∃ t, token = some t ∧ u = inside home ∧ home.base.covers t = true) := by
  cases u with
  | inside home =>
      cases token with
      | none => exact ⟨home, rfl, h.1, Or.inl ⟨rfl, h.2⟩⟩
      | some t => exact ⟨home, rfl, h.1, Or.inr ⟨t, rfl, rfl, h.2⟩⟩
  | drained home =>
      cases token with
      | none => exact ⟨home, rfl, h.1, Or.inl ⟨rfl, h.2⟩⟩
      | some t => exact h.elim
  | _ => exact h.elim

theorem held_settle {α : Type} (run : Nat) (token : Option Token)
    (next : Except Failure Nat → Program α) (w : Wait) :
    (TaskState.active (.perform (.settle run token) next) w).held = w.pending := by
  cases w <;> rfl

theorem Holds.settle_answer (hh : Holds o place) {t : TaskId} {run : Nat} {token : Option Token}
    {next : Except Failure Nat → Program t.Result} {w : Wait} {a : Except Failure Nat}
    (ht : o.task? t = some (.active (.perform (.settle run token) next) w))
    (hallows : protocol.allows (place t) (.settle run token))
    (polls : o.Polls w o₁ (.settle run token) (.answered a)) :
    ∃ u, protocol.moves (place t) (.settle run token) a u ∧
      Holds (o₁.setTask t (.active (next a) .fresh)) (Function.update place t u) := by
  obtain ⟨home, hhome, rfl, hkind⟩ := settle_allowed hallows
  have hpending := held_settle home.run token next w
  rw [← Outline.held_of_task? ht] at hpending
  change o.Settles home.run token w.pending _ o₁ at polls
  rw [← hpending] at polls
  cases polls with
  | settled hp hl =>
      have hall {n : Nat} (h : n ∈ o.stragglers home.run ∨ n ∈ o.held t) : o.Ended n :=
        h.elim (hl n) (hp n)
      rcases hkind with ⟨rfl, howner⟩ | ⟨tk, rfl, hplace, hcovers⟩
      · refine ⟨.drained home, ?_, ?_⟩
        · cases hplace : place t <;> rw [hplace] at hhome <;> cases hhome <;> rfl
        · refine hh.exchange ht hhome rfl (g := fun _ => []) (by simp) (by simp)
            (fun n hn h => absurd (hall h) hn) fun home' hd => ?_
          cases hd
          exact ⟨rfl, howner, fun n base hb => hh.all_ended hhome howner hp hl hb⟩
      · refine ⟨inside home, by rw [hplace]; rfl, ?_⟩
        exact hh.exchange ht hhome rfl (g := fun _ => []) (by simp) (by simp)
          (fun n hn h => absurd (hall h) hn) (by simp)
  | @interruptedFirst ended rest hi split hne he =>
      rcases hkind with ⟨rfl, howner⟩ | ⟨tk, rfl, hplace, hcovers⟩
      · cases hi
      · refine ⟨inside home, by rw [hplace]; rfl, ?_⟩
        refine hh.exchange ht hhome rfl (g := (· ++ rest)) (fun n hn => ?_) (by simp)
          (fun n hn h => Or.inl ?_) (by simp)
        · rw [List.mem_append] at hn
          exact hn.imp id fun hm => split ▸ List.mem_append_right _ hm
        · rw [List.mem_append]
          refine h.imp id fun hm => ?_
          rw [split, List.mem_append] at hm
          exact hm.resolve_left fun hm => hn (he n hm)
  | @interruptedLater ended rest hi hp split he =>
      rcases hkind with ⟨rfl, howner⟩ | ⟨tk, rfl, hplace, hcovers⟩
      · cases hi
      · refine ⟨inside home, by rw [hplace]; rfl, ?_⟩
        refine hh.exchange ht hhome rfl (g := fun _ => rest) (fun n hn => ?_) (by simp)
          (fun n hn h => Or.inl ?_) (by simp)
        · exact Or.inl (split ▸ List.mem_append_right _ hn)
        · have hm := h.resolve_right fun hm => hn (hp n hm)
          rw [split, List.mem_append] at hm
          exact hm.resolve_left fun hm => hn (he n hm)

theorem Holds.settle_wait (hh : Holds o place) {t : TaskId} {run : Nat} {token : Option Token}
    {next : Except Failure Nat → Program t.Result} {w w' : Wait}
    (ht : o.task? t = some (.active (.perform (.settle run token) next) w))
    (hallows : protocol.allows (place t) (.settle run token))
    (polls : o.Polls w o₁ (.settle run token) (.waiting w')) :
    Holds { o₁.setTask t (.active (.perform (.settle run token) next) w') with running := none }
      place := by
  obtain ⟨home, hhome, rfl, hkind⟩ := settle_allowed hallows
  have hpending := held_settle home.run token next w
  rw [← Outline.held_of_task? ht] at hpending
  have hd (home' : Home) (h : place t = .drained home') : home' = home ∧ home.owner = true ∧
      ∀ n base, BranchOf o place n home.run base → o.Ended n := by
    rw [h] at hhome
    cases hhome
    exact ⟨rfl, hh.drained h⟩
  change o.Settles home.run token w.pending _ o₁ at polls
  rw [← hpending] at polls
  rw [← Function.update_eq_self t place]
  cases polls with
  | @waitingFirst ended rest count hi split he =>
      have hid : (o.modifyRun home.run fun r => { r with stragglers := id r.stragglers }) = o := by
        change o.modifyRun home.run id = o
        simp [Outline.modifyRun]
      rw [← hid]
      refine hh.exchange ht hhome hhome (fun n hn => Or.inl hn) (fun n hn => ?_) (fun n hn h => ?_)
        hd
      · refine ⟨hh.settles ht ?_, token, next, rest, count, rfl, rfl⟩
        rw [split]
        exact List.mem_append_right _ hn
      · refine h.imp id fun hm => ?_
        rw [split, List.mem_append] at hm
        exact hm.resolve_left fun hm => hn (he n hm)
  | @waitingLater ended rest count hi hp split he =>
      refine hh.exchange ht hhome hhome (g := fun _ => []) (by simp) (fun n hn => ?_)
        (fun n hn h => Or.inr ?_) hd
      · refine ⟨?_, token, next, rest, count, rfl, rfl⟩
        obtain ⟨base, hb, hbase⟩ := hh.left (split ▸ List.mem_append_right _ hn)
        refine ⟨base, home, hb, hbase, hhome, rfl, fun howner => ⟨o.cancelled, List.suffix_rfl,
          hbase, ?_⟩⟩
        rcases hkind with ⟨rfl, howner'⟩ | ⟨tk, rfl, hplace, hcovers⟩
        · rw [howner] at howner'
          cases howner'
        · by_contra hc
          rw [Bool.not_eq_false] at hc
          have hi' : tk.isCancelled o.cancelled = false := hi
          rw [Token.isCancelled_of_covers hcovers hc] at hi'
          cases hi'
      · have hm := h.resolve_right fun hm => hn (hp n hm)
        rw [split, List.mem_append] at hm
        exact hm.resolve_left fun hm => hn (he n hm)

/-! ## Joins -/

/-- Only a task inside of its run may join, in a scope below its own. -/
theorem join_allowed {u : Residence} {run : Nat} {policy : JoinPolicy} {group : Token}
    {bs : List Branch} (h : protocol.allows u (.join run policy group bs)) :
    ∃ home, u = inside home ∧ run = home.run ∧ home.base.covers group = true ∧
      ∀ b ∈ bs, ∃ ctx scope body collect, b = .steps ctx scope body collect ∧
        ctx.run = home.run ∧ ctx.token = group := by
  cases u with
  | inside home => exact ⟨home, rfl, h⟩
  | _ => exact h.elim

/-- A task stops waiting. Those of its branches that have not ended are left to the run,
and so they are cancelled. -/
theorem Holds.letGo (hh : Holds o place) {t : TaskId} {home : Home} {p q : Program t.Result}
    {w : Wait} {g : List Nat → List Nat} {cancelled : List Token}
    (ht : o.task? t = some (.active p w)) (hhome : (place t).home? = some home)
    (hc : o.cancelled <:+ cancelled)
    (hg : ∀ n ∈ g (o.stragglers home.run), n ∈ o.stragglers home.run ∨
      ∃ base, BranchOf o place n home.run base ∧ base.isCancelled cancelled = true)
    (hheld : ∀ n ∈ o.held t, ∃ base, BranchOf o place n home.run base)
    (hkept : ∀ n, ¬ o.Ended n → n ∈ o.stragglers home.run ∨ n ∈ o.held t →
      n ∈ g (o.stragglers home.run)) :
    Holds ((({ o with cancelled } : Outline).modifyRun home.run fun r => { r with
      stragglers := g r.stragglers }).setTask t (.active q .fresh)) place := by
  have H : Hands o _ t q .fresh home.run g := hands ht (hh.opened hhome) hc
  have hcancelled : Outline.cancelled ((({ o with cancelled } : Outline).modifyRun home.run
      fun r => { r with stragglers := g r.stragglers }).setTask t (.active q .fresh)) = cancelled :=
    Outline.setTask_cancelled _ _
  rw [← Function.update_eq_self t place]
  refine hh.handOver H hhome hhome (fun n hn => ?_) hheld (by simp)
    (fun n hn h => Or.inl (hkept n hn h)) fun home' hd => ?_
  · rw [hcancelled]
    exact hg n hn
  · rw [hd] at hhome
    cases hhome
    exact ⟨rfl, hh.drained hd⟩

/-- A task that waits for no unended branch stops waiting. -/
theorem Holds.letGo_ended (hh : Holds o place) {t : TaskId} {home : Home} {p q : Program t.Result}
    {w : Wait} (ht : o.task? t = some (.active p w)) (hhome : (place t).home? = some home)
    (hheld : ∀ n ∈ o.held t, o.Ended n ∧ ∃ base, BranchOf o place n home.run base) :
    Holds (o.setTask t (.active q .fresh)) place := by
  have hid : (o.modifyRun home.run fun r => { r with stragglers := id r.stragglers }) = o := by
    change o.modifyRun home.run id = o
    simp [Outline.modifyRun]
  have := hh.letGo (q := q) (g := id) ht hhome List.suffix_rfl (fun n hn => Or.inl hn)
    (fun n hn => (hheld n hn).2) fun n hn h => h.resolve_right fun hm => hn (hheld n hm).1
  exact hid ▸ this

theorem Holds.join_answer (hh : Holds o place) {t : TaskId} {run : Nat} {policy : JoinPolicy}
    {group : Token} {bs : List Branch}
    {next : Except Failure (List BranchOutcome) → Program t.Result} {w : Wait}
    {a : Except Failure (List BranchOutcome)}
    (ht : o.task? t = some (.active (.perform (.join run policy group bs) next) w))
    (hallows : protocol.allows (place t) (.join run policy group bs))
    (polls : o.Polls w o₁ (.join run policy group bs) (.answered a)) :
    Holds (o₁.setTask t (.active (next a) .fresh)) place := by
  obtain ⟨home, hplace, rfl, -⟩ := join_allowed hallows
  have hhome : (place t).home? = some home := by rw [hplace]; rfl
  have hheld := Outline.held_of_task? ht
  cases w with
  | branches tasks =>
      have hjoined {n : Nat} (hn : n ∈ o.held t) : BranchOf o place n home.run group :=
        (hh.joined ht (by rwa [hheld] at hn)).1
      cases polls with
      | @failed f order fast first =>
          refine hh.letGo (g := (· ++ tasks.filter (o.endedAfter order))) ht hhome
            (List.suffix_cons group o.cancelled) (fun n hn => ?_)
            (fun n hn => ⟨group, hjoined hn⟩) fun n hn h => ?_
          · rw [List.mem_append] at hn
            refine hn.imp id fun hm => ⟨group, hjoined ?_, ?_⟩
            · rw [hheld]
              exact List.mem_of_mem_filter hm
            · simp [Token.isCancelled, Token.covers_self]
          · rw [List.mem_append]
            refine h.imp id fun hm => List.mem_filter.mpr ⟨by rwa [hheld] at hm, ?_⟩
            rw [Outline.Ended, Option.not_isSome_iff_eq_none] at hn
            simp [Outline.endedAfter, hn]
      | completed quiet all =>
          refine hh.letGo_ended ht hhome fun n hn => ⟨?_, group, hjoined hn⟩
          rw [hheld] at hn
          exact Outline.ended_of_outcomes all n hn
  | _ =>
      obtain ⟨rfl, ⟨-, rfl⟩ | ⟨-, hwait⟩⟩ := polls
      · have hspawn : o.spawn (List.map Branch.program []) = o := by simp [Outline.spawn]
        rw [hspawn]
        refine hh.letGo_ended ht hhome fun n hn => ?_
        rw [hheld] at hn
        cases hn
      · cases hwait

structure Grown (o o' : Outline) (place place' : TaskId → Residence) (t : TaskId) (home : Home)
    (group : Token) (count : Nat) : Prop where
  length : o'.branches.length = o.branches.length + count
  places (v : TaskId) : place' v = place v ∨ ∃ i, i < count ∧
    v = .branch (o.branches.length + i) ∧ place' v = inside ⟨home.run, group, false⟩
  old {n : Nat} : n < o.branches.length → place' (.branch n) = place (.branch n)
  new {i : Nat} : i < count →
    place' (.branch (o.branches.length + i)) = inside ⟨home.run, group, false⟩
  self : ∃ policy bs next, o'.task? t = some (.active (.perform (.join home.run policy group bs)
    next) (.branches (List.range' o.branches.length count)))
  other {v : TaskId} {p : Program v.Result} {w : Wait} : v ≠ t →
    o'.task? v = some (.active p w) → o.task? v = some (.active p w) ∨ w = .fresh
  kept {v : TaskId} {state : TaskState v.Result} : v ≠ t → o.task? v = some state →
    o'.task? v = some state
  ends {n : Nat} : o.Ended n → o'.Ended n
  left (run : Nat) : o'.stragglers run = o.stragglers run
  cancelled : o'.cancelled = o.cancelled
  runs : o'.runs.length = o.runs.length

theorem Grown.branchOf {t : TaskId} {home : Home} {group : Token} {count n run : Nat}
    {base : Token} (G : Grown o o' place place' t home group count) :
    BranchOf o' place' n run base ↔ BranchOf o place n run base ∨
      ∃ i, i < count ∧ n = o.branches.length + i ∧ run = home.run ∧ base = group := by
  unfold BranchOf
  rw [G.length]
  by_cases hn : n < o.branches.length
  · rw [G.old hn]
    constructor
    · exact fun h => Or.inl ⟨hn, h.2⟩
    · rintro (h | ⟨i, -, rfl, -⟩)
      · exact ⟨by omega, h.2⟩
      · omega
  · constructor
    · rintro ⟨hlt, hhome⟩
      obtain ⟨i, rfl⟩ := Nat.exists_eq_add_of_le (Nat.le_of_not_lt hn)
      have hi : i < count := by omega
      rw [G.new hi] at hhome
      cases hhome
      exact Or.inr ⟨i, hi, rfl, rfl, rfl⟩
    · rintro (h | ⟨i, hi, rfl, rfl, rfl⟩)
      · exact absurd h.1 hn
      · exact ⟨by omega, by rw [G.new hi]; rfl⟩

theorem Grown.place_of_task? {t v : TaskId} {home : Home} {group : Token} {count : Nat}
    {state : TaskState v.Result} (G : Grown o o' place place' t home group count)
    (hs : o.task? v = some state) : place' v = place v := by
  rcases G.places v with h | ⟨i, -, rfl, -⟩
  · exact h
  · have hlt := (List.getElem?_eq_some_iff.mp hs).1
    omega

section Growing

variable {t : TaskId} {home : Home} {group : Token} {count : Nat} {p : Program t.Result} {w : Wait}

/-- The branches that are waited for after others have started: those of the task that started
them are the new ones. -/
theorem Holds.joined_of_grown (hh : Holds o place) (G : Grown o o' place place' t home group count)
    (ht : o.task? t = some (.active p w)) (hhome : (place t).home? = some home)
    (hcovers : home.base.covers group = true) {v : TaskId} {run : Nat} {policy : JoinPolicy}
    {group' : Token} {bs : List Branch}
    {next : Except Failure (List BranchOutcome) → Program v.Result}
    {tasks : List Nat} {n : Nat}
    (hv : o'.task? v = some (.active (.perform (.join run policy group' bs) next) (.branches tasks)))
    (hn : n ∈ tasks) : BranchOf o' place' n run group' ∧ (∀ m, v = .branch m → m < n) ∧
      ∃ home', (place' v).home? = some home' ∧ home'.run = run ∧
        home'.base.covers group' = true := by
  by_cases hvt : v = t
  · subst hvt
    obtain ⟨policy, bs, next, hself⟩ := G.self
    cases hself.symm.trans hv
    obtain ⟨i, hi, rfl⟩ := List.mem_range'.mp hn
    rw [Nat.one_mul, G.place_of_task? ht]
    refine ⟨G.branchOf.mpr (Or.inr ⟨i, hi, rfl, rfl, rfl⟩), ?_, home, hhome, rfl, hcovers⟩
    rintro m rfl
    have hlt := (List.getElem?_eq_some_iff.mp ht).1
    omega
  · rcases G.other hvt hv with ho | hf
    · obtain ⟨hb, hless, hrest⟩ := hh.joined ho hn
      rw [G.place_of_task? ho]
      exact ⟨G.branchOf.mpr (Or.inl hb), hless, hrest⟩
    · cases hf

theorem Holds.kept_of_grown (hh : Holds o place) (G : Grown o o' place place' t home group count)
    (hheld : o.held t = []) {n run : Nat} {base : Token} (hb : BranchOf o' place' n run base)
    (hn : ¬ o'.Ended n) : n ∈ o'.stragglers run ∨ ∃ v, n ∈ o'.held v := by
  rcases G.branchOf.mp hb with hb | ⟨i, hi, rfl, -⟩
  · rw [G.left]
    refine (hh.kept hb fun he => hn (G.ends he)).imp id ?_
    rintro ⟨v, hv⟩
    have hvt : v ≠ t := by
      rintro rfl
      rw [hheld] at hv
      cases hv
    refine ⟨v, ?_⟩
    unfold Outline.held at hv ⊢
    cases hs : o.task? v with
    | none =>
        rw [hs] at hv
        cases hv
    | some state =>
        rw [hs] at hv
        rwa [G.kept hvt hs]
  · obtain ⟨policy, bs, next, hself⟩ := G.self
    refine Or.inr ⟨t, ?_⟩
    rw [Outline.held_of_task? hself]
    exact List.mem_range'.mpr ⟨i, hi, by rw [Nat.one_mul]⟩

/-- In a run that its owner has drained nobody starts branches: who does is unended and of
the run, so it is the owner, which is inside. -/
theorem Holds.run_ne_of_drained (hh : Holds o place) (ht : o.task? t = some (.active p w))
    (hplace : place t = inside home) {v : TaskId} {home' : Home}
    (hv : place v = .drained home') : home'.run ≠ home.run := by
  intro hrun
  obtain ⟨howner, hall⟩ := hh.drained hv
  have hhome : (place t).home? = some home := by rw [hplace]; rfl
  have hvhome : (place v).home? = some home' := by rw [hv]; rfl
  cases htask : t with
  | branch m =>
      subst htask
      obtain ⟨run, base', hm⟩ := hh.housed (List.getElem?_eq_some_iff.mp ht).1
      cases hm.2.symm.trans hhome
      have hrun' : home'.run = run := hrun
      rw [← hrun'] at hm
      exact absurd (hall m _ hm) (not_ended_of_active ht)
  | _ =>
      have hroot := hh.rooted (t := t) (by simp [htask]) hhome
      have hvt := hh.owner hvhome hhome howner hroot hrun
      rw [hvt, hplace] at hv
      cases hv

theorem Holds.grow (hh : Holds o place) (G : Grown o o' place place' t home group count)
    (ht : o.task? t = some (.active p w)) (hplace : place t = inside home)
    (hcovers : home.base.covers group = true) (hheld : o.held t = []) : Holds o' place' := by
  have hhome : (place t).home? = some home := by rw [hplace]; rfl
  constructor
  · intro v h hv
    rw [G.runs]
    rcases G.places v with hp | ⟨i, -, -, hp⟩
    · exact hh.opened (hp ▸ hv)
    · rw [hp] at hv
      cases hv
      exact (hh.opened hhome : home.run < o.runs.length)
  · intro n hn
    by_cases hlt : n < o.branches.length
    · obtain ⟨run, base, hb⟩ := hh.housed hlt
      exact ⟨run, base, G.branchOf.mpr (Or.inl hb)⟩
    · rw [G.length] at hn
      obtain ⟨i, rfl⟩ := Nat.exists_eq_add_of_le (Nat.le_of_not_lt hlt)
      exact ⟨_, _, G.branchOf.mpr (Or.inr ⟨i, by omega, rfl, rfl, rfl⟩)⟩
  · intro v h hroot hv
    rcases G.places v with hp | ⟨i, -, hbranch, -⟩
    · exact hh.rooted hroot (hp ▸ hv)
    · exact absurd hbranch (hroot _)
  · intro v u h h' hv hu howner howner' hrun
    rcases G.places v with hp | ⟨i, -, -, hp⟩
    · rcases G.places u with hp' | ⟨i, -, -, hp'⟩
      · exact hh.owner (hp ▸ hv) (hp' ▸ hu) howner howner' hrun
      · rw [hp'] at hu
        cases hu
        cases howner'
    · rw [hp] at hv
      cases hv
      cases howner
  · exact fun hv hn => hh.joined_of_grown G ht hhome hcovers hv hn
  · intro v run token next tasks cnt n hv hn
    by_cases hvt : v = t
    · subst hvt
      obtain ⟨_, _, _, hself⟩ := G.self
      cases hself.symm.trans hv
    · rcases G.other hvt hv with ho | hf
      · obtain ⟨base, h, hb, hrest⟩ := hh.settling ho hn
        rw [← G.cancelled, ← G.place_of_task? ho] at hrest
        exact ⟨base, h, G.branchOf.mpr (Or.inl hb), hrest⟩
      · cases hf
  · intro run n hn
    rw [G.left] at hn
    obtain ⟨base, hb, hbase⟩ := hh.left hn
    exact ⟨base, G.branchOf.mpr (Or.inl hb), G.cancelled ▸ hbase⟩
  · exact fun hb hn => hh.kept_of_grown G hheld hb hn
  · intro v h hv
    rcases G.places v with hp | ⟨i, -, -, hp⟩
    · have hv' : place v = .drained h := hp ▸ hv
      obtain ⟨howner, hall⟩ := hh.drained hv'
      refine ⟨howner, fun n base hb => ?_⟩
      rcases G.branchOf.mp hb with hb | ⟨i, -, -, hrun, -⟩
      · exact G.ends (hall n base hb)
      · exact absurd hrun (hh.run_ne_of_drained ht hplace hv')
    · rw [hp] at hv
      cases hv

end Growing

/-- A task starts branches of its own run, and waits for them. -/
theorem Holds.spawn (hh : Holds o place) {t : TaskId} {run : Nat} {policy : JoinPolicy}
    {group : Token} {bs : List Branch}
    {next : Except Failure (List BranchOutcome) → Program t.Result} {w : Wait}
    (ht : o.task? t = some (.active (.perform (.join run policy group bs) next) w))
    (hallows : protocol.allows (place t) (.join run policy group bs))
    (hw : ∀ tasks, w ≠ .branches tasks) (hheld : o.held t = []) :
    Holds { (o.spawn (bs.map Branch.program)).setTask t (.active (.perform
      (.join run policy group bs) next) (.branches (List.range' o.branches.length bs.length))) with
      running := none } (o.heirs discipline place (.join run policy group bs) w) := by
  obtain ⟨home, hplace, rfl, hcovers, hsteps⟩ := join_allowed hallows
  have hnew {i : Nat} (hi : i < bs.length) :
      o.heirs discipline place (.join home.run policy group bs) w
        (.branch (o.branches.length + i)) = inside ⟨home.run, group, false⟩ := by
    obtain ⟨ctx, scope, body, collect, hbranch, hrun, htoken⟩ := hsteps bs[i] (List.getElem_mem hi)
    rw [Discipline.heirs_spawn hw, if_neg (by omega), Nat.add_sub_cancel_left,
      List.getElem?_eq_getElem hi, hbranch, Option.elim_some]
    simp only [discipline, hrun, htoken]
  suffices G : Grown _ _ _ _ t home group bs.length from hh.grow G ht hplace hcovers hheld
  constructor
  · exact (Outline.setTask_branches_length _ _).trans (by simp [Outline.spawn])
  · intro v
    cases v with
    | branch n =>
        by_cases hn : n < o.branches.length
        · exact Or.inl (by rw [Discipline.heirs_spawn hw, if_pos hn])
        · obtain ⟨i, rfl⟩ := Nat.exists_eq_add_of_le (Nat.le_of_not_lt hn)
          by_cases hi : i < bs.length
          · exact Or.inr ⟨i, hi, rfl, hnew hi⟩
          · rw [Discipline.heirs_spawn hw, if_neg hn, Nat.add_sub_cancel_left,
              List.getElem?_eq_none (Nat.le_of_not_lt hi)]
            exact Or.inl rfl
    | _ => exact Or.inl (Discipline.heirs_root (by simp))
  · intro n hn
    rw [Discipline.heirs_spawn hw, if_pos hn]
  · exact fun hi => hnew hi
  · exact ⟨policy, bs, next,
      Outline.task?_setTask_self _ _ (by rw [Outline.task?_spawn_of_some ht]; rfl)⟩
  · intro v p w' hv hs
    replace hs : ((o.spawn (bs.map Branch.program)).setTask t _).task? v = some (.active p w') := hs
    rw [Outline.task?_setTask_of_ne _ _ hv] at hs
    refine (Outline.task?_of_spawn hs).imp id ?_
    rintro ⟨i, b, -, rfl, hstate⟩
    cases hstate
    rfl
  · intro v state hv hs
    exact (Outline.task?_setTask_of_ne _ _ hv).trans (Outline.task?_spawn_of_some hs)
  · intro n hn
    exact ended_of_setTask (Outline.task?_spawn_of_some ht) (ended_spawn hn)
  · exact fun r => Outline.setTask_stragglers _ _ _
  · exact Outline.setTask_cancelled _ _
  · exact congrArg List.length (Outline.setTask_runs _ _)

theorem Holds.join_wait (hh : Holds o place) {t : TaskId} {run : Nat} {policy : JoinPolicy}
    {group : Token} {bs : List Branch}
    {next : Except Failure (List BranchOutcome) → Program t.Result} {w w' : Wait}
    (ht : o.task? t = some (.active (.perform (.join run policy group bs) next) w))
    (hallows : protocol.allows (place t) (.join run policy group bs))
    (polls : o.Polls w o₁ (.join run policy group bs) (.waiting w')) :
    Holds { o₁.setTask t (.active (.perform (.join run policy group bs) next) w') with
      running := none } (o.heirs discipline place (.join run policy group bs) w) := by
  cases w with
  | branches tasks =>
      cases polls with
      | waiting quiet unended =>
          rw [o.setTask_same _ ht]
          exact hh.calm rfl (fun _ => id) (fun _ => Or.inl rfl) List.suffix_rfl (Nat.le_refl _)
            (fun _ => rfl) (fun _ => Or.inl rfl) fun _ _ => id
  | _ =>
      obtain ⟨rfl, -, rfl⟩ := polls.starts nofun
      exact hh.spawn ht hallows nofun (Outline.held_of_task? ht)

theorem Holds.ne_branch (hh : Holds o place) {t : TaskId} {state : TaskState t.Result}
    (ht : o.task? t = some state) (hplace : (place t).home? = none) (n : Nat) : t ≠ .branch n := by
  rintro rfl
  obtain ⟨run, base, hb⟩ := hh.housed (List.getElem?_eq_some_iff.mp ht).1
  cases hb.2.symm.trans hplace

/-- A task that is no branch and waits for none becomes the owner of a run in which there is no
task yet. -/
theorem Holds.moveIn (hh : Holds o place) {t : TaskId} {home : Home} (hroot : ∀ n, t ≠ .branch n)
    (hheld : o.held t = []) (hrun : home.run < o.runs.length) (howner : home.owner = true)
    (hempty : ∀ v home', (place v).home? = some home' → home'.run ≠ home.run) :
    Holds o (Function.update place t (inside home)) := by
  have hself : Function.update place t (inside home) t = inside home := Function.update_self ..
  have hother {v : TaskId} (hv : v ≠ t) : Function.update place t (inside home) v = place v :=
    Function.update_of_ne hv ..
  have hbranch {n run : Nat} {base : Token} :
      BranchOf o (Function.update place t (inside home)) n run base ↔
        BranchOf o place n run base := by
    unfold BranchOf
    rw [hother (Ne.symm (hroot n))]
  have hwaits {v : TaskId} {n : Nat} (hn : n ∈ o.held v) : v ≠ t := by
    rintro rfl
    rw [hheld] at hn
    cases hn
  have hcases {v : TaskId} {home' : Home}
      (hv : (Function.update place t (inside home) v).home? = some home') :
      v = t ∧ home' = home ∨ v ≠ t ∧ (place v).home? = some home' := by
    by_cases hvt : v = t
    · subst hvt
      rw [hself] at hv
      cases hv
      exact Or.inl ⟨rfl, rfl⟩
    · rw [hother hvt] at hv
      exact Or.inr ⟨hvt, hv⟩
  constructor
  · intro v home' hv
    rcases hcases hv with ⟨-, rfl⟩ | ⟨-, hv⟩
    · exact hrun
    · exact hh.opened hv
  · intro n hn
    obtain ⟨run, base, hb⟩ := hh.housed hn
    exact ⟨run, base, hbranch.mpr hb⟩
  · intro v home' hroot' hv
    rcases hcases hv with ⟨-, rfl⟩ | ⟨-, hv⟩
    · exact howner
    · exact hh.rooted hroot' hv
  · intro v u home' home'' hv hu hv' hu' hsame
    rcases hcases hv with ⟨hvt, rfl⟩ | ⟨-, hold⟩ <;> rcases hcases hu with ⟨hut, rfl⟩ | ⟨-, hold'⟩
    · rw [hvt, hut]
    · exact absurd hsame.symm (hempty u _ hold')
    · exact absurd hsame (hempty v _ hold)
    · exact hh.owner hold hold' hv' hu' hsame
  · intro v run policy group bs next tasks n hv hn
    obtain ⟨hb, hless, hrest⟩ := hh.joined hv hn
    rw [hother (hwaits (by rwa [Outline.held_of_task? hv]))]
    exact ⟨hbranch.mpr hb, hless, hrest⟩
  · intro v run token next tasks count n hv hn
    obtain ⟨base, home', hb, hrest⟩ := hh.settling hv hn
    rw [← hother (hwaits (by rwa [Outline.held_of_task? hv]))] at hrest
    exact ⟨base, home', hbranch.mpr hb, hrest⟩
  · intro run n hn
    obtain ⟨base, hb, hbase⟩ := hh.left hn
    exact ⟨base, hbranch.mpr hb, hbase⟩
  · exact fun hb hn => hh.kept (hbranch.mp hb) hn
  · intro v home' hv
    have hvt : v ≠ t := by
      rintro rfl
      rw [hself] at hv
      cases hv
    rw [hother hvt] at hv
    obtain ⟨howner', hall⟩ := hh.drained hv
    exact ⟨howner', fun n base hb => hall n base (hbranch.mp hb)⟩

theorem Holds.open_answer (hh : Holds o place) {t : TaskId} {flow : String} {parent : Token}
    {next : Nat × Token → Program t.Result} {w : Wait} {a : Nat × Token}
    (ht : o.task? t = some (.active (.perform (.openRun flow parent) next) w))
    (hplace : place t = outside)
    (polls : o.Polls w o₁ (.openRun flow parent) (.answered a)) :
    Holds (o₁.setTask t (.active (next a) .fresh))
      (Function.update place t (inside ⟨a.1, a.2, true⟩)) := by
  obtain ⟨⟨n, hans⟩, rfl⟩ := polls
  cases hans
  generalize hopened : ({ o with runs := o.runs ++ [⟨.empty, [], .start flow⟩] } : Outline) = opened
  have hruns : opened.runs.length = o.runs.length + 1 := by
    subst hopened
    simp
  have ht' : opened.task? t = some (.active (.perform (.openRun flow parent) next) w) := by
    subst hopened
    exact ht
  have hheld : (opened.setTask t (.active (next (o.runs.length, parent.child n)) .fresh)).held t =
      [] :=
    (Outline.held_of_task? (Outline.task?_setTask_self _ _ (by rw [ht']; rfl))).trans
      (TaskState.held_fresh _)
  have hcalm : Holds (opened.setTask t (.active (next (o.runs.length, parent.child n)) .fresh))
      place := by
    refine hh.calm ?_ (fun m hm => ?_) (fun _ => Or.inl rfl) ?_ ?_ (fun run => ?_) (fun v => ?_)
      fun _ _ => id
    · subst hopened
      exact Outline.setTask_branches_length _ _
    · exact ended_of_setTask ht' (ended_of_branches (by subst hopened; rfl) hm)
    · subst hopened
      exact (Outline.setTask_cancelled _ _).symm ▸ List.suffix_rfl
    · rw [Outline.setTask_runs, hruns]
      exact Nat.le_succ _
    · subst hopened
      exact (Outline.setTask_stragglers _ _ run).trans (o.stragglers_open flow run)
    · by_cases hvt : v = t
      · subst hvt
        exact Or.inr ⟨hheld, Outline.held_of_task? ht⟩
      · subst hopened
        exact Or.inl (Outline.task?_setTask_of_ne _ _ hvt)
  refine hcalm.moveIn (hh.ne_branch ht (by rw [hplace]; rfl)) hheld ?_ rfl fun v home hv hrun => ?_
  · rw [Outline.setTask_runs, hruns]
    exact Nat.lt_succ_self _
  · have hlt := hh.opened hv
    rw [hrun] at hlt
    exact Nat.lt_irrefl _ hlt

/-- A task that is no branch begins a new program outside of all runs. -/
theorem Holds.renew (hh : Holds o place) {t : TaskId} (hroot : ∀ n, t ≠ .branch n)
    (htasks : ∀ v, v ≠ t → o'.task? v = o.task? v) (hheld : o.held t = [])
    (hheld' : o'.held t = []) (hbranches : o'.branches = o.branches)
    (hcancelled : o'.cancelled = o.cancelled) (hruns : o'.runs = o.runs) :
    Holds o' (Function.update place t outside) := by
  refine hh.calm (congrArg List.length hbranches) (fun n => ended_of_branches hbranches)
    (fun v => ?_) (hcancelled ▸ List.suffix_rfl) (Nat.le_of_eq (congrArg List.length hruns.symm))
    (fun r => ?_) (fun v => ?_) fun v home hv => ?_
  · by_cases hvt : v = t
    · subst hvt
      exact Or.inr ⟨by rw [Function.update_self]; rfl, hroot, hheld'⟩
    · exact Or.inl (by rw [Function.update_of_ne hvt])
  · unfold Outline.stragglers
    rw [hruns]
  · by_cases hvt : v = t
    · subst hvt
      exact Or.inr ⟨hheld', hheld⟩
    · exact Or.inl (htasks v hvt)
  · by_cases hvt : v = t
    · subst hvt
      rw [Function.update_self] at hv
      cases hv
    · rwa [Function.update_of_ne hvt] at hv

theorem calm_move {u : Residence} {e : Effect} {a : e.Answer} (hallows : protocol.allows u e)
    (hj : ∀ run policy group bs, e ≠ .join run policy group bs)
    (hs : ∀ run token, e ≠ .settle run token) (ho : ∀ flow parent, e ≠ .openRun flow parent)
    (hc : ∀ run ending outputs, e ≠ .closeRun run ending outputs)
    (ht : ∀ token, e ≠ .childToken token) :
    ∃ v, protocol.moves u e a v ∧ v.home? = u.home? ∧ ∀ home, v ≠ .drained home := by
  cases u with
  | outside =>
      refine ⟨outside, ?_, rfl, by simp⟩
      cases e <;> first | rfl | exact absurd rfl (ho _ _)
  | closed => exact ⟨closed, rfl, rfl, by simp⟩
  | inside home =>
      refine ⟨inside home, ?_, rfl, by simp⟩
      cases e <;> first | rfl | exact absurd rfl (hs _ _) | exact absurd rfl (ht _)
  | drained home =>
      refine ⟨inside home, ?_, rfl, by simp⟩
      cases e <;> first | rfl | exact absurd rfl (hs _ _) | exact absurd rfl (hc _ _ _)

theorem Holds.close_answer (hh : Holds o place) {t : TaskId} {run : Nat} {ending : Ending}
    {outputs : List (String × Json)} {next : RunResult → Program t.Result} {w : Wait} {a : RunResult}
    (ht : o.task? t = some (.active (.perform (.closeRun run ending outputs) next) w))
    (hallows : protocol.allows (place t) (.closeRun run ending outputs))
    (polls : o.Polls w o₁ (.closeRun run ending outputs) (.answered a)) :
    ∃ u, protocol.moves (place t) (.closeRun run ending outputs) a u ∧
      Holds (o₁.setTask t (.active (next a) .fresh)) (Function.update place t u) := by
  cases hplace : place t with
  | drained home =>
      rw [hplace] at hallows
      have hroot : ∀ n, t ≠ .branch n := by
        rintro n rfl
        obtain ⟨run', base, hb⟩ := hh.housed (List.getElem?_eq_some_iff.mp ht).1
        cases hb.2.symm.trans (congrArg Residence.home? hplace)
        cases hallows.2
      exact ⟨closed, rfl, hh.goOn ht polls (by simp) (by simp) (by simp)
        (TaskState.held_fresh _) (Or.inr ⟨rfl, hroot⟩) (by simp)⟩
  | _ =>
      rw [hplace] at hallows
      exact hallows.elim

theorem Holds.child_answer (hh : Holds o place) {t : TaskId} {token : Token}
    {next : Token → Program t.Result} {w : Wait} {a : Token}
    (ht : o.task? t = some (.active (.perform (.childToken token) next) w))
    (hallows : protocol.allows (place t) (.childToken token))
    (polls : o.Polls w o₁ (.childToken token) (.answered a)) :
    ∃ u, protocol.moves (place t) (.childToken token) a u ∧
      Holds (o₁.setTask t (.active (next a) .fresh)) (Function.update place t u) := by
  obtain ⟨⟨n, ha⟩, -⟩ := id polls
  cases ha
  cases hplace : place t with
  | inside home =>
      exact ⟨inside home, ⟨⟨n, rfl⟩, rfl⟩, hh.goOn ht polls (by simp) (by simp) (by simp)
        (TaskState.held_fresh _) (Or.inl (by rw [hplace])) (by simp)⟩
  | _ =>
      rw [hplace] at hallows
      exact hallows.elim

theorem Holds.answer (hh : Holds o place) {t : TaskId} {e : Effect}
    {next : e.Answer → Program t.Result} {w : Wait} {a : e.Answer}
    (ht : o.task? t = some (.active (.perform e next) w)) (hallows : protocol.allows (place t) e)
    (polls : o.Polls w o₁ e (.answered a)) :
    ∃ u, protocol.moves (place t) e a u ∧
      Holds (o₁.setTask t (.active (next a) .fresh)) (Function.update place t u) := by
  cases e with
  | join run policy group bs =>
      obtain ⟨home, hplace, -⟩ := join_allowed hallows
      refine ⟨inside home, by rw [hplace]; rfl, ?_⟩
      rw [← hplace, Function.update_eq_self]
      exact hh.join_answer ht hallows polls
  | settle run token => exact hh.settle_answer ht hallows polls
  | openRun flow parent =>
      cases hplace : place t with
      | outside => exact ⟨_, rfl, hh.open_answer ht hplace polls⟩
      | _ =>
          rw [hplace] at hallows
          exact hallows.elim
  | closeRun run ending outputs => exact hh.close_answer ht hallows polls
  | childToken token => exact hh.child_answer ht hallows polls
  | _ =>
      obtain ⟨v, hmove, hhome, hd⟩ := calm_move hallows (a := a) (by simp) (by simp) (by simp)
        (by simp) (by simp)
      exact ⟨v, hmove, hh.goOn ht polls (by simp) (by simp) (by simp)
        (TaskState.held_fresh _) (Or.inl hhome) fun home h => absurd h (hd home)⟩

theorem Holds.finish (hh : Holds o place) {t : TaskId} {p : Program t.Result} {w : Wait}
    (ht : o.task? t = some (.active p w)) (hheld : o.held t = []) (a : t.Result) (order : Nat) :
    Holds { o.setTask t (.ended a order) with running := none } place := by
  refine hh.calm (o.setTask_branches_length _) (fun n => ended_of_setTask_ended t a order)
    (fun _ => Or.inl rfl) ?_ ?_ (o.setTask_stragglers _) (fun v => ?_) fun _ _ => id
  · exact (o.setTask_cancelled _).symm ▸ List.suffix_rfl
  · exact Nat.le_of_eq (congrArg List.length (o.setTask_runs _).symm)
  · by_cases hvt : v = t
    · subst hvt
      refine Or.inr ⟨?_, hheld⟩
      exact Outline.held_of_task? (o.task?_setTask_self (.ended a order) (by rw [ht]; rfl))
    · exact Or.inl (o.task?_setTask_of_ne _ hvt)

theorem Holds.submit (hh : Holds o place) (p : Program RunResult) :
    Holds { o with submissions := o.submissions ++ [.active p .fresh] }
      (Function.update place (.submission o.submissions.length) outside) := by
  have hnone : o.task? (.submission o.submissions.length) = none := by simp [Outline.task?]
  have hnew := o.task?_submit_self (.active p .fresh)
  exact hh.renew (by simp) (fun v hv => o.task?_submit_of_ne _ hv)
    (by rw [Outline.held, hnone]; rfl)
    ((Outline.held_of_task? hnew).trans (TaskState.held_fresh p)) rfl rfl rfl

theorem sound (config : Config) : discipline.Sound config Holds where
  root := nofun
  main h := hosts.errand h
  submission flow inputs token := hosts.submitted config flow inputs token
  branch := branch
  pick t hh idle := hh.calm rfl (fun _ => id) (fun _ => Or.inl rfl) List.suffix_rfl
    (Nat.le_refl _) (fun _ => rfl) (fun _ => Or.inl rfl) fun _ _ => id
  cancel tokens hh idle := hh.calm rfl (fun _ => id) (fun _ => Or.inl rfl)
    (List.suffix_append _ _) (Nat.le_refl _) (fun _ => rfl) (fun _ => Or.inl rfl) fun _ _ => id
  stop hh running inactive := hh.calm rfl (fun _ => id) (fun _ => Or.inl rfl) List.suffix_rfl
    (Nat.le_refl _) (fun _ => rfl) (fun _ => Or.inl rfl) fun _ _ => id
  finish {o place t a w} order hh running active hf :=
    hh.finish active (Outline.held_of_task? active) a order
  answer {o o₁ place t e next w a} hh running active hallows polls :=
    hh.answer active hallows polls
  wait {o o₁ place t e next w w'} hh running active hallows polls := by
    cases e with
    | join run policy group bs => exact hh.join_wait active hallows polls
    | settle run token => exact hh.settle_wait active hallows polls
    | openRun flow parent =>
        obtain ⟨⟨n, h⟩, -⟩ := polls
        cases h
    | _ =>
        rw [← Function.update_eq_self t place]
        exact hh.goOn active polls (by simp) (by simp) (by simp) rfl (Or.inl rfl) fun _ => id
  submit {o place} p hh idle := hh.submit p
  errand {o place} p hh idle ended := by
    obtain ⟨result, order, hmain⟩ := ended
    exact hh.renew (by simp) (fun v hv => o.task?_main_of_ne _ hv)
      (Outline.held_of_task? (t := .main) (congrArg some hmain)) (TaskState.held_fresh p) rfl rfl rfl

end Residence
end FlowEngine
