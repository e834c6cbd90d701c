import FlowEngine.Proofs.Execution.Monad
import FlowEngine.Proofs.Session.Ends
import FlowEngine.Proofs.Session.Polled
import FlowEngine.Proofs.Session.Turns

/-!
# The course of a join

A join starts its branches in its first turn. In every later turn it looks at the
branches that have ended by then.
-/
namespace FlowEngine

namespace Outline

variable {o : Outline} {bs : List Branch}

theorem task?_spawn {i : Nat} {b : Branch} (hb : bs[i]? = some b) :
    (o.spawn (bs.map Branch.program)).task? (.branch (o.branches.length + i)) =
      some (.active b.program .fresh) := by
  simp only [task?, spawn, List.map_map]
  rw [List.getElem?_append_right (Nat.le_add_right _ _), Nat.add_sub_cancel_left, List.getElem?_map,
    hb]
  rfl

end Outline

open Exec

variable {config : Config} {log : List Occurrence} {s s' : System RunResult} {t : TaskId}
  {run : Nat} {policy : JoinPolicy} {group : Token} {bs : List Branch}
  {next : Except Failure (List BranchOutcome) → Program t.Result}

/-- From a moment on, the branches of a join go on from their beginning, numbered from `first`
on. -/
structure System.Forks (config : Config) (bs : List Branch) (first : Nat)
    (meanwhile : List Occurrence) (u s : System RunResult) : Prop where
  starts : ∀ i b, bs[i]? = some b → u.task? (.branch (first + i)) = some (.active b.program .fresh)
  reaches : u.Reaches config meanwhile s

namespace Branch

def conclusion (collect : Option Expr) (last : Except Failure Json) (final : Scope) :
    Except Failure Json :=
  match last, collect with
  | .ok _, some e => (Control.evaluate e final).mapError fun f => f.toError.toFailure
  | r, _ => r

theorem program_steps (ctx : Context) (scope : Scope) (body : List Step) (collect : Option Expr) :
    (steps ctx scope body collect).program =
      ((runSequence body ctx .null).on scope).bind fun p => .pure (conclusion collect p.1 p.2) := by
  refine congrArg (Program.bind ((runSequence body ctx .null).on scope)) (funext fun p => ?_)
  obtain ⟨last, final⟩ := p
  cases last <;> cases collect <;> rfl

def Ends (number : Nat) (log : List Occurrence) : Branch → Except Failure Json → Prop
  | steps ctx scope body collect, r => .ended (.branch number) ∈ log ∧ ∃ last final,
      ((runSequence body ctx .null).on scope).Follows (deedsOf (.branch number) log)
        (.pure (last, final)) ∧ r = conclusion collect last final
  | timed observed delay result, r => .ended (.branch number) ∈ log ∧
      (timed observed delay result).program.Follows (deedsOf (.branch number) log) (.pure r)

theorem ends_of_follows {number : Nat} {b : Branch} {r : Except Failure Json}
    (hm : .ended (.branch number) ∈ log)
    (hf : b.program.Follows (deedsOf (.branch number) log) (.pure r)) : b.Ends number log r := by
  cases b with
  | timed observed delay result => exact ⟨hm, hf⟩
  | steps ctx scope body collect =>
      rw [program_steps] at hf
      obtain ⟨h₁, h₂, ⟨last, final⟩, hsplit, hlast, hrest⟩ := hf.bind_pure
      obtain ⟨rfl, hr⟩ := Program.Follows.pure_iff.mp hrest
      rw [List.append_nil] at hsplit
      exact ⟨hm, last, final, hsplit ▸ hlast, Program.pure.inj hr⟩

theorem Ends.mem {number : Nat} {b : Branch} {r : Except Failure Json} (h : b.Ends number log r) :
    .ended (.branch number) ∈ log := by
  cases b <;> exact h.1

def FailsFirst (bs : List Branch) (first : Nat) (log : List Occurrence) (f : Failure) : Prop :=
  ∃ (i : Nat) (b : Branch) (l₁ l₂ : List Occurrence), bs[i]? = some b ∧
    b.Ends (first + i) log (.error f) ∧ log = l₁ ++ .ended (.branch (first + i)) :: l₂ ∧
    ∀ j b', bs[j]? = some b' → .ended (.branch (first + j)) ∈ l₁ →
      ∃ v, b'.Ends (first + j) log (.ok v)

def EndAll (bs : List Branch) (first : Nat) (log : List Occurrence)
    (results : List (Except Failure Json)) : Prop :=
  results.length = bs.length ∧ ∀ (i : Nat) (b : Branch) (r : Except Failure Json),
    bs[i]? = some b → results[i]? = some r → b.Ends (first + i) log r

end Branch

/-- In its first turn a join starts its branches, and then it waits for them. -/
theorem System.Moves.forks {w : Wait} {m m' : Machine}
    (move : s.Moves config [.poll ⟨t, .join run policy group bs, none, m, m'⟩] s')
    (ht : s.task? t = some (.active (.perform (.join run policy group bs) next) w))
    (first : ∀ tasks, w ≠ .branches tasks) :
    m'.branches.size = m.branches.size + bs.length ∧
      Forks config bs m.branches.size [] s' s' ∧
      s'.task? t = some (.active (.perform (.join run policy group bs) next)
        (.branches (List.range' m.branches.size bs.length))) := by
  obtain ⟨next', w₁, w', hw, hw', hpolls⟩ := move.polls_of_wait
  rw [ht] at hw
  cases hw
  obtain ⟨hspawn, -, rfl⟩ := hpolls.starts first
  rw [← task?_outline] at ht
  rcases move.advances.unanswered ht rfl with hsame | ⟨w', m₁, m₁', hlog, hm, -, hs'⟩
  · rw [task?_outline, hw'] at hsame
    cases hsame
    exact absurd rfl (first _)
  · cases hlog
    have hsize : m.branches.size = s.outline.branches.length := by
      rw [← hm]
      simp [Machine.outline]
    have hsize' : m'.branches.size = (m'.outline s.main).branches.length := by
      simp [Machine.outline]
    rw [hsize]
    refine ⟨?_, ⟨fun i b hb => ?_, .refl⟩, hw'⟩
    · rw [hsize', hspawn]
      simp [Outline.spawn]
    · have hne : TaskId.branch (s.outline.branches.length + i) ≠ t := by
        rintro rfl
        have := (List.getElem?_eq_some_iff.mp ht).1
        omega
      rw [← task?_outline, hs']
      refine (Outline.task?_setTask_of_ne _ _ hne).trans ?_
      rw [show m'.outline s.outline.main = _ from hspawn]
      exact Outline.task?_spawn hb

/-- A join that waits for its branches does so until it is answered. -/
theorem System.Reaches.keeps_waiting {tasks : List Nat} (h : s.Reaches config log s')
    (ht : s.task? t = some (.active (.perform (.join run policy group bs) next) (.branches tasks)))
    (hd : deedsOf t log = []) :
    s'.task? t = some (.active (.perform (.join run policy group bs) next) (.branches tasks)) := by
  induction h with
  | refl => exact ht
  | move before move ih =>
      obtain ⟨hd₁, hd₂⟩ := before.unanswered ⟨_, ht⟩ hd
      have hwait := ih hd₁
      rw [← task?_outline] at hwait ⊢
      rcases move.advances.unanswered hwait hd₂ with hsame | ⟨w', m, m', rfl, -, hpolls, hs'⟩
      · exact hsame
      · obtain ⟨rfl, -⟩ := hpolls.keeps_waiting
        rw [hs']
        exact Outline.task?_setTask_self _ _ (Option.isSome_of_eq_some (hpolls.task? hwait))

/-- A join that has no answer yet has not had its first turn, or it waits for its branches. -/
theorem System.Reaches.forks (h : s.Reaches config log s')
    (ht : s.task? t = some (.active (.perform (.join run policy group bs) next) .fresh))
    (hd : deedsOf t log = []) :
    s'.task? t = some (.active (.perform (.join run policy group bs) next) .fresh) ∨
      ∃ l m m' meanwhile u,
        log = l ++ .poll ⟨t, .join run policy group bs, none, m, m'⟩ :: meanwhile ∧
        s.Reaches config (l ++ [.poll ⟨t, .join run policy group bs, none, m, m'⟩]) u ∧
        Forks config bs m.branches.size meanwhile u s' ∧
        s'.task? t = some (.active (.perform (.join run policy group bs) next)
          (.branches (List.range' m.branches.size bs.length))) := by
  induction h with
  | refl => exact Or.inl ht
  | @move before more v w hbefore move ih =>
      obtain ⟨hd₁, hd₂⟩ := hbefore.unanswered ⟨_, ht⟩ hd
      rcases ih hd₁ with hfresh | ⟨l, m, m', meanwhile, u, rfl, hu, ⟨hstarts, hv⟩, hwait⟩
      · have hfresh' := (task?_outline t).trans hfresh
        rcases move.advances.unanswered hfresh' hd₂ with hsame | ⟨w', m, m', rfl, -⟩
        · rw [task?_outline] at hsame
          exact Or.inl hsame
        · obtain ⟨-, hforks, hwait⟩ := move.forks hfresh nofun
          exact Or.inr ⟨before, m, m', [], w, rfl, hbefore.move move, hforks, hwait⟩
      · exact Or.inr ⟨l, m, m', meanwhile ++ more, u, by simp, hu, ⟨hstarts, hv.move move⟩,
          (Reaches.single move).keeps_waiting hwait hd₂⟩

/-- A branch of a join that has ended has done so in the meantime. -/
theorem System.Forks.ends {first i k : Nat} {meanwhile : List Occurrence} {u : System RunResult}
    {b : Branch} {r : Except Failure Json} (h : Forks config bs first meanwhile u s)
    (hb : bs[i]? = some b) (hr : s.task? (.branch (first + i)) = some (.ended r k)) :
    b.Ends (first + i) meanwhile r := by
  have hstart := h.starts i b hb
  refine Branch.ends_of_follows ?_ ?_
  · refine h.reaches.mem_of_ended (fun r' k' hr' => ?_) hr
    rw [hstart] at hr'
    cases hr'
  · obtain ⟨q, hq, ⟨⟨w, hnow⟩, -⟩ | ⟨a, rfl, ⟨k', hnow⟩ | hrestarted⟩⟩ := h.reaches.follows ⟨_, hstart⟩
    · rw [hr] at hnow
      cases hnow
    · rw [hr] at hnow
      cases hnow
      exact hq
    · exact absurd hrestarted (not_restarted_branch _ _)

theorem exists_results {o : Outline} {tasks : List Nat} {outcomes : List BranchOutcome}
    (h : List.Forall₂ (fun n outcome => ∃ r k, o.branchResult? n = some (r, k) ∧
      outcome = .ofExcept r) tasks outcomes) :
    ∃ results : List (Except Failure Json), outcomes = results.map .ofExcept ∧
      results.length = tasks.length ∧ ∀ (i : Nat) r, results[i]? = some r →
        ∃ n k, tasks[i]? = some n ∧ o.branchResult? n = some (r, k) := by
  induction h with
  | nil => exact ⟨[], rfl, rfl, by simp⟩
  | @cons n outcome tasks outcomes head tail ih =>
      obtain ⟨r, k, hr, rfl⟩ := head
      obtain ⟨results, rfl, hlength, hresults⟩ := ih
      refine ⟨r :: results, rfl, congrArg (· + 1) hlength, fun i r' hi => ?_⟩
      cases i with
      | zero =>
          cases hi
          exact ⟨n, k, rfl, hr⟩
      | succ i => exact hresults i r' hi

/-- The answer of a join whose branches were started: the failure that came first under the
fail-fast policy, and all results otherwise. -/
theorem System.Forks.answered {first : Nat} {meanwhile : List Occurrence} {u : System RunResult}
    {joined : Except Failure (List BranchOutcome)} {m m' : Machine}
    (h : Forks config bs first meanwhile u s) (hsession : Session config log u)
    (ht : s.task? t = some (.active (.perform (.join run policy group bs) next)
      (.branches (List.range' first bs.length))))
    (move : s.Moves config [.poll ⟨t, .join run policy group bs, some joined, m, m'⟩] s') :
    (∃ f, joined = .error f ∧ policy = .failFast ∧ Branch.FailsFirst bs first meanwhile f) ∨
      ∃ results : List (Except Failure Json), joined = .ok (results.map .ofExcept) ∧
        Branch.EndAll bs first meanwhile results ∧
        (policy = .failFast → ∀ f, .error f ∉ results) := by
  obtain ⟨-, next', w, hw, hpolls⟩ := move.polls_of_answer
  rw [ht] at hw
  cases hw
  change s.outline.Joins run policy group _ _ _ at hpolls
  generalize m'.outline s.main = o' at hpolls
  cases hpolls with
  | @failed f order fast least =>
      obtain ⟨n, hn, hresult⟩ := least.mem
      obtain ⟨i, hi, rfl⟩ := List.mem_range'.mp hn
      rw [Nat.one_mul] at hresult
      have hb := List.getElem?_eq_getElem hi
      have hended := (task?_outline _).symm.trans (Outline.branchResult?_eq_some.mp hresult)
      have hends := h.ends hb hended
      obtain ⟨l₁, l₂, hlog⟩ := List.append_of_mem hends.mem
      refine Or.inl ⟨f, rfl, fast, i, bs[i], l₁, l₂, hb, hends, hlog, fun j b' hb' hj => ?_⟩
      obtain ⟨v, k, hv⟩ := h.reaches.ended_of_mem (hlog ▸ List.mem_append_left _ hj)
      have hbefore := hsession.order_of_ends (hlog ▸ h.reaches) hended hv hj
      cases v with
      | ok v => exact ⟨v, h.ends hb' hv⟩
      | error g =>
          have hmem : first + j ∈ List.range' first bs.length :=
            List.mem_range'_1.mpr ⟨by omega, by have := (List.getElem?_eq_some_iff.mp hb').1; omega⟩
          have := least.least _ hmem g k (Outline.branchResult?_eq_some.mpr ((task?_outline _).trans hv))
          omega
  | completed quiet all =>
      obtain ⟨results, rfl, hlength, hresults⟩ := exists_results all
      rw [List.length_range'] at hlength
      refine Or.inr ⟨results, rfl, ⟨hlength, fun i b r hb hr => ?_⟩, fun fast f hf => ?_⟩
      · obtain ⟨n, k, hn, hresult⟩ := hresults i r hr
        rw [List.getElem?_range' (List.getElem?_eq_some_iff.mp hb).1, Nat.one_mul] at hn
        obtain rfl := Option.some.inj hn
        exact h.ends hb ((task?_outline _).symm.trans (Outline.branchResult?_eq_some.mp hresult))
      · obtain ⟨i, hi⟩ := List.getElem?_of_mem hf
        obtain ⟨n, k, hn, hresult⟩ := hresults i _ hi
        exact quiet fast n (List.mem_of_getElem? hn) f k hresult

def Forked (log : List Occurrence) (run : Nat) (group : Token) (n : Nat) : Prop :=
  ∃ t policy bs m m', .poll ⟨t, .join run policy group bs, none, m, m'⟩ ∈ log ∧
    m.branches.size ≤ n ∧ n < m'.branches.size

theorem Forked.append {n : Nat} (h : Forked log run group n) (more : List Occurrence) :
    Forked (log ++ more) run group n := by
  obtain ⟨t, policy, bs, m, m', hm, hn⟩ := h
  exact ⟨t, policy, bs, m, m', List.mem_append_left more hm, hn⟩

theorem Session.forked_of_waits (h : Session config log s) {tasks : List Nat}
    (ht : s.task? t = some (.active (.perform (.join run policy group bs) next) (.branches tasks)))
    {n : Nat} (hn : n ∈ tasks) : Forked log run group n := by
  obtain ⟨s₀, ⟨world, numbered⟩, hreaches⟩ := h
  induction hreaches with
  | refl => cases t <;> cases ht
  | @move before more u v hbefore move ih =>
      rw [← System.task?_outline] at ht
      rcases move.advances.wait_cases ht with hsame |
        hfresh | ⟨e, next', w, m, m', hp, hactive, hlog, hpolls, -⟩
      · exact (ih ((System.task?_outline t).symm.trans hsame)).append more
      · cases hfresh
      · cases hp
        rw [System.task?_outline] at hactive
        by_cases hw : ∃ earlier, w = .branches earlier
        · obtain ⟨earlier, rfl⟩ := hw
          cases hpolls.keeps_waiting.1
          exact (ih hactive).append more
        · have hfirst (earlier : List Nat) : w ≠ .branches earlier := fun h => hw ⟨earlier, h⟩
          subst hlog
          obtain ⟨hsize, -, hwait⟩ := move.forks hactive hfirst
          rw [System.task?_outline, hwait] at ht
          cases ht
          have hrange := List.mem_range'_1.mp hn
          refine ⟨t, policy, bs, m, m', List.mem_append_right _ (List.mem_singleton_self _), ?_⟩
          omega

theorem Session.outcome_of_join {joined : Except Failure (List BranchOutcome)} {m m' : Machine}
    (h : Session config log s)
    (move : s.Moves config [.poll ⟨t, .join run policy group bs, some joined, m, m'⟩] s') :
    (∃ f n order, joined = .error f ∧ Forked log run group n ∧
      s.task? (.branch n) = some (.ended (.error f) order)) ∨
    ∃ outcomes, joined = .ok outcomes ∧ ∀ outcome ∈ outcomes, ∃ r n order,
      outcome = .ofExcept r ∧ Forked log run group n ∧
        s.task? (.branch n) = some (.ended r order) := by
  obtain ⟨-, next, w, hw, hpolls⟩ := move.polls_of_answer
  cases w with
  | branches tasks =>
      change s.outline.Joins run policy group _ _ _ at hpolls
      generalize m'.outline s.main = o at hpolls
      have ended {n order : Nat} {r : Except Failure Json}
          (hr : s.outline.branchResult? n = some (r, order)) :
          s.task? (.branch n) = some (.ended r order) :=
        (System.task?_outline _).symm.trans (Outline.branchResult?_eq_some.mp hr)
      cases hpolls with
      | failed fast least =>
          obtain ⟨n, hn, hresult⟩ := least.mem
          exact Or.inl ⟨_, n, _, rfl, h.forked_of_waits hw hn, ended hresult⟩
      | completed quiet all =>
          refine Or.inr ⟨_, rfl, fun outcome houtcome => ?_⟩
          obtain ⟨i, hi, rfl⟩ := List.getElem_of_mem houtcome
          have hlt : i < tasks.length := all.length_eq ▸ hi
          obtain ⟨r, order, hresult, houtcome⟩ := (List.forall₂_iff_get.mp all).2 i hlt hi
          exact ⟨r, tasks[i], order, houtcome, h.forked_of_waits hw (List.getElem_mem hlt),
            ended hresult⟩
  | _ =>
      obtain ⟨-, ⟨hturn, -⟩ | ⟨-, hturn⟩⟩ := hpolls
      · cases hturn
        exact Or.inr ⟨[], rfl, by simp⟩
      · cases hturn

end FlowEngine

/-!
## What a task starts

A task starts branches in its joins, they start others in theirs, and so on. A join is not left
behind before its branches have ended, unless it fails fast: then those that are still at work are
abandoned. So whatever is nested in a task that has got past its joins has ended, or it comes from
an abandoned branch.
-/
namespace FlowEngine

variable {config : Config} {log : List Occurrence} {s s' : System RunResult} {t : TaskId} {n : Nat}

def Starts (log : List Occurrence) (t : TaskId) (n : Nat) : Prop :=
  ∃ run policy group bs m m', .poll ⟨t, .join run policy group bs, none, m, m'⟩ ∈ log ∧
    m.branches.size ≤ n ∧ n < m'.branches.size

inductive Nested (log : List Occurrence) : TaskId → Nat → Prop where
  | started {t : TaskId} {n : Nat} (starts : Starts log t n) : Nested log t n
  | deeper {t : TaskId} {m n : Nat} (starts : Starts log t m) (nested : Nested log (.branch m) n) :
      Nested log t n

inductive Abandoned (log : List Occurrence) (n : Nat) : Prop where
  | intro {t : TaskId} {run : Nat} {group : Token} {bs : List Branch} {m₁ m₁' m₂ m₂' : Machine}
      {f : Failure} {l₁ l₂ l₃ : List Occurrence}
      (course : log = l₁ ++ .poll ⟨t, .join run .failFast group bs, none, m₁, m₁'⟩ ::
        (l₂ ++ .poll ⟨t, .join run .failFast group bs, some (.error f), m₂, m₂'⟩ :: l₃))
      (ge : m₁.branches.size ≤ n) (lt : n < m₁'.branches.size) (waits : deedsOf t l₂ = [])
      (unended : .ended (.branch n) ∉ l₂) : Abandoned log n

def Settled (log : List Occurrence) (n : Nat) : Prop :=
  .ended (.branch n) ∈ log ∨ ∃ m, Abandoned log m ∧ (m = n ∨ Nested log (.branch m) n)

def PassesJoins (log : List Occurrence) (t : TaskId) : Prop :=
  ∀ l₁ l₂ run policy group bs m m',
    log = l₁ ++ .poll ⟨t, .join run policy group bs, none, m, m'⟩ :: l₂ → deedsOf t l₂ ≠ []

/-- A join starts branches in its first turn only. -/
theorem System.Moves.first_of_starts {run : Nat} {policy : JoinPolicy} {group : Token}
    {bs : List Branch} {next : Except Failure (List BranchOutcome) → Program t.Result} {w : Wait}
    {m m' : Machine} (move : s.Moves config [.poll ⟨t, .join run policy group bs, none, m, m'⟩] s')
    (ht : s.task? t = some (.active (.perform (.join run policy group bs) next) w))
    (starts : m.branches.size < m'.branches.size) (tasks : List Nat) : w ≠ .branches tasks := by
  rintro rfl
  obtain ⟨next', w, w', hw, -, hpolls⟩ := move.polls_of_wait
  cases ht.symm.trans hw
  obtain ⟨-, hsame, -⟩ := hpolls.keeps_waiting
  have hlength := congrArg (List.length ∘ Outline.branches) hsame
  have hsize : m'.branches.size = s.machine.branches.size := by
    simpa [Machine.outline, System.outline] using hlength
  rw [show m = s.machine from move.polls_of_poll.1, hsize] at starts
  exact Nat.lt_irrefl _ starts

/-- A task that has got past the join in which it starts a branch has waited for the branch or
abandoned it. -/
theorem System.Reaches.ended_or_abandoned {before : List Occurrence} (hs : Session config before s)
    (h : s.Reaches config log s') (past : PassesJoins log t) (hn : Starts log t n) :
    .ended (.branch n) ∈ log ∨ Abandoned log n := by
  obtain ⟨run, policy, group, bs, m, m', hm, hge, hlt⟩ := hn
  obtain ⟨l₁, l₂, rfl⟩ := List.append_of_mem hm
  obtain ⟨u, v, hu, move, hv⟩ := h.moment
  obtain ⟨next, w, w', hw, hw', hpolls⟩ := move.polls_of_wait
  obtain ⟨hsize, hforks, hwait⟩ := move.forks hw (move.first_of_starts hw (by omega))
  obtain ⟨⟨e, answer⟩, rest, hdeeds⟩ := List.exists_cons_of_ne_nil (past l₁ l₂ _ _ _ _ _ _ rfl)
  obtain ⟨l₃, m₂, m₂', l₄, rfl, -, hquiet, -⟩ := @deedsOf_split t _ [] _ _ hdeeds
  obtain ⟨x, y, hx, answered, -⟩ := hv.moment
  have hstill := hx.keeps_waiting hwait hquiet
  obtain ⟨-, next', w₂, hw₂, -⟩ := answered.polls_of_answer
  rw [hstill] at hw₂
  cases hw₂
  have hsession := (hs.reaches hu).reaches (.single move)
  rcases (System.Forks.mk hforks.starts hx).answered hsession hstill answered with
    ⟨f, rfl, rfl, -⟩ | ⟨results, -, ⟨hlength, hends⟩, -⟩
  · by_cases hended : .ended (.branch n) ∈ l₃
    · exact Or.inl (by simp [hended])
    · exact Or.inr ⟨rfl, hge, hlt, hquiet, hended⟩
  · have hi : n - m.branches.size < bs.length := by omega
    have hend := (hends _ _ _ (List.getElem?_eq_getElem hi)
      (List.getElem?_eq_getElem (hlength ▸ hi))).mem
    rw [Nat.add_sub_cancel' hge] at hend
    exact Or.inl (by simp [hend])

/-- A task that has just got an answer has got past all joins before. -/
theorem PassesJoins.of_answer {e : Effect} {a : e.Answer} {m m' : Machine}
    (hr : ¬ Restarted t log) : PassesJoins (log ++ [.poll ⟨t, e, some a, m, m'⟩]) t := by
  intro l₁ l₂ run policy group bs m₁ m₁' hlog
  rcases List.eq_nil_or_concat l₂ with rfl | ⟨l₃, x, rfl⟩
  · obtain ⟨-, hx⟩ := List.append_inj' hlog rfl
    cases hx
  · rw [List.concat_eq_append, ← List.cons_append, ← List.append_assoc] at hlog
    obtain ⟨rfl, hx⟩ := List.append_inj' hlog rfl
    cases hx
    rw [List.concat_eq_append, deedsOf_append fun h => hr (restarted_append.mpr
      (Or.inr ⟨h.1, List.mem_cons_of_mem _ h.2⟩))]
    simp [deedsOf]

theorem System.Reaches.passesJoins (h : s.Reaches config log s') (hn : .ended (.branch n) ∈ log) :
    PassesJoins log (.branch n) := by
  rintro l₁ l₂ run policy group bs m m' rfl hquiet
  obtain ⟨u, v, -, move, hv⟩ := h.moment
  obtain ⟨next, w, w', -, hw', -⟩ := move.polls_of_wait
  obtain ⟨⟨w₂, hstill⟩, -⟩ := hv.stays ⟨w', hw'⟩ hquiet
  obtain ⟨r, k, hended⟩ := h.ended_of_mem hn
  rw [hstill] at hended
  cases hended

theorem Nested.settled {before : List Occurrence} (hs : Session config before s)
    (h : s.Reaches config log s') (hn : Nested log t n) (past : PassesJoins log t) : Settled log n := by
  induction hn with
  | started starts =>
      exact (h.ended_or_abandoned hs past starts).imp_right fun hn => ⟨_, hn, Or.inl rfl⟩
  | deeper starts nested ih =>
      rcases h.ended_or_abandoned hs past starts with hended | habandoned
      · exact ih (h.passesJoins hended)
      · exact Or.inr ⟨_, habandoned, Or.inr nested⟩

end FlowEngine
