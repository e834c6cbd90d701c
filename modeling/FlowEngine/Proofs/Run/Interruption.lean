import FlowEngine.Proofs.Run.Halting
import FlowEngine.Proofs.Run.Joins
import FlowEngine.Proofs.Run.Timeliness
import FlowEngine.Proofs.Transaction.Rollback

/-!
# Interrupted tasks

A part of the program of a task in a scope of cancellation has a crew: the branches that it has
started there, itself or through other branches. When the scope is cancelled while nobody is awake,
all of them wait, and all of them are interrupted. So the part fails.
-/

/-!
## Nobody is awake

The clock moves only when nobody is awake. By then nothing is left to do in scopes that are
cancelled: all their branches have ended, and no task is inside of such a scope.
-/
namespace FlowEngine.Residence

variable {config : Config} {log : List Occurrence} {s : System RunResult} {t : TaskId}
  {place : TaskId → Residence} {T : Token}

/-- When nobody is awake, the branches in cancelled scopes have ended. -/
theorem Housed.still (h : Housed config log s place) (asleep : ∀ t, ¬ s.machine.Awake t)
    {n run : Nat} {base : Token} (hn : BranchOf s.outline place n run base)
    (hbase : s.machine.isCancelled base = true) : s.outline.Ended n := by
  refine h.holds.ended_of_waits (Q := fun base => s.machine.isCancelled base = true)
    (fun above base habove hcovers => Token.isCancelled_of_covers hcovers habove)
    (fun base hbase => hbase) (fun m above hm habove hunended => ?_) hn hbase
  obtain ⟨p, w, hactive⟩ := (ended_or_active hm.1).resolve_left hunended
  exact h.heeds habove ((System.task?_outline _).symm.trans hactive) hm.2 (Token.covers_self _)
    (asleep _)

/-- The branches that are waited for below a token that is cancelled are in a cancelled scope. -/
theorem Holds.cancelled_of_held {o : Outline} (hh : Holds o place) {e : Effect}
    {next : e.Answer → Program t.Result} {w : Wait} {run n : Nat} {owner : Bool}
    (ht : o.task? t = some (.active (.perform e next) w)) (hpermits : Permits ⟨run, T, owner⟩ e)
    (hT : T.isCancelled o.cancelled = true) (hn : n ∈ o.held t) :
    ∃ run base, BranchOf o place n run base ∧ base.isCancelled o.cancelled = true := by
  rcases Outline.held_cases hn with ⟨run', policy, group, bs, next', tasks, hs, hmem⟩ |
    ⟨run', token, next', tasks, count, hs, hmem⟩
  · cases ht.symm.trans hs
    exact ⟨_, group, (hh.joined hs hmem).1, Token.isCancelled_of_covers hpermits.2.1 hT⟩
  · obtain ⟨base, -, hb, hbase, -⟩ := hh.settling hs hmem
    exact ⟨_, base, hb, hbase⟩

theorem awake_of_inside (h : Session config log s) {e : Effect}
    {next : e.Answer → Program t.Result} {w : Wait} {run : Nat} {owner : Bool}
    (ht : s.task? t = some (.active (.perform e next) w)) (hpermits : Permits ⟨run, T, owner⟩ e)
    (hT : s.machine.isCancelled T = true) : ∃ u, s.machine.Awake u := by
  by_contra hasleep
  have asleep (u : TaskId) : ¬ s.machine.Awake u := fun hu => hasleep ⟨u, hu⟩
  obtain ⟨place, hhoused, -⟩ := roofed_of_session h
  rcases waits_of_permits h ht (Or.inl hpermits) (asleep t) with
    ⟨token, htoken, hcovers, -⟩ | ⟨n, hn, hunended⟩
  · exact asleep t (awake_of_token h ht htoken (Token.isCancelled_of_covers hcovers hT))
  · obtain ⟨run', base, hb, hbase⟩ :=
      hhoused.holds.cancelled_of_held ((System.task?_outline t).trans ht) hpermits hT hn
    exact hunended (hhoused.still asleep hb hbase)

end FlowEngine.Residence

namespace FlowEngine

open Exec Execution

/-! ## Nested branches -/

theorem Starts.mono {log more : List Occurrence} {t : TaskId} {n : Nat} (h : Starts log t n)
    (hmore : log ⊆ more) : Starts more t n := by
  obtain ⟨run, policy, group, bs, m, m', hm, hn⟩ := h
  exact ⟨run, policy, group, bs, m, m', hmore hm, hn⟩

theorem Nested.mono {log more : List Occurrence} {t : TaskId} {n : Nat} (h : Nested log t n)
    (hmore : log ⊆ more) : Nested more t n := by
  induction h with
  | started starts => exact .started (starts.mono hmore)
  | deeper starts nested ih => exact .deeper (starts.mono hmore) ih

theorem Nested.snoc {log : List Occurrence} {t : TaskId} {m n : Nat} (h : Nested log t m)
    (hn : Starts log (.branch m) n) : Nested log t n := by
  induction h with
  | started starts => exact .deeper starts (.started hn)
  | deeper starts nested ih => exact .deeper starts (ih hn)

def RollbackRefused (log : List Occurrence) (t : TaskId) : Prop :=
  ∃ u handle e m m', .poll ⟨u, .restoreSnapshot handle, some (.error e), m, m'⟩ ∈ log ∧
    (u = t ∨ ∃ n, u = .branch n ∧ Nested log t n)

theorem RollbackRefused.mono {log more : List Occurrence} {t : TaskId} (h : RollbackRefused log t)
    (hmore : log ⊆ more) : RollbackRefused more t := by
  obtain ⟨u, handle, e, m, m', hm, hu⟩ := h
  exact ⟨u, handle, e, m, m', hmore hm, hu.imp_right fun ⟨n, hn, hnested⟩ => ⟨n, hn, hnested.mono hmore⟩⟩

theorem RollbackRefused.of_branch {log : List Occurrence} {t : TaskId} {n : Nat}
    (h : RollbackRefused log (.branch n)) (hn : Starts log t n) : RollbackRefused log t := by
  obtain ⟨u, handle, e, m, m', hm, hu⟩ := h
  refine ⟨u, handle, e, m, m', hm, Or.inr ?_⟩
  obtain rfl | ⟨k, rfl, hnested⟩ := hu
  · exact ⟨n, rfl, .started hn⟩
  · exact ⟨k, rfl, .deeper hn hnested⟩

/-! ## Rollbacks -/

variable {config : Config} {before log more : List Occurrence} {s s' : System RunResult} {t : TaskId}

theorem Session.released {run : Nat} {handle : String} {a : Except EngineError Unit} {m m' : Machine}
    (h : Session config log s)
    (move : s.Moves config [.poll ⟨t, .releaseTransaction run handle, some a, m, m'⟩] s') :
    a = .ok () := by
  obtain ⟨place, hkept⟩ := Custody.kept_of_session h default
  obtain ⟨place', -, hallows, hmoves⟩ := hkept.answered move
  have hallows' := hallows.2
  have hmoves' := hmoves.2
  cases hplace : (place t).2 with
  | holding b lost =>
      rw [hplace] at hmoves'
      exact hmoves'.1
  | _ =>
      rw [hplace] at hallows'
      exact hallows'.elim

/-- A rollback is refused if the store refuses all of them. -/
theorem Session.restored_iff {handle : String} {a : Except EngineError Unit} {m m' : Machine}
    (h : Session config log s)
    (move : s.Moves config [.poll ⟨t, .restoreSnapshot handle, some a, m, m'⟩] s') :
    a = .ok () ↔ s.machine.world.store.script.restoreError = none := by
  constructor
  · rintro rfl
    obtain ⟨-, -, w, -, hpolls⟩ := move.polls_of_answer
    simp only [Outline.Polls, Outline.Stores] at hpolls
    cases hscript : s.machine.world.store.script.restoreError with
    | none => rfl
    | some text =>
        have hrefuses : s.outline.store.restore handle = .error (.store text) := by
          change s.machine.world.store.restore handle = _
          rw [ScriptedStore.restore, hscript]
        rw [hrefuses] at hpolls
        obtain ⟨ha, -⟩ := hpolls
        cases ha
  · intro hscript
    obtain ⟨place, hkept⟩ := Custody.kept_of_session h default
    obtain ⟨place', -, hallows, -⟩ := hkept.answered move
    have hallows' := hallows.2
    cases hplace : (place t).2 with
    | released b lost =>
        rw [hplace] at hallows'
        obtain rfl : handle = b.handle := hallows'
        exact (hkept.restores hplace move).1 hscript
    | _ =>
        rw [hplace] at hallows'
        exact hallows'.elim

/-! ## The crew of a part of a program -/

theorem System.Moves.child_of_answer {token a : Token} {m m' : Machine}
    (move : s.Moves config [.poll ⟨t, .childToken token, some a, m, m'⟩] s') :
    ∃ n, a = token.child n := by
  obtain ⟨-, -, w, -, ⟨n, hturn⟩, -⟩ := move.polls_of_answer
  cases hturn
  exact ⟨n, rfl⟩

/-- Nobody is interrupted as far as the protocol goes by the answers alone. -/
theorem System.Reaches.path_going (hr : s.Reaches config log s') (home : Home) (t : TaskId) :
    (Halting.protocol home).Path .going (deedsOf t log) .going := by
  have hpath (ds : List Deed) (hds : ∀ token a, ⟨.childToken token, a⟩ ∈ ds → ∃ n, a = token.child n) :
      (Halting.protocol home).Path .going ds .going := by
    induction ds with
    | nil => exact .start _
    | cons d rest ih =>
        obtain ⟨e, a⟩ := d
        refine .deed ?_ (ih fun token a ha => hds token a (List.mem_cons_of_mem _ ha))
        cases e with
        | childToken token => exact ⟨hds token a List.mem_cons_self, rfl⟩
        | _ => exact Or.inl rfl
  refine hpath _ fun token a ha => ?_
  obtain ⟨m, m', hm⟩ := mem_of_deed ha
  obtain ⟨l, u, v, -, move⟩ := hr.moment_of_mem hm
  exact move.child_of_answer

def Member (t : TaskId) (crew : Nat → Prop) (u : TaskId) : Prop :=
  u = t ∨ ∃ n, u = .branch n ∧ crew n

/-- The branches that a task has started since a moment, itself or through other branches, in a
scope of its run. -/
structure Crew (home : Home) (t : TaskId) (log : List Occurrence) (s : System RunResult)
    (crew : Nat → Prop) : Prop where
  nested {n : Nat} : crew n → Nested log t n
  there {n : Nat} : crew n → (s.task? (.branch n)).isSome
  other {n : Nat} : crew n → .branch n ≠ t
  obeys {n : Nat} {q : Program (Except Failure Json)} {w : Wait} : crew n →
    s.task? (.branch n) = some (.active q w) → q.Obeys (Halting.protocol home) Halting.Ends .going
  joins {u : TaskId} {run n : Nat} {policy : JoinPolicy} {group : Token} {bs : List Branch}
    {next : Except Failure (List BranchOutcome) → Program u.Result} {tasks : List Nat} :
    Member t crew u →
    s.task? u = some (.active (.perform (.join run policy group bs) next) (.branches tasks)) →
    n ∈ tasks → crew n ∧ Starts log u n

inductive Recruits (t : TaskId) (crew : Nat → Prop) (s : System RunResult) :
    List Occurrence → TaskId → Nat → Prop where
  | intro {u : TaskId} {run n : Nat} {policy : JoinPolicy} {group : Token} {bs : List Branch}
      {next : Except Failure (List BranchOutcome) → Program u.Result} {w : Wait} {m m' : Machine}
      (member : Member t crew u)
      (active : s.task? u = some (.active (.perform (.join run policy group bs) next) w))
      (first : ∀ tasks, w ≠ .branches tasks) (ge : m.branches.size ≤ n) (lt : n < m'.branches.size) :
      Recruits t crew s [.poll ⟨u, .join run policy group bs, none, m, m'⟩] u n

theorem Recruits.starts {crew : Nat → Prop} {u : TaskId} {n : Nat} (h : Recruits t crew s more u n) :
    Starts more u n := by
  cases h with
  | intro member active first ge lt => exact ⟨_, _, _, _, _, _, List.mem_singleton_self _, ge, lt⟩

namespace Crew

variable {home : Home} {crew : Nat → Prop}

/-- A branch that a member starts was not there before, and it obeys the protocol. -/
theorem recruited (h : Crew home t log s crew)
    (hpermits : ∀ e next w, s.task? t = some (.active (.perform e next) w) → Residence.Permits home e)
    (move : s.Moves config more s') {u : TaskId} {n : Nat} (hn : Recruits t crew s more u n) :
    s.task? (.branch n) = none ∧ ∃ b : Branch, s'.task? (.branch n) = some (.active b.program .fresh) ∧
      b.program.Obeys (Halting.protocol home) Halting.Ends .going := by
  cases hn with
  | @intro _ run _ policy group bs next w m m' member active first ge lt =>
      obtain ⟨hsize, hforks, -⟩ := move.forks active first
      have hm : m = s.machine := move.polls_of_poll.1
      have hi : n - m.branches.size < bs.length := by omega
      have hb := hforks.starts _ _ (List.getElem?_eq_getElem hi)
      rw [Nat.add_sub_cancel' ge] at hb
      refine ⟨?_, _, hb, ?_⟩
      · rw [← Option.not_isSome_iff_eq_none, ← System.task?_outline]
        intro hsome
        have hthere := System.lt_of_branch hsome
        rw [hm] at ge
        omega
      · have hjoin : Residence.Permits home (.join run policy group bs) := by
          obtain rfl | ⟨k, rfl, hk⟩ := member
          · exact hpermits _ _ _ active
          · exact (h.obeys hk active).1
        obtain ⟨ctx, scope, body, collect, hsteps, hrun, rfl⟩ := hjoin.2.2 _ (List.getElem_mem hi)
        rw [hsteps]
        exact Halting.branch ⟨hrun, hjoin.2.1⟩ scope body collect

theorem obeys_of_move (h : Crew home t log s crew) (move : s.Moves config more s') {n : Nat}
    (hn : crew n) {q : Program (Except Failure Json)} {w : Wait}
    (hq : s'.task? (.branch n) = some (.active q w)) :
    q.Obeys (Halting.protocol home) Halting.Ends .going := by
  obtain ⟨state, hstate⟩ := Option.isSome_iff_exists.mp (h.there hn)
  have hstate' := (System.task?_outline _).trans hstate
  rw [← System.task?_outline] at hq
  cases state with
  | ended a order =>
      obtain ⟨-, hend | ⟨hmain, -⟩⟩ := move.advances.ended hstate'
      · rw [hq] at hend
        cases hend
      · cases hmain
  | active p w₀ =>
      obtain ⟨r, hr, ⟨w', hw'⟩ | ⟨a, k, -, hend⟩⟩ := move.advances.follows hstate'
      · rw [hq] at hw'
        cases hw'
        exact (h.obeys hn hstate).follow hr ((System.Reaches.single move).path_going home _)
      · rw [hq] at hend
        cases hend

/-- After a move a member waits for branches of the crew that it waited for before, or for branches
that it starts in the move. -/
theorem joins_of_move (h : Crew home t log s crew) (move : s.Moves config more s') {u : TaskId}
    (member : (s.task? u).isSome → Member t crew u) {run n : Nat} {policy : JoinPolicy}
    {group : Token} {bs : List Branch}
    {next : Except Failure (List BranchOutcome) → Program u.Result} {tasks : List Nat}
    (hactive : s'.task? u = some (.active (.perform (.join run policy group bs) next)
      (.branches tasks))) (hn : n ∈ tasks) :
    crew n ∧ Starts log u n ∨ Recruits t crew s more u n := by
  rw [← System.task?_outline] at hactive
  rcases move.advances.wait_cases hactive with hsame | hfresh |
    ⟨e, next', w, m, m', hp, hwas, rfl, hpolls, -⟩
  · rw [System.task?_outline] at hsame
    exact Or.inl (h.joins (member (Option.isSome_of_eq_some hsame)) hsame hn)
  · cases hfresh
  · cases hp
    rw [System.task?_outline] at hwas
    have hmember := member (Option.isSome_of_eq_some hwas)
    by_cases hw : ∃ earlier, w = .branches earlier
    · obtain ⟨earlier, rfl⟩ := hw
      cases hpolls.keeps_waiting.1
      exact Or.inl (h.joins hmember hwas hn)
    · have hfirst (earlier : List Nat) : w ≠ .branches earlier := fun h => hw ⟨earlier, h⟩
      obtain ⟨hsize, -, hwait⟩ := move.forks hwas hfirst
      rw [System.task?_outline, hwait] at hactive
      cases hactive
      have hrange := List.mem_range'_1.mp hn
      have hlt : n < m'.branches.size := by omega
      exact Or.inr (.intro hmember hwas hfirst hrange.1 hlt)

/-- The crew grows by the branches that its members start. -/
theorem move (h : Crew home t log s crew) (ht : (s.task? t).isSome)
    (hpermits : ∀ e next w, s.task? t = some (.active (.perform e next) w) → Residence.Permits home e)
    (move : s.Moves config more s') :
    Crew home t (log ++ more) s' fun n => crew n ∨ ∃ u, Recruits t crew s more u n := by
  have hleft : log ⊆ log ++ more := List.subset_append_left log more
  have hstarts {u : TaskId} {n : Nat} (hn : Recruits t crew s more u n) : Starts (log ++ more) u n :=
    hn.starts.mono (List.subset_append_right log more)
  refine ⟨?nested, ?there, ?other, ?obeys, ?joins⟩
  case nested =>
    rintro n (hn | ⟨u, hn⟩)
    · exact (h.nested hn).mono hleft
    · have hs := hstarts hn
      cases hn with
      | intro member =>
          obtain rfl | ⟨k, rfl, hk⟩ := member
          · exact .started hs
          · exact ((h.nested hk).mono hleft).snoc hs
  case there =>
    rintro n (hn | ⟨u, hn⟩)
    · have hsome := h.there hn
      rw [← System.task?_outline] at hsome ⊢
      exact move.advances.isSome_task? hsome
    · obtain ⟨-, b, hb, -⟩ := h.recruited hpermits move hn
      exact Option.isSome_of_eq_some hb
  case other =>
    rintro n (hn | ⟨u, hn⟩) rfl
    · exact h.other hn rfl
    · rw [(h.recruited hpermits move hn).1] at ht
      cases ht
  case obeys =>
    rintro n q w (hn | ⟨u, hn⟩) hq
    · exact h.obeys_of_move move hn hq
    · obtain ⟨-, b, hb, hobeys⟩ := h.recruited hpermits move hn
      rw [hb] at hq
      cases hq
      exact hobeys
  case joins =>
    intro u run n policy group bs next tasks hu hactive hn
    have hold (hsome : (s.task? u).isSome) : Member t crew u := by
      obtain rfl | ⟨k, rfl, hk | ⟨v, hk⟩⟩ := hu
      · exact Or.inl rfl
      · exact Or.inr ⟨k, rfl, hk⟩
      · rw [(h.recruited hpermits move hk).1] at hsome
        cases hsome
    rcases h.joins_of_move move hold hactive hn with ⟨hcrew, hs⟩ | hrecruits
    · exact ⟨Or.inl hcrew, hs.mono hleft⟩
    · exact ⟨Or.inr ⟨u, hrecruits⟩, hstarts hrecruits⟩

/-- A task that is at a part of its program in a scope of its run has a crew, and it goes on as the
protocol says. -/
theorem exists_of_reaches {α : Type} {p : Program (Except Failure α × Scope)}
    {k : Except Failure α × Scope → Program t.Result} (hat : s.ComesTo t (p.bind k))
    (hp : p.Obeys (Halting.protocol home) (fun v r => Halting.Ends v r.1) .going)
    (hr : s.Reaches config log s') {e : Effect} {next : e.Answer → Program (Except Failure α × Scope)}
    (inside : p.Follows (deedsOf t log) (.perform e next)) :
    s'.At t ((Program.perform e next).bind k) ∧ ∃ crew, Crew home t log s' crew := by
  have hthere {log : List Occurrence} {u : System RunResult} {e : Effect}
      {next : e.Answer → Program (Except Failure α × Scope)} (hr : s.Reaches config log u)
      (inside : p.Follows (deedsOf t log) (.perform e next)) :
      u.At t ((Program.perform e next).bind k) := by
    obtain ⟨q, hq, ⟨hnow, -⟩ | ⟨a, rfl, -⟩⟩ := hr.follows hat.at
    · rwa [hq.unique (inside.bind k)] at hnow
    · cases hq.unique (inside.bind k)
  refine ⟨hthere hr inside, ?_⟩
  induction hr generalizing e with
  | refl =>
      refine ⟨fun _ => False, nofun, nofun, nofun, nofun, ?_⟩
      rintro u run n policy group bs next tasks (rfl | ⟨k, -, ⟨⟩⟩) hactive -
      have hwait := TaskState.active.inj (Option.some.inj (hat.active.symm.trans hactive))
      cases hwait.2
  | @move log more u v hbefore move ih =>
      obtain ⟨e', next', hinside⟩ : ∃ e' next', p.Follows (deedsOf t log) (.perform e' next') := by
        by_cases hrestarted : Restarted t log
        · rw [deedsOf_append_of_restarted hrestarted] at inside
          exact ⟨e, next, inside⟩
        · rw [deedsOf_append hrestarted] at inside
          obtain ⟨q, hq, hmore⟩ := Program.Follows.append_iff.mp inside
          cases q with
          | pure a => cases (Program.Follows.pure_iff.mp hmore).2
          | perform e' next' => exact ⟨e', next', hq⟩
      obtain ⟨crew, hcrew⟩ := ih hinside
      obtain ⟨w, hactive⟩ := hthere hbefore hinside
      refine ⟨_, hcrew.move (Option.isSome_of_eq_some hactive) (fun e₀ next₀ w₀ hactive₀ => ?_) move⟩
      cases hactive.symm.trans hactive₀
      exact (hp.follow hinside (hbefore.path_going home t)).1

end Crew

/-! ## Suspended tasks -/

inductive System.Suspends (s : System RunResult) : Effect → Wait → Prop where
  | request {run : Nat} {token : Token} {request : Request} {w : Wait} :
      Suspends s (.request run token request) w
  | sleep {token : Token} {span : Nat} {w : Wait} : Suspends s (.sleep (some token) span) w
  | join {run : Nat} {policy : JoinPolicy} {group : Token} {bs : List Branch} {tasks : List Nat}
      (outstanding : s.outline.Outstanding policy tasks) :
      Suspends s (.join run policy group bs) (.branches tasks)

/-- When nobody is awake, a task in a scope of its run is suspended there: the branches that others
wait for in their settles have ended. -/
theorem Residence.suspends {home : Home} (h : Session config log s) {p : Program t.Result} {w : Wait}
    (ht : s.task? t = some (.active p w))
    (hpermits : ∀ e next, p = .perform e next → Permits home e)
    (asleep : ∀ u, ¬ s.machine.Awake u) : ∃ e next, p = .perform e next ∧ s.Suspends e w := by
  rcases h.suited t _ w ht with ⟨-, hawake | ⟨next, rfl⟩⟩ | ⟨e, next, rfl, hsuits⟩
  · exact absurd hawake (asleep t)
  · exact (hpermits _ _ rfl).elim
  · refine ⟨e, next, rfl, ?_⟩
    have he := hpermits e next rfl
    have hactive := (System.task?_outline t).trans ht
    cases e with
    | request run token request => exact .request
    | sleep token span =>
        cases token with
        | none => exact he.elim
        | some token => exact .sleep
    | join run policy group bs =>
        obtain ⟨tasks, rfl⟩ := hsuits
        exact .join ((h.attended.awake ⟨run, group, bs, next, hactive⟩).resolve_left (asleep t))
    | settle run token =>
        obtain ⟨n, rest, count, rfl⟩ := hsuits
        obtain ⟨hunended, -⟩ :=
          (h.settling t run token next n rest count ht).resolve_left (asleep t)
        obtain ⟨place, hhoused, -⟩ := roofed_of_session h
        obtain ⟨base, home', hb, hbase, -⟩ :=
          hhoused.holds.settling hactive (List.mem_cons_self (a := n))
        exact absurd (hhoused.still asleep hb hbase) hunended
    | acquireSlot => exact he.elim
    | awaitRun submission => exact he.elim
    | _ => exact hsuits.elim

def Interrupted (home : Home) (refused : Prop) (deeds : List Deed) : Prop :=
  ∃ v, (Halting.protocol home).Path .going deeds v ∧
    (deeds = [] ∧ v = .going ∨ ∃ b, v = .halted b ∧ (b = true → refused))

theorem Interrupted.mono {home : Home} {refused more : Prop} {deeds : List Deed}
    (h : Interrupted home refused deeds) (hmore : refused → more) : Interrupted home more deeds := by
  obtain ⟨v, hpath, hv⟩ := h
  exact ⟨v, hpath, hv.imp_right fun ⟨b, hb, hrefused⟩ => ⟨b, hb, fun h => hmore (hrefused h)⟩⟩

theorem Session.goes_on_halted {home : Home} {e : Effect} {a : e.Answer} {b : Bool} {m m' : Machine}
    {x y : System RunResult} (hs : Session config before s) (hr : s.Reaches config log x)
    (hT : x.machine.isCancelled home.base = true)
    (move : x.Moves config [.poll ⟨t, e, some a, m, m'⟩] y) (hb : b = true → RollbackRefused log t)
    (hallows : (Halting.protocol home).allows (.halted b) e) :
    ∃ c, (Halting.protocol home).moves (.halted b) e a (.halted c) ∧
      (c = true → RollbackRefused (log ++ [.poll ⟨t, e, some a, m, m'⟩]) t) := by
  have hkeeps (h : b = true) : RollbackRefused (log ++ [.poll ⟨t, e, some a, m, m'⟩]) t :=
    (hb h).mono (List.subset_append_left _ _)
  cases e with
  | isCancelled token => exact ⟨b, ⟨move.denies hT hallows, rfl⟩, hkeeps⟩
  | sleep token span =>
      cases token with
      | none => exact hallows.elim
      | some token => exact ⟨b, ⟨move.denies hT hallows, rfl⟩, hkeeps⟩
  | settle run token =>
      cases token with
      | none => exact hallows.elim
      | some token => exact ⟨b, rfl, hkeeps⟩
  | releaseTransaction run handle => exact ⟨b, ⟨(hs.reaches hr).released move, rfl⟩, hkeeps⟩
  | restoreSnapshot handle =>
      cases a with
      | ok done =>
          have hscript := ((hs.reaches hr).restored_iff move).mp rfl
          refine ⟨false, Or.inl ⟨rfl, ?_, rfl⟩, nofun⟩
          by_contra hrefused
          obtain ⟨u, handle', error, k, k', hm, -⟩ := hb ((Bool.not_eq_false b).mp hrefused)
          obtain ⟨l, y, z, hy, hmove⟩ := hr.moment_of_mem hm
          rw [hr.script, ← hy.script] at hscript
          cases ((hs.reaches hy).restored_iff hmove).mpr hscript
      | error error =>
          exact ⟨true, Or.inr ⟨⟨error, rfl⟩, rfl⟩, fun _ =>
            ⟨t, handle, error, m, m', List.mem_append_right _ (List.mem_singleton_self _), Or.inl rfl⟩⟩
  | stopDeadline deadline => exact ⟨b, rfl, hkeeps⟩
  | note run note => exact ⟨b, rfl, hkeeps⟩
  | endSpan ctx step status => exact ⟨b, rfl, hkeeps⟩
  | _ => exact hallows.elim

namespace Crew

variable {home : Home} {crew : Nat → Prop} {x x' y y' : System RunResult} {l : List Occurrence}

/-- The first thing that a suspended task is told when its scope is cancelled interrupts it. -/
theorem interrupts (h : Crew home t log x crew) {u : TaskId} (hu : Member t crew u) {e : Effect}
    {next : e.Answer → Program u.Result} {w : Wait} {a : e.Answer} {m m' : Machine}
    (hactive : x.task? u = some (.active (.perform e next) w)) (hsuspends : x.Suspends e w)
    (hpermits : Residence.Permits home e) (hl : x.Reaches config l y) (hd : deedsOf u l = [])
    (hT : y.machine.isCancelled home.base = true)
    (move : y.Moves config [.poll ⟨u, e, some a, m, m'⟩] y')
    (hends : ∀ n p w f order, crew n → x.task? (.branch n) = some (.active p w) →
      y.task? (.branch n) = some (.ended (.error f) order) →
      ∃ b, (b = false → f.isCancellation = true) ∧
        (b = true → RollbackRefused (log ++ l) (.branch n))) :
    ∃ b, (Halting.protocol home).moves .going e a (.halted b) ∧
      (b = true → RollbackRefused (log ++ l) u) := by
  cases hsuspends with
  | request =>
      obtain ⟨⟨moment, ha⟩, -⟩ := move.refuses hT hpermits.2
      exact ⟨false, Or.inr ⟨false, ⟨⟨moment, Option.some.inj ha⟩, rfl⟩, rfl⟩, nofun⟩
  | sleep => exact ⟨false, Or.inr ⟨false, ⟨move.denies hT hpermits, rfl⟩, rfl⟩, nofun⟩
  | @join run policy group bs tasks outstanding =>
      obtain ⟨-, next', w', hw, polls⟩ := move.polls_of_answer
      rw [hl.keeps_waiting hactive hd] at hw
      cases hw
      change y.outline.Joins run policy group _ _ _ at polls
      generalize m'.outline y.main = o at polls
      cases polls with
      | completed quiet all => exact ⟨false, Or.inr ⟨false, nofun, rfl⟩, nofun⟩
      | @failed f order fast first =>
          obtain ⟨n, hn, hresult⟩ := first.mem
          have hended : y.task? (.branch n) = some (.ended (.error f) order) :=
            (System.task?_outline _).symm.trans (Outline.branchResult?_eq_some.mp hresult)
          obtain ⟨hcrew, hstarts⟩ := h.joins hu hactive hn
          obtain ⟨state, hstate⟩ := Option.isSome_iff_exists.mp (h.there hcrew)
          cases state with
          | ended r k =>
              have hsame := hl.branch_ended hstate
              rw [hended] at hsame
              cases hsame
              exact absurd (Outline.branchResult?_eq_some.mpr
                ((System.task?_outline _).trans hstate)) (outstanding.2 fast n hn f order)
          | active p w =>
              obtain ⟨b, hcancelled, hrefused⟩ := hends n p w f order hcrew hstate hended
              refine ⟨b, Or.inr ⟨b, ?_, rfl⟩, fun hb => (hrefused hb).of_branch
                (hstarts.mono (List.subset_append_left _ _))⟩
              rintro _ ⟨⟩ hb
              exact hcancelled hb

/-- A branch of the crew that was suspended and has been interrupted ends with a failure. -/
theorem ends (h : Crew home t log x crew) (hx : Session config before x)
    (asleep : ∀ u, ¬ x.machine.Awake u) (hl : x.Reaches config l y) {n : Nat} (hcrew : crew n)
    {p : Program (Except Failure Json)} {w : Wait}
    (hactive : x.task? (.branch n) = some (.active p w)) {f : Failure} {order : Nat}
    (hended : y.task? (.branch n) = some (.ended (.error f) order)) {refused : Prop}
    (hinterrupted : ∀ e next z, p = .perform e next → p.Follows (deedsOf (.branch n) l) z →
      Interrupted home refused (deedsOf (.branch n) l)) :
    ∃ b, (b = false → f.isCancellation = true) ∧ (b = true → refused) := by
  have hobeys := h.obeys hcrew hactive
  obtain ⟨e, next, rfl, -⟩ := Residence.suspends hx hactive
    (fun e next hp => by subst hp; exact hobeys.1) asleep
  obtain ⟨q, hq, ⟨⟨w', hnow⟩, -⟩ | ⟨r, rfl, ⟨k, hnow⟩ | hrestarted⟩⟩ := hl.follows ⟨w, hactive⟩
  · rw [hended] at hnow
    cases hnow
  · rw [hended] at hnow
    cases hnow
    obtain ⟨v, hpath, ⟨hd, -⟩ | ⟨b, rfl, hb⟩⟩ := hinterrupted e next _ rfl hq
    · rw [hd] at hq
      cases Program.Follows.nil_iff.mp hq
    · obtain ⟨g, hg, hcancelled⟩ := hobeys.follow hq hpath b rfl
      cases hg
      exact ⟨b, hcancelled, hb⟩
  · exact absurd hrestarted (System.not_restarted_branch n _)

/-- When a scope is cancelled while nobody is awake, all that was suspended there is interrupted. -/
theorem interrupted (h : Crew home t log x crew) (hs : Session config before s)
    (hr : s.Reaches config log x) (asleep : ∀ u, ¬ x.machine.Awake u) (hx : x.Moves config [] x')
    (hT : x'.machine.isCancelled home.base = true) (hl : x'.Reaches config l y) {α : Type}
    {u : TaskId} {p z : Program α} {Q : Halting → α → Prop} {k : α → Program u.Result}
    (hu : Member t crew u) (hat : x.At u (p.bind k)) (hp : p.Obeys (Halting.protocol home) Q .going)
    (hactive : ∃ e next, p = .perform e next) (hz : p.Follows (deedsOf u l) z) :
    Interrupted home (RollbackRefused (log ++ l) u) (deedsOf u l) := by
  induction hl generalizing α u with
  | refl => exact ⟨.going, .start _, Or.inl ⟨rfl, rfl⟩⟩
  | @move l more y y' hl move ih =>
      have hmono {u : TaskId} (h : RollbackRefused (log ++ l) u) :
          RollbackRefused (log ++ (l ++ more)) u := by
        rw [← List.append_assoc]
        exact h.mono (List.subset_append_left _ _)
      by_cases hrestarted : Restarted u l
      · rw [deedsOf_append_of_restarted hrestarted] at hz ⊢
        exact (ih hu hat hp hactive hz).mono hmono
      rw [deedsOf_append hrestarted] at hz ⊢
      obtain ⟨q, hq, hmore⟩ := Program.Follows.append_iff.mp hz
      have hbefore := ih hu hat hp hactive hq
      cases hdeed : deedsOf u more with
      | nil =>
          rw [List.append_nil]
          exact hbefore.mono hmono
      | cons d rest =>
          obtain ⟨e, a⟩ := d
          obtain ⟨m, m', hm⟩ := mem_of_deed (hdeed ▸ List.mem_cons_self)
          obtain rfl := move.advances.eq_singleton_of_mem hm
          obtain rfl : rest = [] := by simpa [deedsOf] using hdeed.symm
          obtain ⟨next, rfl⟩ : ∃ next, q = .perform e next := by
            rw [hdeed] at hmore
            cases hmore with
            | deed tail => exact ⟨_, rfl⟩
          obtain ⟨v, hpath, hv⟩ := hbefore
          have hnext := hp.follow hq hpath
          have hxl : x.Reaches config l y := (System.Reaches.single hx).trans hl
          suffices hstep : ∃ c, (Halting.protocol home).moves v e a (.halted c) ∧
              (c = true → RollbackRefused (log ++ (l ++ [.poll ⟨u, e, some a, m, m'⟩])) u) by
            obtain ⟨c, hmove, hrefused⟩ := hstep
            exact ⟨.halted c, hpath.append (.deed hmove (.start _)), Or.inr ⟨c, rfl, hrefused⟩⟩
          obtain ⟨hd, rfl⟩ | ⟨b, rfl, hb⟩ := hv
          · rw [hd, Program.Follows.nil_iff] at hq
            subst hq
            obtain ⟨w, hw⟩ := hat
            obtain ⟨e', next', hsame, hsuspends⟩ := Residence.suspends (hs.reaches hr) hw
              (fun e' next' he => by cases he; exact hnext.1) asleep
            cases hsame
            obtain ⟨c, hmove, hrefused⟩ := h.interrupts hu hw hsuspends hnext.1 hxl hd
              (hl.isCancelled hT) move fun n p w f order hcrew hstate hended =>
                h.ends (hs.reaches hr) asleep hxl hcrew hstate hended fun e next z hp hz =>
                  ih (Or.inr ⟨n, rfl, hcrew⟩) ⟨w, by rwa [Program.bind_pure_right]⟩
                    (h.obeys hcrew hstate) ⟨e, next, hp⟩ hz
            exact ⟨c, hmove, fun hc => hmono (hrefused hc)⟩
          · obtain ⟨c, hmove, hrefused⟩ := hs.goes_on_halted (hr.trans hxl) (hl.isCancelled hT) move
              hb hnext.1
            exact ⟨c, hmove, fun hc => by simpa only [List.append_assoc] using hrefused hc⟩

/-- A part of a program that was interrupted fails when it ends, with a cancellation unless a
rollback was refused. -/
theorem fails (h : Crew home t log x crew) (hs : Session config before s)
    (hr : s.Reaches config log x) (asleep : ∀ u, ¬ x.machine.Awake u) (hx : x.Moves config [] x')
    (hT : x'.machine.isCancelled home.base = true) (hl : x'.Reaches config l y) {α : Type}
    {e : Effect} {next : e.Answer → Program (Except Failure α × Scope)}
    {k : Except Failure α × Scope → Program t.Result} {r : Except Failure α × Scope}
    (hat : x.At t ((Program.perform e next).bind k))
    (hp : (Program.perform e next).Obeys (Halting.protocol home) (fun v r => Halting.Ends v r.1) .going)
    (hends : (Program.perform e next).Follows (deedsOf t l) (.pure r)) :
    ∃ f, r.1 = .error f ∧ (f.isCancellation = true ∨ RollbackRefused (log ++ l) t) := by
  obtain ⟨v, hpath, ⟨hd, -⟩ | ⟨b, rfl, hb⟩⟩ :=
    h.interrupted hs hr asleep hx hT hl (Or.inl rfl) hat hp ⟨e, next, rfl⟩ hends
  · rw [hd] at hends
    cases Program.Follows.nil_iff.mp hends
  · obtain ⟨f, hf, hcancelled⟩ := hp.follow hends hpath b rfl
    refine ⟨f, hf, ?_⟩
    cases b with
    | false => exact Or.inl (hcancelled rfl)
    | true => exact Or.inr (hb rfl)

end Crew

end FlowEngine
