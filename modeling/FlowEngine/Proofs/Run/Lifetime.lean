import FlowEngine.Proofs.Execution.Performing
import FlowEngine.Proofs.Run.Membership
import FlowEngine.Proofs.Run.Journals
import FlowEngine.Proofs.Session.Course
import FlowEngine.Proofs.Session.Polled

/-!
# The life of a run

A run of a flow is one task's program, from the moment at which the task opens the run to that
at which it closes it. `Session.Gives` says that the program came to a result, and
`Session.Lives` what lies between the two moments: the result is read off what was written down
for the run there.
-/
namespace FlowEngine

open Exec Execution

variable {config : Config} {flow : Flow} {before after : List Occurrence} {result : RunResult}

/-- A task that comes to a run of a flow at one moment of a session has the result of the run at a
later one. -/
inductive Session.Gives (config : Config) (flow : Flow) (before after : List Occurrence)
    (result : RunResult) : Prop where
  | intro {s s' : System RunResult} {t : TaskId} {inputs : List (String × Json)} {parent : Token}
      {k : RunResult → Program t.Result} (session : Session config before s)
      (begins : s.At t ((run config flow inputs parent).bind k))
      (reaches : s.Reaches config after s')
      (yields : (run config flow inputs parent).Yields (deedsOf t after) result)

/-- What comes about by the time at which a run has a result is a session. -/
theorem Session.Gives.reached (h : Session.Gives config flow before after result) :
    ∃ s, Session config (before ++ after) s := by
  obtain ⟨session, begins, reaches, yields⟩ := h
  exact ⟨_, session.reaches reaches⟩

/-- A task has just opened a run of a flow. -/
structure Session.Commences (config : Config) (flow : Flow) (earlier : List Occurrence)
    (u : System RunResult) (t : TaskId) (ctx : Context) (inputs : List (String × Json)) : Prop where
  limit : ctx.stepLimit = config.stepTimeout
  opening : ∃ l s parent m m',
    earlier = l ++ [.poll ⟨t, .openRun flow.name parent, some (ctx.run, ctx.token), m, m'⟩] ∧
      Session config l s ∧
      s.Moves config [.poll ⟨t, .openRun flow.name parent, some (ctx.run, ctx.token), m, m'⟩] u
  begins : ∃ k, u.task? t =
    some (.active ((afterOpening config flow inputs (ctx.run, ctx.token)).bind k) .fresh)

/-- What happens between the moment at which a task opens a run of a flow and the one at which
it closes the run with a result. -/
structure Session.Lives (config : Config) (flow : Flow) (earlier during : List Occurrence)
    (u v : System RunResult) (t : TaskId) (ctx : Context) (inputs : List (String × Json))
    (ending : Ending) (outputs : List (String × Json)) (result : RunResult) : Prop where
  limit : ctx.stepLimit = config.stepTimeout
  opening : ∃ l s parent m m',
    earlier = l ++ [.poll ⟨t, .openRun flow.name parent, some (ctx.run, ctx.token), m, m'⟩] ∧
      Session config l s ∧
      s.Moves config [.poll ⟨t, .openRun flow.name parent, some (ctx.run, ctx.token), m, m'⟩] u
  begins : ∃ k, u.task? t =
    some (.active ((afterOpening config flow inputs (ctx.run, ctx.token)).bind k) .fresh)
  reaches : u.Reaches config during v
  once : ¬ Restarted t during
  closing : (afterOpening config flow inputs (ctx.run, ctx.token)).Follows
    (deedsOf t during ++ [⟨.closeRun ctx.run ending outputs, result⟩]) (.pure result)
  closes : ∃ m m' v',
    v.Moves config [.poll ⟨t, .closeRun ctx.run ending outputs, some result, m, m'⟩] v'

theorem Session.lives_of_opened {earlier log : List Occurrence} {u w : System RunResult} {t : TaskId}
    (ctx : Context) {inputs : List (String × Json)} {more : List Deed}
    {k : RunResult → Program t.Result} (hlimit : ctx.stepLimit = config.stepTimeout)
    (hopening : ∃ l s parent m m',
      earlier = l ++ [.poll ⟨t, .openRun flow.name parent, some (ctx.run, ctx.token), m, m'⟩] ∧
        Session config l s ∧
        s.Moves config [.poll ⟨t, .openRun flow.name parent, some (ctx.run, ctx.token), m, m'⟩] u)
    (hbegins : u.task? t =
      some (.active ((afterOpening config flow inputs (ctx.run, ctx.token)).bind k) .fresh))
    (hreaches : u.Reaches config log w) {d : List Deed} (hdeeds : deedsOf t log = d ++ more)
    (hcloses : (afterOpening config flow inputs (ctx.run, ctx.token)).Follows d (.pure result)) :
    ∃ during ending outputs v m later,
      log = during ++ .poll ⟨t, .closeRun ctx.run ending outputs, some result, v.machine, m⟩ :: later ∧
      Session.Lives config flow earlier during u v t ctx inputs ending outputs result := by
  obtain ⟨d₁, d₂, d₃, d₄, d₅, r, sc, timedOut, p, rfl, -⟩ := afterOpening_follows hcloses
  simp only [← List.append_assoc] at hdeeds
  rw [List.append_assoc, List.singleton_append] at hdeeds
  obtain ⟨during, m, m', later, rfl, honce, hduring, -⟩ := deedsOf_split hdeeds
  obtain ⟨v, v', hv, hclose, -⟩ := hreaches.moment
  obtain rfl : m = v.machine := hclose.polls_of_poll.1
  refine ⟨during, p.1, p.2.flow, v, m', later, rfl, hlimit, hopening, ⟨k, hbegins⟩, hv, honce, ?_, _,
    m', v', hclose⟩
  rw [hduring]
  simpa using hcloses

theorem Session.commences_of_opening {l : List Occurrence} {s s₁ u : System RunResult} {t : TaskId}
    {inputs : List (String × Json)} {parent token : Token} {k : RunResult → Program t.Result}
    {number : Nat} {m m' : Machine} (session : Session config before s)
    (begins : s.At t ((run config flow inputs parent).bind k)) (hl : s.Reaches config l s₁)
    (hquiet : deedsOf t l = [])
    (move : s₁.Moves config [.poll ⟨t, .openRun flow.name parent, some (number, token), m, m'⟩] u) :
    Session.Commences config flow
      (before ++ (l ++ [.poll ⟨t, .openRun flow.name parent, some (number, token), m, m'⟩]))
      u t ⟨number, token, config.stepTimeout⟩ inputs := by
  rw [run_eq_perform] at begins
  have hat : s₁.At t (.perform (.openRun flow.name parent) fun opened =>
      (afterOpening config flow inputs opened).bind k) := (hl.stays begins hquiet).1
  exact ⟨rfl, ⟨before ++ l, s₁, parent, m, m', (List.append_assoc ..).symm, session.reaches hl, move⟩,
    k, move.goes_on hat⟩

/-- The moment at which a task that comes to a run of a flow opens the run. -/
theorem Session.commences {s s' : System RunResult} {t : TaskId} {inputs : List (String × Json)}
    {parent token : Token} {k : RunResult → Program t.Result} {number : Nat} {d : List Deed}
    (session : Session config before s) (begins : s.At t ((run config flow inputs parent).bind k))
    (reaches : s.Reaches config after s')
    (hdeeds : deedsOf t after = ⟨.openRun flow.name parent, (number, token)⟩ :: d) :
    ∃ l m m' log u,
      after = l ++ .poll ⟨t, .openRun flow.name parent, some (number, token), m, m'⟩ :: log ∧
      Session.Commences config flow
        (before ++ (l ++ [.poll ⟨t, .openRun flow.name parent, some (number, token), m, m'⟩]))
        u t ⟨number, token, config.stepTimeout⟩ inputs ∧
      u.Reaches config log s' ∧ deedsOf t log = d := by
  obtain ⟨l, m, m', log, rfl, -, hl, hlog⟩ := @deedsOf_split t _ [] _ _ hdeeds
  obtain ⟨s₁, u, hs₁, hmove, hu⟩ := reaches.moment
  exact ⟨l, m, m', log, u, rfl, session.commences_of_opening begins hs₁ hl hmove, hu, hlog⟩

theorem Session.Gives.lives (h : Session.Gives config flow before after result) :
    ∃ t l parent ctx m₁ m₁' during ending outputs m₂ later u v inputs,
      after = l ++ .poll ⟨t, .openRun flow.name parent, some (ctx.run, ctx.token), m₁, m₁'⟩ ::
        (during ++ .poll ⟨t, .closeRun ctx.run ending outputs, some result, v.machine, m₂⟩ :: later) ∧
      Session.Lives config flow
        (before ++ (l ++ [.poll ⟨t, .openRun flow.name parent, some (ctx.run, ctx.token), m₁, m₁'⟩]))
        during u v t ctx inputs ending outputs result := by
  obtain ⟨session, begins, reaches, d, more, hdeeds, hfollows⟩ := h
  rename_i s s' t inputs parent k
  rw [run_eq_perform] at hfollows
  obtain ⟨-, h⟩ | ⟨⟨number, token⟩, d, rfl, hopened⟩ := hfollows.cons_of_perform
  · cases h
  obtain ⟨l, m₁, m₁', log, u, rfl, hcommences, hu, hlog⟩ := Session.commences session begins reaches hdeeds
  obtain ⟨k', hbegins⟩ := hcommences.begins
  obtain ⟨during, ending, outputs, v, m₂, later, rfl, hlives⟩ :=
    Session.lives_of_opened ⟨number, token, config.stepTimeout⟩ rfl hcommences.opening hbegins hu hlog
      hopened
  exact ⟨t, l, parent, ⟨number, token, config.stepTimeout⟩, m₁, m₁', during, ending, outputs, m₂,
    later, u, v, inputs, rfl, hlives⟩

/-- A flow that is run once has a result when the main task has ended. -/
theorem Solo.gives (a : Solo) (fuel : Nat) (h : a.world.store.store.snapshots = []) {order : Nat}
    (hend : (a.start.course fuel).2.main = .ended result order) :
    Session.Gives a.config a.flow [.errand] (a.start.course fuel).1 result := by
  have hbegins : a.start.At .main
      ((run a.config a.flow a.inputs (Machine.new a.config a.world).newToken.1).bind .pure) :=
    ⟨.fresh, by rw [Program.bind_pure_right]; rfl⟩
  have hreaches := @System.reaches_course a.config fuel a.start
  refine .intro (a.session 0 h) hbegins hreaches ?_
  rw [Program.bind_pure_right] at hbegins
  exact ⟨_, [], (List.append_nil _).symm, System.follows_course hbegins hend⟩

theorem Solo.exists_gives (a : Solo) (fuel : Nat) (h : a.world.store.store.snapshots = [])
    {p : RunResult → Bool}
    (hp : ((a.start.course fuel).2.main.result?.any fun x => p x.1) = true) :
    ∃ result, Session.Gives a.config a.flow [.errand] (a.start.course fuel).1 result ∧
      p result = true := by
  cases hmain : (a.start.course fuel).2.main with
  | active q w =>
      rw [hmain] at hp
      cases hp
  | ended result order =>
      rw [hmain] at hp
      exact ⟨result, a.gives fuel h hmain, hp⟩

theorem Session.exists_branch {log : List Occurrence} {s : System RunResult} {run n : Nat}
    (h : Session config log s) (hn : (run, n) ∈ startings log) :
    ∃ state, s.task? (.branch n) = some state := by
  obtain ⟨place, hhoused⟩ := Residence.housed_of_session h
  obtain ⟨base, hlt, -⟩ := hhoused.started hn
  exact ⟨s.outline.branches[n], (System.task?_outline _).symm.trans (List.getElem?_eq_getElem hlt)⟩

namespace Session.Commences

variable {earlier l : List Occurrence} {s s' u : System RunResult} {t : TaskId} {ctx : Context}
  {inputs : List (String × Json)} (h : Session.Commences config flow earlier u t ctx inputs)
include h

theorem session : Session config earlier u := by
  obtain ⟨l, s, parent, m, m', rfl, hs, hmove⟩ := h.opening
  exact hs.reaches (.single hmove)

theorem empty : u.outline.journal? ctx.run = some (.start flow.name) := by
  obtain ⟨l, s, parent, m, m', rfl, hs, hmove⟩ := h.opening
  exact hmove.advances.journal?_of_opens.2

/-- Nothing that came before it concerns the run. -/
theorem fresh {x : Poll} (hx : .poll x ∈ earlier) : x.effect.run? ≠ some ctx.run := by
  obtain ⟨l, s, parent, m, m', rfl, hs, hmove⟩ := h.opening
  intro hrun
  rcases List.mem_append.mp hx with hx | hx
  · exact Nat.ne_of_lt (hs.lt_of_concerns hx hrun) hmove.advances.journal?_of_opens.1
  · cases List.mem_singleton.mp hx
    cases hrun

theorem opens_once (hr : u.Reaches config l s) {t' : TaskId} {flow' : String} {parent token : Token}
    {m m' : Machine} (hm : .poll ⟨t', .openRun flow' parent, some (ctx.run, token), m, m'⟩ ∈ earlier ++ l) :
    t' = t ∧ token = ctx.token := by
  obtain ⟨k, s₀, parent, m, m', rfl, ⟨s₁, hs₁, hk⟩, hmove⟩ := h.opening
  have hrun := hmove.advances.journal?_of_opens.1
  rcases List.mem_append.mp hm with hm | hm
  · rcases List.mem_append.mp hm with hm | hm
    · exact absurd hrun (Nat.ne_of_lt (hk.opens.2 _ _ _ _ _ _ _ hm).2)
    · cases List.mem_singleton.mp hm
      exact ⟨rfl, rfl⟩
  · have hlt := ((System.Reaches.single hmove).opens.2 _ _ _ _ _ _ _ (List.mem_singleton_self _)).2
    exact absurd (hr.opens.2 _ _ _ _ _ _ _ hm).1 (Nat.not_le.mpr hlt)

theorem opener (hr : u.Reaches config l s) {t' : TaskId} (ht : Opened (earlier ++ l) ctx.run t') :
    t' = t := by
  obtain ⟨before, flow', parent', token, m, m', after, heq, -⟩ := ht
  exact (h.opens_once hr (heq ▸ List.mem_append_right _ List.mem_cons_self)).1

theorem started {n : Nat} (hn : (ctx.run, n) ∈ startings (earlier ++ l)) :
    (ctx.run, n) ∈ startings l := by
  rw [startings_append, List.mem_append] at hn
  rcases hn with hold | hnew
  · obtain ⟨t', policy, group, bs, m, m', hm, -⟩ := mem_startings.mp hold
    exact absurd rfl (h.fresh hm)
  · exact hnew

theorem exists_branch (hr : u.Reaches config l s) {n : Nat} (hn : (ctx.run, n) ∈ startings l) :
    ∃ state, s.task? (.branch n) = some state :=
  (h.session.reaches hr).exists_branch (startings_append earlier l ▸ List.mem_append_right _ hn)

/-- What is done for the run is done by the task that opened it or by a branch that one of its
joins has started. -/
theorem worker {x : Poll} (hr : u.Reaches config l s) (move : s.Moves config [.poll x] s')
    (hx : x.effect.run? = some ctx.run) :
    x.task = t ∨ ∃ n, x.task = .branch n ∧ (ctx.run, n) ∈ startings l := by
  rcases (h.session.reaches hr).serves_of_poll move hx with hopened | ⟨n, hn, hstarted⟩
  · exact Or.inl (h.opener hr hopened)
  · exact Or.inr ⟨n, hn, h.started hstarted⟩

theorem open_of_concerns {x : Poll} (hr : u.Reaches config l s) (move : s.Moves config [.poll x] s')
    (hx : x.effect.run? = some ctx.run) : ctx.run ∉ closings l := by
  obtain ⟨place, hhoused⟩ := Residence.housed_of_session (h.session.reaches hr)
  intro hclosed
  refine hhoused.run_ne_of_closed ?_ move hx
  rw [closings_append]
  exact List.mem_append_right _ hclosed

/-- The task that opened the run goes on in the program of the run, or it has closed the run. -/
theorem goes_on (hr : u.Reaches config l s) :
    (∃ e next, ∃ rest : RunResult → Program t.Result,
      (afterOpening config flow inputs (ctx.run, ctx.token)).Follows (deedsOf t l) (.perform e next) ∧
        s.At t ((Program.perform e next).bind rest) ∧ ¬ Restarted t l) ∨ ctx.run ∈ closings l := by
  have closed {d more : List Deed} {result : RunResult} (hdeeds : deedsOf t l = d ++ more)
      (hcloses : (afterOpening config flow inputs (ctx.run, ctx.token)).Follows d (.pure result)) :
      ctx.run ∈ closings l := by
    obtain ⟨d₁, d₂, d₃, d₄, d₅, r, sc, timedOut, p, rfl, -⟩ := afterOpening_follows hcloses
    have hdeed : (⟨.closeRun ctx.run p.1 p.2.flow, result⟩ : Deed) ∈ deedsOf t l := by simp [hdeeds]
    obtain ⟨m, m', hm⟩ := mem_of_deed hdeed
    exact mem_closings.mpr ⟨t, p.1, p.2.flow, result, m, m', hm⟩
  obtain ⟨rest, hbegins⟩ := h.begins
  obtain ⟨q, hq, hnow⟩ := hr.follows ⟨_, hbegins⟩
  rcases hq.bind_cases with ⟨p, hp, rfl⟩ | ⟨d, more, result, hdeeds, hcloses, -⟩
  · cases p with
    | pure result => exact Or.inr (closed (List.append_nil _).symm hp)
    | perform e next =>
        rcases hnow with ⟨hat, hrestarted⟩ | ⟨a, hend, -⟩
        · exact Or.inl ⟨e, next, rest, hp, hat, hrestarted⟩
        · cases hend
  · exact Or.inr (closed hdeeds hcloses)

/-- Until it closes the run, the task that opened it performs what the program of the run may
perform. -/
theorem performs {φ : Effect → Prop}
    (hφ : (afterOpening config flow inputs (ctx.run, ctx.token)).Performs φ)
    (hr : u.Reaches config l s) (hopen : ctx.run ∉ closings l) {e : Effect}
    {next : e.Answer → Program t.Result} (hat : s.At t (.perform e next)) : φ e := by
  obtain ⟨e', next', rest, hfollows, ⟨w', hat'⟩, -⟩ := (h.goes_on hr).resolve_right hopen
  obtain ⟨w, hat⟩ := hat
  cases hat.symm.trans hat'
  exact hφ.next hfollows

/-- A run of a flow without steps that fan out starts no branches. -/
theorem not_started (hflow : ∀ n ∈ flow.nodes, n.action.policy? = none) (hr : u.Reaches config l s)
    (n : Nat) : (ctx.run, n) ∉ startings l := by
  have hφ : (afterOpening config flow inputs (ctx.run, ctx.token)).Performs fun e =>
      ∀ run policy group bs, e ≠ .join run policy group bs := by
    have hmet : Effect.Met (fun e => ∀ run policy group bs, e ≠ .join run policy group bs)
        fun s => s.action.policy? = none := by
      refine ⟨?_, fun _ _ _ _ _ _ _ _ _ => Effect.noConfusion, fun hnone hpolicy => ?_⟩
      · rintro e he run policy group bs rfl
        exact he
      · cases hnone.symm.trans hpolicy
    exact performs_afterOpening hmet hflow config inputs _
  induction hr generalizing n with
  | refl => exact List.not_mem_nil
  | @move l more s s' before move ih =>
      intro hn
      rw [startings_append, List.mem_append] at hn
      rcases hn with hold | hnew
      · exact ih n hold
      · obtain ⟨t', policy, group, bs, m, m', hm, -⟩ := mem_startings.mp hnew
        obtain rfl := move.advances.eq_singleton_of_mem hm
        rcases h.worker before move rfl with ht | ⟨n', -, hstarted⟩
        · obtain ⟨next, w, active⟩ := move.advances.active_of_poll
          rw [System.task?_outline] at active
          subst ht
          exact h.performs hφ before (h.open_of_concerns before move rfl) ⟨w, active⟩ _ _ _ _ rfl
        · exact ih n' hstarted

section

variable {φ : Effect → Prop}
  (hmain : (afterOpening config flow inputs (ctx.run, ctx.token)).Performs φ)
  (hbranch : ∀ policy group bs, φ (.join ctx.run policy group bs) → ∀ b ∈ bs, b.program.Performs φ)
include hmain hbranch

/-- While the run is open, a branch that was started for it performs what the branches of the run may
perform. -/
theorem branch_performs (hr : u.Reaches config l s) (hopen : ctx.run ∉ closings l) {n : Nat}
    (hn : (ctx.run, n) ∈ startings l) {p : Program (Except Failure Json)} {w : Wait}
    (hp : s.task? (.branch n) = some (.active p w)) : p.Performs φ := by
  induction hr generalizing n p w with
  | refl => exact absurd hn List.not_mem_nil
  | @move l more s s' before move ih =>
      rw [closings_append, List.mem_append, not_or] at hopen
      rw [startings_append, List.mem_append] at hn
      rcases hn with hold | hnew
      · obtain ⟨state, hs⟩ := h.exists_branch before hold
        rw [← System.task?_outline] at hs hp
        cases state with
        | active q v =>
            obtain ⟨q', hq', ⟨v', hnow⟩ | ⟨a, k, -, hnow⟩⟩ := move.advances.follows hs
            · rw [hnow] at hp
              cases hp
              exact (ih hopen.1 hold ((System.task?_outline _).symm.trans hs)).follow hq'
            · cases hnow.symm.trans hp
        | ended r order =>
            rcases move.advances.ended hs with ⟨-, hstill | hrestarted⟩
            · cases hstill.symm.trans hp
            · exact absurd hrestarted (System.not_restarted_branch n more)
      · obtain ⟨t', policy, group, bs, m, m', hm, hge, -⟩ := mem_startings.mp hnew
        obtain rfl := move.advances.eq_singleton_of_mem hm
        obtain ⟨rfl, ⟨next, wait, active⟩, b, hb, heq⟩ := move.born_of_join hge hp
        cases heq
        refine hbranch policy group bs ?_ b hb
        rcases h.worker before move rfl with ht | ⟨n', ht, hstarted⟩
        · subst ht
          exact h.performs hmain before hopen.1 ⟨wait, active⟩
        · subst ht
          exact (ih hopen.1 hstarted active).1

/-- Whatever is done for the run is what its program and the branches that it may start perform. -/
theorem performs_of_poll {x : Poll} (hr : u.Reaches config l s) (move : s.Moves config [.poll x] s')
    (hx : x.effect.run? = some ctx.run) : φ x.effect := by
  have hopen := h.open_of_concerns hr move hx
  obtain ⟨-, next, w, polls⟩ := move.polls_of_poll
  obtain ⟨t', e, answer, m, m'⟩ := x
  rcases h.worker hr move hx with ht | ⟨n, ht, hstarted⟩
  · subst ht
    exact h.performs hmain hr hopen ⟨w, polls.active⟩
  · subst ht
    exact (h.branch_performs hmain hbranch hr hopen hstarted polls.active).1

end

end Session.Commences

namespace Session.Lives

variable {earlier during : List Occurrence} {u v : System RunResult} {t : TaskId} {ctx : Context}
  {inputs : List (String × Json)} {ending : Ending} {outputs : List (String × Json)}

theorem commences (h : Session.Lives config flow earlier during u v t ctx inputs ending outputs result) :
    Session.Commences config flow earlier u t ctx inputs :=
  ⟨h.limit, h.opening, h.begins⟩

theorem session (h : Session.Lives config flow earlier during u v t ctx inputs ending outputs result) :
    Session config earlier u :=
  h.commences.session

theorem empty (h : Session.Lives config flow earlier during u v t ctx inputs ending outputs result) :
    u.outline.journal? ctx.run = some (.start flow.name) :=
  h.commences.empty

theorem exists_branch (h : Session.Lives config flow earlier during u v t ctx inputs ending outputs result)
    {l : List Occurrence} {s : System RunResult} (hr : u.Reaches config l s) {n : Nat}
    (hn : (ctx.run, n) ∈ startings l) : ∃ state, s.task? (.branch n) = some state :=
  h.commences.exists_branch hr hn

/-- What is done for the run is done by the task that opened it or by a branch that one of its
joins has started. -/
theorem worker (h : Session.Lives config flow earlier during u v t ctx inputs ending outputs result)
    {l : List Occurrence} {s s' : System RunResult} {x : Poll} (hr : u.Reaches config l s)
    (move : s.Moves config [.poll x] s') (hx : x.effect.run? = some ctx.run) :
    x.task = t ∨ ∃ n, x.task = .branch n ∧ (ctx.run, n) ∈ startings l :=
  h.commences.worker hr move hx

theorem unclosed (h : Session.Lives config flow earlier during u v t ctx inputs ending outputs result) :
    ctx.run ∉ closings (earlier ++ during) := by
  obtain ⟨m, m', v', hclose⟩ := h.closes
  obtain ⟨place, hhoused⟩ := Residence.housed_of_session (h.session.reaches h.reaches)
  intro hclosed
  exact hhoused.run_ne_of_closed hclosed hclose rfl

/-- Until it closes the run, the task that opened it goes on in the program of the run. -/
theorem goes_on (h : Session.Lives config flow earlier during u v t ctx inputs ending outputs result)
    {l k : List Occurrence} (hlog : during = l ++ k) {s : System RunResult}
    (hr : u.Reaches config l s) : ∃ e next, ∃ rest : RunResult → Program t.Result,
      (afterOpening config flow inputs (ctx.run, ctx.token)).Follows (deedsOf t l) (.perform e next) ∧
        s.At t ((Program.perform e next).bind rest) := by
  have hopen : ctx.run ∉ closings l := by
    intro hclosed
    refine h.unclosed ?_
    rw [hlog, closings_append, closings_append]
    exact List.mem_append_right _ (List.mem_append_left _ hclosed)
  obtain ⟨e, next, rest, hfollows, hat, -⟩ := (h.commences.goes_on hr).resolve_right hopen
  exact ⟨e, next, rest, hfollows, hat⟩

/-- A run of a flow without steps that fan out starts no branches. -/
theorem not_started (h : Session.Lives config flow earlier during u v t ctx inputs ending outputs result)
    (hflow : ∀ n ∈ flow.nodes, n.action.policy? = none) (n : Nat) :
    (ctx.run, n) ∉ startings during :=
  h.commences.not_started hflow h.reaches n

theorem journal (h : Session.Lives config flow earlier during u v t ctx inputs ending outputs result) :
    v.outline.journal? ctx.run = some ((Journal.start flow.name).write (entriesOf ctx.run during)) := by
  refine h.reaches.journal? h.empty fun hclosed => h.unclosed ?_
  rw [closings_append]
  exact List.mem_append_right _ hclosed

theorem result_eq (h : Session.Lives config flow earlier during u v t ctx inputs ending outputs result) :
    result = (((Journal.start flow.name).write (entriesOf ctx.run during)).finish ending).result
      ctx.run ending outputs := by
  obtain ⟨m, m', v', hclose⟩ := h.closes
  obtain ⟨-, next, w, -, polls⟩ := hclose.polls_of_answer
  obtain ⟨r, hr, hjournal⟩ := Option.map_eq_some_iff.mp h.journal
  simp only [Outline.Polls, hr, hjournal] at polls
  exact (Turn.answered.inj polls.1)

end Session.Lives
end FlowEngine
