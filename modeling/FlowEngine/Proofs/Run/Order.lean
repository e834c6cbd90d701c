import FlowEngine.Proofs.Execution.Allowance
import FlowEngine.Proofs.Flow.Checks
import FlowEngine.Proofs.Run.Results
import FlowEngine.Proofs.Run.Sequence
import Mathlib.Data.Multiset.AddSub
import Mathlib.Data.Multiset.Replicate

/-!
# The order of steps

In every sequence the steps are done one after the other, and a valid flow without loops and retries
writes down each of its steps at most once. For the latter the allowance of a run is handed out to the
tasks that work for it: what was written down so far and what the tasks still have never exceeds the
steps that are there.
-/
namespace FlowEngine

open Exec Execution

variable {config : Config} {flow : Flow} {id : String} {run number total n m : Nat}
  {log more : List Occurrence} {s s' : System RunResult} {t τ : TaskId} {bs : List Branch}

/-! ## What was written down -/

def timesWritten (id : String) (run : Nat) (log : List Occurrence) : Nat :=
  (((entriesOf run log).filterMap Entry.record?).map StepRecord.stepId).count id

theorem timesWritten_append (id : String) (run : Nat) (log more : List Occurrence) :
    timesWritten id run (log ++ more) = timesWritten id run log + timesWritten id run more := by
  simp [timesWritten, entriesOf_append]

theorem timesWritten_eq_zero
    (h : ∀ t entry m m', .poll ⟨t, .note run entry, some (), m, m'⟩ ∉ log) :
    timesWritten id run log = 0 := by
  have hnone : entriesOf run log = [] := by
    rw [List.eq_nil_iff_forall_not_mem]
    intro entry hentry
    obtain ⟨t, m, m', hm⟩ := mem_entriesOf.mp hentry
    exact h t entry m m' hm
  rw [timesWritten, hnone]
  rfl

theorem timesWritten_answer (id : String) (run : Nat) (t : TaskId) (e : Effect) (a : e.Answer)
    (m m' : Machine) : timesWritten id run [.poll ⟨t, e, some a, m, m'⟩] ≤ e.demand id := by
  have hentries : entriesOf run [.poll ⟨t, e, some a, m, m'⟩] = e.entriesFor run := by
    simp [entriesOf]
  rw [timesWritten, hentries]
  cases e with
  | note number entry =>
      unfold Effect.entriesFor
      split
      · cases entry with
        | record r => simp [Effect.entries, Effect.demand, Entry.record?, List.count_singleton]
        | _ => exact Nat.zero_le _
      · exact Nat.zero_le _
  | _ => simp [Effect.entriesFor, Effect.entries]

/-! ## Allowances of tasks -/

def Branch.shares (id : String) (first : Nat) : List Branch → Multiset TaskId
  | [] => 0
  | b :: rest => Multiset.replicate (b.demand id) (.branch first) + shares id (first + 1) rest

theorem Branch.card_shares (id : String) (first : Nat) (bs : List Branch) :
    (shares id first bs).card = (bs.map (Branch.demand id)).sum := by
  induction bs generalizing first with
  | nil => rfl
  | cons b rest ih => simp [shares, ih]

theorem Branch.demand_le_count_shares {first i : Nat} {b : Branch} (hb : bs[i]? = some b) :
    b.demand id ≤ (shares id first bs).count (.branch (first + i)) := by
  induction bs generalizing first i with
  | nil => simp at hb
  | cons head rest ih =>
      rw [shares, Multiset.count_add]
      cases i with
      | zero =>
          cases hb
          rw [Nat.add_zero, Multiset.count_replicate_self]
          exact Nat.le_add_right _ _
      | succ i =>
          refine Nat.le_trans ?_ (Nat.le_add_left _ _)
          rw [← Nat.succ_add_eq_add_succ]
          exact ih hb

/-- What a program needs that goes on from a wait: a join that waits for its branches has handed over
to them what they need. -/
inductive Program.Pays {α : Type} (id : String) (run : Nat) : Program α → Wait → Nat → Prop where
  | ahead {p : Program α} {w : Wait} {n : Nat} (within : p.Within id run n) : Pays id run p w n
  | joined {number : Nat} {policy : JoinPolicy} {group : Token} {bs : List Branch}
      {next : Except Failure (List BranchOutcome) → Program α} {tasks : List Nat} {n : Nat}
      (rest : ∀ a, (next a).Within id run n) :
      Pays id run (.perform (.join number policy group bs) next) (.branches tasks) n

theorem Program.Pays.mono {α : Type} {p : Program α} {w : Wait} (h : p.Pays id run w n)
    (hnm : n ≤ m) : p.Pays id run w m := by
  cases h with
  | ahead within => exact .ahead (within.mono hnm)
  | joined rest => exact .joined fun a => (rest a).mono hnm

def Works (run : Nat) (t : TaskId) (log : List Occurrence) (τ : TaskId) : Prop :=
  τ = t ∨ ∃ n, τ = .branch n ∧ (run, n) ∈ startings log

theorem Works.of_append (h : Works run t (log ++ more) τ) :
    Works run t log τ ∨ ∃ n, τ = .branch n ∧ (run, n) ∈ startings more := by
  rcases h with rfl | ⟨n, rfl, hn⟩
  · exact Or.inl (Or.inl rfl)
  · rw [startings_append, List.mem_append] at hn
    exact hn.imp (fun hold => Or.inr ⟨n, rfl, hold⟩) fun hnew => ⟨n, rfl, hnew⟩

/-- So far a run has not exceeded its allowance, and each task that works for it has a share in the
rest that it can go on with. -/
structure Affords (id : String) (run total : Nat) (t : TaskId) (log : List Occurrence)
    (s : System RunResult) (shares : Multiset TaskId) : Prop where
  covers : timesWritten id run log + shares.card ≤ total
  pays {τ : TaskId} {p : Program τ.Result} {w : Wait} : Works run t log τ →
    s.task? τ = some (.active p w) → p.Pays id run w (shares.count τ)

section

variable {earlier during l k : List Occurrence} {u v : System RunResult} {ctx : Context}
  {inputs : List (String × Json)} {ending : Ending} {outputs : List (String × Json)}
  {result : RunResult} {shares : Multiset TaskId}
  (h : Session.Lives config flow earlier during u v t ctx inputs ending outputs result)
include h

theorem Works.exists_state (hlog : during = l ++ k) (hr : u.Reaches config l s)
    (hworks : Works ctx.run t l τ) : ∃ state, s.task? τ = some state := by
  rcases hworks with rfl | ⟨n, rfl, hn⟩
  · obtain ⟨e, next, rest, -, w, hat⟩ := h.goes_on hlog hr
    exact ⟨_, hat⟩
  · exact h.exists_branch hr hn

/-- In a move without a poll the shares remain as they are. -/
theorem Affords.unpolled (ha : Affords id ctx.run total t l s shares) (hlog : during = l ++ k)
    (hr : u.Reaches config l s) (move : s.Moves config more s') (hquiet : s.Unpolled more s') :
    Affords id ctx.run total t (l ++ more) s' shares := by
  refine ⟨?_, fun {τ p w} hworks hs' => ?_⟩
  · rw [timesWritten_append, timesWritten_eq_zero fun _ _ _ _ => hquiet.quiet _]
    exact ha.covers
  · have hnone : ¬ ∃ n, τ = .branch n ∧ (ctx.run, n) ∈ startings more := by
      rintro ⟨n, -, hn⟩
      obtain ⟨_, _, _, _, _, _, hm, -⟩ := mem_startings.mp hn
      exact hquiet.quiet _ hm
    replace hworks := hworks.of_append.resolve_right hnone
    rcases hquiet.tasks τ with hsame | ⟨hidle, -⟩
    · exact ha.pays hworks (hsame ▸ hs')
    · rcases hworks with rfl | ⟨n, rfl, hn⟩
      · obtain ⟨e, next, rest, -, w, hat⟩ := h.goes_on hlog hr
        exact absurd hat (hidle _ _ _)
      · obtain ⟨state, hs⟩ := h.exists_branch hr hn
        rw [← System.task?_outline] at hs hs'
        cases state with
        | active q w₀ =>
            cases q with
            | perform e next => exact absurd ((System.task?_outline _).symm.trans hs) (hidle e next w₀)
            | pure a =>
                obtain ⟨q, hq, ⟨w', hnow⟩ | ⟨a, k, -, hnow⟩⟩ := move.advances.follows hs
                · obtain ⟨-, rfl⟩ := Program.Follows.pure_iff.mp hq
                  cases hs'.symm.trans hnow
                  exact .ahead trivial
                · cases hs'.symm.trans hnow
        | ended r order =>
            rcases (move.advances.ended hs).2 with hstill | hrestarted
            · cases hs'.symm.trans hstill
            · exact absurd hrestarted (System.not_restarted_branch n more)

/-- A task that has had its turn pays a part of its share for what it has written down and for the
branches that it has started. -/
theorem Affords.polled (ha : Affords id ctx.run total t l s shares) (hlog : during = l ++ k)
    (hr : u.Reaches config l s) {e : Effect} {next : e.Answer → Program τ.Result} {w : Wait}
    (polls : s.Polls τ e next w s') (part : Nat) (given : Multiset TaskId)
    (has : part ≤ shares.count τ) (covers : timesWritten id ctx.run more + given.card ≤ part)
    (rest : Works ctx.run t l τ → ∀ p w, s'.task? τ = some (.active p w) →
      p.Pays id ctx.run w (shares.count τ - part))
    (born : ∀ n p w, (ctx.run, n) ∈ startings more → s'.task? (.branch n) = some (.active p w) →
      p.Pays id ctx.run w (given.count (.branch n))) :
    ∃ shares, Affords id ctx.run total t (l ++ more) s' shares := by
  refine ⟨shares - Multiset.replicate part τ + given, ?_, fun {σ p w} hworks hs' => ?_⟩
  · rw [timesWritten_append, Multiset.card_add,
      Multiset.card_sub (Multiset.le_count_iff_replicate_le.mp has), Multiset.card_replicate]
    have hold := ha.covers
    have hcard := Multiset.count_le_card τ shares
    omega
  · rw [Multiset.count_add, Multiset.count_sub, Multiset.count_replicate]
    rcases hworks.of_append with hworks | ⟨n, rfl, hn⟩
    · refine Program.Pays.mono ?_ (Nat.le_add_right _ _)
      by_cases hσ : σ = τ
      · subst hσ
        rw [if_pos rfl]
        exact rest hworks p w hs'
      · rw [if_neg (Ne.symm hσ), Nat.sub_zero]
        rcases polls.others hσ with hsame | ⟨hnone, -⟩
        · exact ha.pays hworks (hsame ▸ hs')
        · obtain ⟨state, hs⟩ := hworks.exists_state h hlog hr
          cases hnone.symm.trans hs
    · exact (born n p w hn hs').mono (Nat.le_add_left _ _)

/-- What the others do leaves the shares of a run as they are. -/
theorem Affords.foreign (ha : Affords id ctx.run total t l s shares) (hlog : during = l ++ k)
    (hr : u.Reaches config l s) {x : Poll} {next : x.effect.Answer → Program x.task.Result} {w : Wait}
    (polls : s.Polls x.task x.effect next w s') (move : s.Moves config [.poll x] s')
    (hx : ¬ Works ctx.run t l x.task) :
    ∃ shares, Affords id ctx.run total t (l ++ [.poll x]) s' shares := by
  have hrun : x.effect.run? ≠ some ctx.run := fun hrun => hx (h.worker hr move hrun)
  refine ha.polled h hlog hr polls 0 0 (Nat.zero_le _) ?_ (fun hworks => absurd hworks hx)
    fun n p w hn => ?_
  · rw [timesWritten_eq_zero, Multiset.card_zero]
    intro _ entry _ _ hm
    cases List.mem_singleton.mp hm
    exact hrun rfl
  · obtain ⟨_, _, _, _, _, _, hm, -⟩ := mem_startings.mp hn
    cases List.mem_singleton.mp hm
    exact absurd rfl hrun

theorem Affords.answered (ha : Affords id ctx.run total t l s shares) {e : Effect} {a : e.Answer}
    {m m' : Machine} (hlog : during = l ++ (.poll ⟨τ, e, some a, m, m'⟩ :: k))
    (hr : u.Reaches config l s) {next : e.Answer → Program τ.Result} {w : Wait}
    (polls : s.Polls τ e next w s') (move : s.Moves config [.poll ⟨τ, e, some a, m, m'⟩] s')
    (hworks : Works ctx.run t l τ) :
    ∃ shares, Affords id ctx.run total t (l ++ [.poll ⟨τ, e, some a, m, m'⟩]) s' shares := by
  have hs' := move.goes_on ⟨w, polls.active⟩
  have hborn (n : Nat) : (ctx.run, n) ∉ startings [.poll ⟨τ, e, some a, m, m'⟩] := by
    intro hn
    obtain ⟨_, _, _, _, _, _, hm, -⟩ := mem_startings.mp hn
    cases List.mem_singleton.mp hm
  cases ha.pays hworks polls.active with
  | joined rest =>
      refine ha.polled h hlog hr polls 0 0 (Nat.zero_le _) (Nat.le_of_eq (timesWritten_eq_zero ?_))
        (fun _ p w hp => ?_) fun n p w hn => absurd hn (hborn n)
      · intro _ entry _ _ hm
        cases List.mem_singleton.mp hm
      · cases hs'.symm.trans hp
        exact .ahead (rest a)
  | ahead within =>
      obtain ⟨hle, hfair, hrest⟩ := within
      have hopen : ¬ e.Closes := by
        intro hcloses
        cases e with
        | closeRun number ending outputs =>
            obtain rfl : number = ctx.run := hfair
            refine h.unclosed (mem_closings.mpr ⟨τ, ending, outputs, a, m, m', ?_⟩)
            rw [hlog]
            simp
        | _ => exact hcloses
      refine ha.polled h hlog hr polls (e.demand id) 0 hle
        (timesWritten_answer id ctx.run τ e a m m') (fun _ p w hp => ?_)
        fun n p w hn => absurd hn (hborn n)
      cases hs'.symm.trans hp
      exact .ahead (hrest hopen a)

/-- A task that has to wait keeps its share, but for what it hands over to the branches that it has
started. -/
theorem Affords.told (ha : Affords id ctx.run total t l s shares) {e : Effect} {m m' : Machine}
    (hlog : during = l ++ (.poll ⟨τ, e, none, m, m'⟩ :: k)) (hr : u.Reaches config l s)
    {next : e.Answer → Program τ.Result} {w : Wait} (polls : s.Polls τ e next w s')
    (move : s.Moves config [.poll ⟨τ, e, none, m, m'⟩] s') (hworks : Works ctx.run t l τ) :
    ∃ shares, Affords id ctx.run total t (l ++ [.poll ⟨τ, e, none, m, m'⟩]) s' shares := by
  have hpays := ha.pays hworks polls.active
  by_cases hborn : ∃ n, (ctx.run, n) ∈ startings [.poll ⟨τ, e, none, m, m'⟩]
  · obtain ⟨n, hn⟩ := hborn
    obtain ⟨_, policy, group, bs, _, _, hm, hge, hlt⟩ := mem_startings.mp hn
    cases List.mem_singleton.mp hm
    have hfirst := move.first_of_starts polls.active (Nat.lt_of_le_of_lt hge hlt)
    obtain ⟨hsize, hforks, hwaits⟩ := move.forks polls.active hfirst
    cases hpays with
    | joined rest => exact absurd rfl (hfirst _)
    | ahead within =>
        obtain ⟨hle, hfair, hrest⟩ := within
        refine ha.polled h hlog hr polls _ (Branch.shares id m.branches.size bs) hle
          (Nat.le_of_eq ?_) (fun _ p w hp => ?_) fun n p w hn hp => ?_
        · rw [Branch.card_shares]
          exact Nat.zero_add _
        · cases hwaits.symm.trans hp
          exact .joined (hrest fun hcloses => hcloses)
        · obtain ⟨_, _, _, _, _, _, hm, hge, hlt⟩ := mem_startings.mp hn
          cases List.mem_singleton.mp hm
          obtain ⟨i, rfl⟩ := Nat.exists_eq_add_of_le hge
          have hb := List.getElem?_eq_getElem (l := bs) (i := i) (by omega)
          cases (hforks.starts i _ hb).symm.trans hp
          exact .ahead ((Branch.within (hfair _ (List.mem_of_getElem? hb))).mono
            (Branch.demand_le_count_shares hb))
  · refine ha.polled h hlog hr polls 0 0 (Nat.zero_le _) (Nat.le_refl 0) (fun _ p w hp => ?_)
      fun n p w hn => absurd ⟨n, hn⟩ hborn
    obtain ⟨next', w₁, w', hw, hs', hpolls⟩ := move.polls_of_wait
    cases hw.symm.trans polls.active
    cases hs'.symm.trans hp
    cases hpays with
    | ahead within => exact .ahead within
    | joined rest =>
        obtain ⟨rfl, -⟩ := hpolls.keeps_waiting
        exact .joined rest

/-- No move of a session exceeds the allowance of a run. -/
theorem Affords.step (ha : Affords id ctx.run total t l s shares) (hlog : during = l ++ (more ++ k))
    (hr : u.Reaches config l s) (move : s.Moves config more s') :
    ∃ shares, Affords id ctx.run total t (l ++ more) s' shares := by
  rcases move.polled_or_unpolled with ⟨τ, e, next, w, polls, rfl⟩ | hquiet
  · by_cases hworks : Works ctx.run t l τ
    · cases hanswer : (s.machine.poll τ w e).turn.answer? with
      | some a =>
          rw [hanswer] at move hlog
          exact ha.answered h hlog hr polls move hworks
      | none =>
          rw [hanswer] at move hlog
          exact ha.told h hlog hr polls move hworks
    · exact ha.foreign h hlog hr polls move hworks
  · exact ⟨shares, ha.unpolled h hlog hr move hquiet⟩

/-- A run of straight steps writes no step down more often than it is there. -/
theorem Session.Lives.timesWritten_le (straight : ∀ n ∈ flow.nodes, n.Straight) (id : String) :
    timesWritten id ctx.run during ≤ Step.occurrences id flow.nodes := by
  have hgoal : ∀ {l : List Occurrence} {s : System RunResult}, u.Reaches config l s →
      ∀ k, during = l ++ k →
        ∃ shares, Affords id ctx.run (Step.occurrences id flow.nodes) t l s shares := by
    intro l s hr
    induction hr with
    | refl =>
        intro k hlog
        refine ⟨Multiset.replicate (Step.occurrences id flow.nodes) t, ?_, fun {τ p w} hworks hs => ?_⟩
        · rw [Multiset.card_replicate]
          exact Nat.le_of_eq (Nat.zero_add _)
        · rcases hworks with rfl | ⟨n, -, hn⟩
          · obtain ⟨rest, hbegins⟩ := h.begins
            cases hbegins.symm.trans hs
            rw [Multiset.count_replicate_self]
            exact .ahead (afterOpening_within straight config inputs (ctx.run, ctx.token) rest)
          · exact absurd hn List.not_mem_nil
    | move before move ih =>
        intro k hlog
        rw [List.append_assoc] at hlog
        obtain ⟨shares, ha⟩ := ih _ hlog
        exact ha.step h hlog before move
  obtain ⟨shares, ha⟩ := hgoal h.reaches [] (List.append_nil _).symm
  exact Nat.le_trans (Nat.le_add_right _ _) ha.covers

end

/-- In a valid flow of straight steps no step is written down twice. -/
theorem Session.Lives.nodup_records {earlier during : List Occurrence} {u v : System RunResult}
    {ctx : Context} {inputs : List (String × Json)} {ending : Ending}
    {outputs : List (String × Json)} {result : RunResult}
    (h : Session.Lives config flow earlier during u v t ctx inputs ending outputs result)
    (valid : flow.validate = .ok ()) (straight : ∀ n ∈ flow.nodes, n.Straight) :
    (result.records.map StepRecord.stepId).Nodup := by
  rw [h.records_eq, List.nodup_iff_count_le_one]
  intro id
  exact Nat.le_trans (h.timesWritten_le straight id)
    (List.nodup_iff_count_le_one.mp (Flow.nodup_ids_of_valid valid) id)

/-- A task that comes to a sequence of steps, wherever it stands in a flow, does them in their
order. A run of a valid flow of straight steps has at most one record of each of them. -/
theorem steps_in_order :
    (∀ {config : Config} {before log : List Occurrence} {s s' : System RunResult} {t : TaskId}
      {ctx : Context} {steps : List Step} {last : Json} {scope : Scope}
      {k : Except Failure Json × Scope → Program t.Result},
      Session config before s → s.At t (((runSequence steps ctx last).on scope).bind k) →
        s.Reaches config log s' → InOrder config t ctx k steps last scope s log s') ∧
    ∀ {config : Config} {flow : Flow} {before after : List Occurrence} {result : RunResult},
      Session.Gives config flow before after result → flow.validate = .ok () →
        (∀ n ∈ flow.nodes, n.Straight) → (result.records.map StepRecord.stepId).Nodup := by
  refine ⟨Session.inOrder, fun hgives valid straight => ?_⟩
  obtain ⟨t, l, parent, ctx, m₁, m₁', during, ending, outputs, m₂, later, u, v, inputs, -, hlives⟩ :=
    hgives.lives
  exact hlives.nodup_records valid straight

/-- The steps of a flow are done in their order from the moment at which the run is opened, and each
of its six steps has one record. -/
theorem steps_in_order_abandoned : ∃ before after result s s' log t ctx inputs k,
    Session.Gives Solo.abandoned.config Solo.abandoned.flow before after result ∧
      InOrder Solo.abandoned.config t ctx k Solo.abandoned.flow.steps .null (Scope.ofBindings inputs) s
        log s' ∧
      result.records.length = 6 ∧ (result.records.map StepRecord.stepId).Nodup := by
  have hvalid : Solo.abandoned.flow.validate = .ok () := by decide +kernel
  have hstraight : ∀ n ∈ Solo.abandoned.flow.nodes, n.Straight := by decide +kernel
  obtain ⟨result, hgives, hp⟩ := Solo.abandoned.exists_gives 200 rfl
    (p := fun r => decide (r.records.length = 6)) (by decide +kernel)
  obtain ⟨t, l, parent, ctx, m₁, m₁', during, ending, outputs, m₂, later, u, v, inputs, -, hlives⟩ :=
    hgives.lives
  obtain ⟨k, hbegins⟩ := hlives.begins
  have hat : u.At t (((runSequence Solo.abandoned.flow.steps
      ⟨ctx.run, ctx.token, Solo.abandoned.config.stepTimeout⟩ .null).on (Scope.ofBindings inputs)).bind
        fun r => (conclude Solo.abandoned.config Solo.abandoned.flow
          ⟨ctx.run, ctx.token, Solo.abandoned.config.stepTimeout⟩ none r).bind k) := by
    rw [← Program.bind_assoc]
    exact ⟨_, hbegins⟩
  exact ⟨_, _, result, u, v, during, t, _, inputs, _, hgives,
    steps_in_order.1 hlives.session hat hlives.reaches, of_decide_eq_true hp,
    steps_in_order.2 hgives hvalid hstraight⟩

end FlowEngine
