import FlowEngine.Proofs.Run.Lifetime
import FlowEngine.Proofs.Transaction.Stages

/-!
# Transactions one after the other

In a run without branches one task alone uses the slot of the open snapshot. It takes a snapshot
only while it has none in hand. So the slot is empty whenever a transaction begins.
-/
namespace FlowEngine

open Exec Execution

/-- The task of an open run stays inside of it until it closes it. -/
theorem Stage.exists_inside {run : Nat} {held : Option String} {e : Effect}
    (hcloses : ∀ number ending outputs, e ≠ .closeRun number ending outputs) (a : e.Answer) :
    ∃ held', (inside run held).after e a = inside run held' := by
  cases e with
  | beginTransaction ctx => cases a <;> exact ⟨_, rfl⟩
  | releaseTransaction number handle => exact ⟨none, rfl⟩
  | closeRun number ending outputs => exact absurd rfl (hcloses number ending outputs)
  | _ => exact ⟨held, rfl⟩

namespace SoleSlot

variable {o o' : Outline} {run : Nat} {held : Option String} {ctx : Context} {config : Config}
  {log : List Occurrence}

/-- A move that does not close a run, and in which only one task does something for it. -/
theorem slot_of_advances {t : TaskId} (adv : o.Advances config log o') (hslot : o.slot run = ⟨held⟩)
    (hrun : run < o.runs.length) (hopen : run ∉ closings log)
    (hmine : ∀ x, .poll x ∈ log → x.task = t → Stage.Permits run held x.effect)
    (hothers : ∀ x, .poll x ∈ log → x.task ≠ t → x.effect.run? ≠ some run) :
    ∃ held', Stage.protocol.Path (.inside run held) (deedsOf t log) (.inside run held') ∧
      o'.slot run = ⟨held'⟩ := by
  have still (hdeeds : deedsOf t log = []) (hsame : o'.slot run = o.slot run) :
      ∃ held', Stage.protocol.Path (.inside run held) (deedsOf t log) (.inside run held') ∧
        o'.slot run = ⟨held'⟩ :=
    ⟨held, hdeeds ▸ .start _, hsame.trans hslot⟩
  cases adv with
  | finish running active order => exact still rfl (Outline.setTask_slot _ _ run)
  | @answer τ e next w a before after running active start polls =>
      by_cases hτ : τ = t
      · have hpermits : Stage.Permits run held e := hmine _ (List.mem_singleton_self _) hτ
        have hcloses : ∀ number ending outputs, e ≠ .closeRun number ending outputs := by
          rintro number ending outputs rfl
          obtain rfl : number = run := hpermits
          exact hopen (List.mem_singleton_self _)
        obtain ⟨held', hafter⟩ : ∃ held', (Stage.inside run held).after e a = .inside run held' :=
          Stage.exists_inside hcloses a
        refine ⟨held', ?_, ?_⟩
        · have hmove := Stage.moves_after polls (.inside run held)
          rw [hafter] at hmove
          simpa [deedsOf, hτ] using Protocol.Path.deed hmove (.start _)
        · rw [Outline.setTask_slot]
          exact (Stage.slot_of_answer polls hpermits hslot hrun hafter).2
      · have hne : e.run? ≠ some run := hothers _ (List.mem_singleton_self _) hτ
        refine still (by simp [deedsOf, hτ]) ((Outline.setTask_slot _ _ run).trans
          (Stage.slot_of_ne polls (fun ctx he h => ?_) fun number handle he h => ?_))
        · exact hne (he ▸ congrArg some h)
        · exact hne (he ▸ congrArg some h)
  | wait running active start polls =>
      exact still rfl ((Outline.setTask_slot _ _ run).trans (Stage.slot_of_waiting polls run))
  | errand => exact still (by simp [deedsOf]) rfl
  | _ => exact still rfl rfl

/-! ## Runs without branches -/

section

variable {flow : Flow} {earlier l : List Occurrence} {s s' t₀ : System RunResult} {t : TaskId}
  {inputs : List (String × Json)} (h : Session.Commences config flow earlier t₀ t ctx inputs)
  (hflow : ∀ n ∈ flow.nodes, n.action.policy? = none)
include h

theorem slot_of_opens : t₀.outline.slot ctx.run = .empty ∧ ctx.run < t₀.outline.runs.length := by
  obtain ⟨l, s, parent, m, m', -, -, hmove⟩ := h.opening
  have hadv := hmove.advances
  have hrun := hadv.journal?_of_opens.1
  generalize s.outline = o, t₀.outline = o' at hadv hrun ⊢
  cases hadv with
  | answer running active start polls =>
      obtain ⟨-, hopened⟩ := polls
      rw [hopened, Outline.setTask_slot, Outline.setTask_runs, hrun]
      simp [Outline.slot]

include hflow

/-- What is done for a run without branches is done by the task that opened it. -/
theorem task_eq {x : Poll} (hr : t₀.Reaches config l s) (move : s.Moves config [.poll x] s')
    (hx : x.effect.run? = some ctx.run) : x.task = t :=
  (h.worker hr move hx).resolve_right fun ⟨n, _, hn⟩ => h.not_started hflow hr n hn

/-- While a run without branches is open, its slot names the snapshot that the task of the run has
in hand, and the task begins a transaction only if it has none. -/
theorem slot_eq (hunnested : ∀ n ∈ flow.nodes, n.Unnested) (hr : t₀.Reaches config l s)
    (hopen : ctx.run ∉ closings l) : ∃ held,
      Stage.protocol.Path (.inside ctx.run none) (deedsOf t l) (.inside ctx.run held) ∧
      s.outline.slot ctx.run = ⟨held⟩ ∧ ∀ {begun : Context}
        {next : Effect.Answer (.beginTransaction begun) → Program t.Result},
        s.At t (.perform (.beginTransaction begun) next) → held = none := by
  have hobeys : (afterOpening config flow inputs (ctx.run, ctx.token)).Obeys Stage.protocol
      (fun u result => u = .closed result) (.inside ctx.run none) :=
    (Stage.run_obeys hunnested config inputs ctx.token).2 (ctx.run, ctx.token) _ rfl
  have hpermits {l : List Occurrence} {s : System RunResult} {held : Option String}
      (hr : t₀.Reaches config l s) (hopen : ctx.run ∉ closings l)
      (hpath : Stage.protocol.Path (.inside ctx.run none) (deedsOf t l) (.inside ctx.run held))
      {e : Effect} {next : e.Answer → Program t.Result} (hat : s.At t (.perform e next)) :
      Stage.Permits ctx.run held e := by
    obtain ⟨e', next', rest, hfollows, ⟨w', hat'⟩, -⟩ := (h.goes_on hr).resolve_right hopen
    obtain ⟨w, hat⟩ := hat
    cases hat.symm.trans hat'
    exact (hobeys.follow hfollows hpath).1
  suffices hgoal : ∃ held,
      Stage.protocol.Path (.inside ctx.run none) (deedsOf t l) (.inside ctx.run held) ∧
        s.outline.slot ctx.run = ⟨held⟩ by
    obtain ⟨held, hpath, hslot⟩ := hgoal
    exact ⟨held, hpath, hslot, fun hat => (hpermits hr hopen hpath hat).2⟩
  induction hr with
  | refl => exact ⟨none, .start _, (slot_of_opens h).1⟩
  | @move l more s s' before move ih =>
      rw [closings_append, List.mem_append, not_or] at hopen
      obtain ⟨held, hpath, hslot⟩ := ih hopen.1
      obtain ⟨e, next, rest, -, -, hrestarted⟩ := (h.goes_on before).resolve_right hopen.1
      have hrun := Nat.lt_of_lt_of_le (slot_of_opens h).2 before.opens.1
      obtain ⟨held', hmoves, hslot'⟩ := slot_of_advances (t := t) move.advances hslot hrun hopen.2
        (fun x hx hxt => by
          obtain rfl := move.advances.eq_singleton_of_mem hx
          obtain ⟨next, w, active⟩ := move.advances.active_of_poll
          rw [System.task?_outline] at active
          subst hxt
          exact hpermits before hopen.1 hpath ⟨w, active⟩)
        (fun x hx hxt hxrun => by
          obtain rfl := move.advances.eq_singleton_of_mem hx
          exact hxt (task_eq h hflow before move hxrun))
      rw [deedsOf_append hrestarted]
      exact ⟨held', hpath.append hmoves, hslot'⟩

end

end SoleSlot

/-- In a run of a valid flow without steps that fan out no transaction finds the slot of the run
taken: whatever happens, a snapshot is refused by the store alone. -/
theorem begins_unnested {config : Config} {flow : Flow} {before log : List Occurrence}
    {s s' : System RunResult} {t : TaskId} {inputs : List (String × Json)} {parent token : Token}
    {k : RunResult → Program t.Result} {number : Nat} {d : List Deed}
    (session : Session config before s) (begins : s.At t ((run config flow inputs parent).bind k))
    (reaches : s.Reaches config log s')
    (opened : deedsOf t log = ⟨.openRun flow.name parent, (number, token)⟩ :: d)
    (valid : flow.validate = .ok ()) (sequential : ∀ n ∈ flow.nodes, n.action.policy? = none)
    {τ : TaskId} {ctx : Context} {e : EngineError} {m m' : Machine}
    (hbegin : .poll ⟨τ, .beginTransaction ctx, some (.error e), m, m'⟩ ∈ log)
    (hrun : ctx.run = number) : ∃ text, e = .store text := by
  obtain ⟨l, m₁, m₁', rest, u, rfl, hcommences, hu, -⟩ :=
    Session.commences session begins reaches opened
  have hconcerns : (Effect.beginTransaction ctx).run? = some number := congrArg some hrun
  have hlater : .poll ⟨τ, .beginTransaction ctx, some (.error e), m, m'⟩ ∈ rest := by
    rcases List.mem_append.mp hbegin with hm | hm
    · exact absurd hconcerns
        (hcommences.fresh (List.mem_append_right _ (List.mem_append_left _ hm)))
    · rcases List.mem_cons.mp hm with heq | hm
      · cases heq
      · exact hm
  obtain ⟨l₁, v, v', hv, move⟩ := hu.moment_of_mem hlater
  have hopen := hcommences.open_of_concerns hv move hconcerns
  obtain ⟨held, -, hslot, hallows⟩ := SoleSlot.slot_eq hcommences sequential
    (Flow.unnested_of_valid valid) hv hopen
  obtain rfl : τ = t := SoleSlot.task_eq hcommences sequential hv move hconcerns
  obtain ⟨-, next, w, active, polls⟩ := move.polls_of_answer
  obtain rfl : held = none := hallows ⟨w, active⟩
  subst hrun
  simp only [Outline.Polls, hslot, TransactionSlot.begin] at polls
  cases hsnapshot : v.outline.store.snapshot with
  | ok taken =>
      rw [hsnapshot] at polls
      obtain ⟨hturn, -⟩ := polls
      cases hturn
  | error failure =>
      rw [hsnapshot] at polls
      obtain ⟨hturn, -⟩ := polls
      cases hturn
      unfold ScriptedStore.snapshot at hsnapshot
      split at hsnapshot
      · cases hsnapshot
        exact ⟨_, rfl⟩
      · cases hsnapshot

def Solo.refused : Solo where
  world :=
    { Solo.quietWorld [] with
      store := .new (.empty []) { StoreScript.none with snapshotError := some "no space" } }
  flow :=
    { name := "orders"
      description := none
      steps := [.mk "block" (.transaction [Solo.creates "order" "orders"] none) none none]
      onError := some [.mk "note" (.transaction [Solo.creates "audit" "audits"] none) none none] }

def Occurrence.isRefusal : Occurrence → Bool
  | .poll ⟨_, .beginTransaction ctx, some (.error _), _, _⟩ => ctx.run = 0
  | _ => false

def Occurrence.opensAnother : Occurrence → Bool
  | .poll ⟨_, .openRun _ _, some (number, _), _, _⟩ => number ≠ 0
  | _ => false

theorem Occurrence.exists_of_isRefusal {x : Occurrence} (h : x.isRefusal = true) :
    ∃ τ ctx e m m', x = .poll ⟨τ, .beginTransaction ctx, some (.error e), m, m'⟩ ∧ ctx.run = 0 := by
  unfold isRefusal at h
  split at h
  · exact ⟨_, _, _, _, _, rfl, of_decide_eq_true h⟩
  · cases h

/-- Both snapshots that a run without branches asks for are refused by the store. -/
theorem begins_unnested_refused : ∃ (log : List Occurrence) (τ : TaskId) (ctx : Context)
    (e : EngineError) (m m' : Machine),
    Solo.refused.flow.validate = .ok () ∧ (log.filter Occurrence.isRefusal).length = 2 ∧
      .poll ⟨τ, .beginTransaction ctx, some (.error e), m, m'⟩ ∈ log ∧ ∃ text, e = .store text := by
  have hvalid : Solo.refused.flow.validate = .ok () := by decide +kernel
  have hflow : ∀ n ∈ Solo.refused.flow.nodes, n.action.policy? = none := by decide +kernel
  have hlength : ((Solo.refused.start.course 200).1.filter Occurrence.isRefusal).length = 2 := by
    decide +kernel
  have hfirst : (Solo.refused.start.course 200).1.any Occurrence.opensAnother = false := by
    decide +kernel
  obtain ⟨x, hx⟩ := List.exists_mem_of_length_pos (Nat.lt_of_lt_of_eq Nat.two_pos hlength.symm)
  obtain ⟨hmem, hrefusal⟩ := List.mem_filter.mp hx
  obtain ⟨τ, ctx, e, m, m', rfl, hrun⟩ := Occurrence.exists_of_isRefusal hrefusal
  obtain ⟨result, hgives, -⟩ := Solo.refused.exists_gives 200 rfl
    (p := fun r => decide (r.status = .failed)) (by decide +kernel)
  refine ⟨_, τ, ctx, e, m, m', hvalid, hlength, hmem, ?_⟩
  obtain ⟨session, begins, reaches, d, more, hdeeds, hfollows⟩ := hgives
  rename_i s s' t inputs parent k
  rw [run_eq_perform] at hfollows
  obtain ⟨-, h⟩ | ⟨⟨number, token⟩, d, rfl, -⟩ := hfollows.cons_of_perform
  · cases h
  have hdeed : (⟨.openRun Solo.refused.flow.name parent, (number, token)⟩ : Deed) ∈
      deedsOf t (Solo.refused.start.course 200).1 := by
    rw [hdeeds]
    exact List.mem_cons_self
  obtain ⟨m₁, m₁', hopened⟩ := mem_of_deed hdeed
  have hnumber : number = 0 := by
    have hone := List.any_eq_false.mp hfirst _ hopened
    simpa [Occurrence.opensAnother] using hone
  exact begins_unnested session begins reaches hdeeds hvalid hflow hmem (hrun.trans hnumber.symm)

end FlowEngine
