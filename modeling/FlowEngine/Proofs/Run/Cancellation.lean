import FlowEngine.Proofs.Execution.Flow
import FlowEngine.Proofs.Run.Starting
import FlowEngine.Proofs.Run.Journals
import FlowEngine.Proofs.Transaction.Rollback

/-!
# Cancelled scopes

A scope that is cancelled stays so, and everything below it comes to a halt: no step
starts, no attempt is repeated, no request is sent or carried out, and the transactions
that were open are rolled back. A run in a cancelled scope whose steps fail ends cancelled,
without its handler.
-/
namespace FlowEngine

open Exec Execution

/-! ## Programs in a cancelled scope -/

namespace Execution

def skipped (ctx : Context) (step : Step) : Exec Reached := do
  let _ : Bool ← ask (.isCancelled ctx.token)
  let f := (Failure.cancelled "run cancelled before the step started").atStep step.id
  let _ : Unit ← ask (.note ctx.run (.record ⟨step.id, step.kind, .skipped, 0, some f⟩))
  throw f

def notRepeated {α : Type} (ctx : Context) (id : String) (policy : Option RetryPolicy)
    (number : Nat) (f : Failure) : Exec (Nat × Except Failure α) :=
  match Retry.decide policy number (f.atStep id) with
  | .giveUp f => return (number, .error f)
  | .retryAfter delay => do
    let _ : Bool ← ask (.sleep (some ctx.token) delay.toNat)
    return (number, .error (Retry.interrupted.atStep id))

def cancelledEnd (config : Config) (ctx : Context) (deadline : Option Nat) (f : Failure)
    (scope : Scope) : Program RunResult :=
  (settleAll ctx).bind fun _ => (stopRunDeadline deadline).bind fun timedOut =>
    .perform (.isCancelled ctx.token) fun _ => (settleAll ctx).bind fun _ =>
      Program.ask (.closeRun ctx.run (.cancelled (cancellationError config.runTimeout timedOut f))
        scope.flow)

end Execution

def Denies (T : Token) : (e : Effect) → e.Answer → Prop
  | .isCancelled token, cancelled => T.covers token = true → cancelled = true
  | .sleep (some token) _, waited => T.covers token = true → waited = false
  | _, _ => True

namespace Denies

variable {T : Token} {ctx : Context} {α : Type}

theorem staysIn_skipped (hc : T.covers ctx.token = true) (step : Step) (sc : Scope) :
    ((step.run ctx).on sc).StaysIn (Denies T) ((skipped ctx step).on sc) := by
  obtain ⟨id, action, retry, timeout⟩ := step
  rw [Step.run]
  refine Program.StaysIn.perform (e := .isCancelled ctx.token) fun (cancelled : Bool) h => ?_
  obtain rfl : cancelled = true := h hc
  exact .refl _

theorem staysIn_notRepeated (hc : T.covers ctx.token = true) (id : String)
    (policy : Option RetryPolicy) (number : Nat) (again : Exec (Nat × Except Failure α)) (f : Failure)
    (sc : Scope) : ((afterAttempt ctx id policy number (some again) (.error f)).on sc).StaysIn
      (Denies T) ((notRepeated ctx id policy number f).on sc) := by
  unfold afterAttempt notRepeated
  dsimp only
  cases Retry.decide policy number (f.atStep id) with
  | giveUp f => exact .refl _
  | retryAfter delay =>
      refine Program.StaysIn.perform (e := .sleep (some ctx.token) delay.toNat)
        fun (waited : Bool) h => ?_
      obtain rfl : waited = false := h hc
      exact .refl _

theorem staysIn_cancelledEnd (hc : T.covers ctx.token = true) (config : Config) (flow : Flow)
    (deadline : Option Nat) (f : Failure) (sc : Scope) :
    (conclude config flow ctx deadline (.error f, sc)).StaysIn (Denies T)
      (cancelledEnd config ctx deadline f sc) := by
  rw [conclude_eq]
  refine .bind fun _ => .bind fun timedOut => ?_
  simp only [endAfter_eq, Program.bind_perform]
  refine .perform fun (cancelled : Bool) h => ?_
  obtain rfl : cancelled = true := h hc
  rw [Bool.or_true, if_pos rfl]
  exact .refl _

end Denies

theorem Execution.closes_of_cancelledEnd {config : Config} {ctx : Context} {deadline : Option Nat}
    {f : Failure} {sc : Scope} {deeds : List Deed} {result : RunResult}
    (h : (cancelledEnd config ctx deadline f sc).Follows deeds (.pure result)) :
    ∃ earlier timedOut, deeds = earlier ++ [⟨.closeRun ctx.run
      (.cancelled (cancellationError config.runTimeout timedOut f)) sc.flow, result⟩] ∧
      ∀ d, deadline = some d → ⟨.stopDeadline d, timedOut⟩ ∈ earlier := by
  obtain ⟨d₁, r₁, -, rfl, -, h₁⟩ := h.bind_pure
  obtain ⟨d₂, r₂, timedOut, rfl, hstops, h₂⟩ := h₁.bind_pure
  obtain ⟨-, hsame⟩ | ⟨a, r₃, rfl, h₃⟩ := h₂.cons_of_perform
  · cases hsame
  obtain ⟨d₄, r₄, -, rfl, -, h₄⟩ := h₃.bind_pure
  obtain ⟨-, hsame⟩ | ⟨closed, r₅, rfl, h₅⟩ := h₄.cons_of_perform
  · cases hsame
  obtain ⟨rfl, hresult⟩ := Program.Follows.pure_iff.mp h₅
  cases hresult
  refine ⟨d₁ ++ (d₂ ++ ⟨_, a⟩ :: d₄), timedOut, by simp, ?_⟩
  rintro d rfl
  obtain ⟨-, hsame⟩ | ⟨passed, r₆, rfl, h₆⟩ := hstops.cons_of_perform
  · cases hsame
  obtain ⟨rfl, htimedOut⟩ := Program.Follows.pure_iff.mp h₆
  cases htimedOut
  simp

/-! ## Cancelled scopes in a session -/

variable {config : Config} {log before after : List Occurrence} {s s' : System RunResult}
  {T : Token} {t : TaskId} {m m' : Machine}

namespace System

theorem Moves.denies {e : Effect} {a : e.Answer} (hT : s.machine.isCancelled T = true)
    (move : s.Moves config [.poll ⟨t, e, some a, m, m'⟩] s') : Denies T e a := by
  obtain ⟨-, next, w, -, polls⟩ := move.polls_of_answer
  cases e with
  | isCancelled token =>
      intro hc
      obtain ⟨ha, -⟩ := polls
      cases ha
      exact Token.isCancelled_of_covers hc hT
  | sleep token span =>
      cases token with
      | none => trivial
      | some token =>
          intro hc
          have hinterrupts : s.outline.interrupts (some token) = true :=
            Token.isCancelled_of_covers hc hT
          obtain ⟨-, ha | ⟨⟨w, ha⟩, -⟩⟩ := polls
          · cases ha
            rw [hinterrupts]
            rfl
          · cases ha
  | _ => trivial

theorem Reaches.denies (h : s.Reaches config log s') (hT : s.machine.isCancelled T = true) (t : TaskId) :
    ∀ d ∈ deedsOf t log, Denies T d.effect d.answer := by
  rintro ⟨e, a⟩ hd
  obtain ⟨m, m', hm⟩ := mem_of_deed hd
  obtain ⟨l, u, v, hu, move⟩ := h.moment_of_mem hm
  exact move.denies (hu.isCancelled hT)

/-- A request in a cancelled scope is given up and changes nothing. -/
theorem Moves.refuses {run : Nat} {token : Token} {request : Request}
    {answer : Option (Except Interruption Outcome)} (hT : s.machine.isCancelled T = true)
    (hc : T.covers token = true)
    (move : s.Moves config [.poll ⟨t, .request run token request, answer, m, m'⟩] s') :
    (∃ moment, answer = some (.error moment)) ∧ m'.world.store = m.world.store ∧
      ∀ route, (Machine.collaborator m'.world route).calls =
        (Machine.collaborator m.world route).calls := by
  have hcancelled : s.outline.isCancelled token = true := Token.isCancelled_of_covers hc hT
  have hadv := move.advances
  generalize s.outline = o, s'.outline = o' at hadv hcancelled
  cases hadv with
  | answer running active start polls =>
      simp only [Outline.Polls, hcancelled, if_true] at polls
      obtain ⟨⟨moment, ha⟩, hafter⟩ := polls
      cases ha
      have hsame : m'.outline o.main = m.outline o.main := hafter.trans start.symm
      exact ⟨⟨moment, rfl⟩, congrArg Outline.store hsame,
        fun route => congrFun (congrArg Outline.calls hsame) route⟩
  | wait running active start polls =>
      simp only [Outline.Polls, hcancelled, if_true] at polls
      obtain ⟨⟨moment, ha⟩, -⟩ := polls
      cases ha

end System

theorem Session.starts_outside {ctx : Context} {step : String}
    {answer : Option (Except EngineError Unit)} (h : Session config log s)
    (hT : s.machine.isCancelled T = true)
    (move : s.Moves config [.poll ⟨t, .startSpan ctx step, answer, m, m'⟩] s') :
    T.covers ctx.token = false := by
  cases answer with
  | none =>
      have hadv := move.advances
      generalize s'.outline = o' at hadv
      cases hadv with
      | wait running active start polls => exact polls.waits.elim
  | some answer =>
      rw [← Bool.not_eq_true]
      intro hc
      have hcancelled : s.machine.isCancelled ctx.token = true := Token.isCancelled_of_covers hc hT
      rw [h.starts_uncancelled move] at hcancelled
      cases hcancelled

namespace Custody

variable {ctx : Context} {handle : String} {place : TaskId → Residence × Custody}

/-- Whoever is about to give a snapshot back is the task that took it, and has just released it. -/
theorem Kept.gives (h : Kept T config log s place)
    (htaken : .poll ⟨t, .beginTransaction ctx, some (.ok handle), m, m'⟩ ∈ log) {x : Poll}
    (he : Giving handle x.effect) (move : s.Moves config [.poll x] s') :
    x.task = t ∧ ∃ b lost, (place t).2 = released b lost ∧ b.Of T ctx handle m ∧
      (x.effect = .discardSnapshot handle → lost = false) := by
  obtain ⟨next, w, active⟩ := move.advances.active_of_poll
  have hallows : (protocol T).allows (place x.task).2 x.effect := (h.obedient.active active).1.2
  obtain ⟨b, lost, hplace, hhandle, hlost⟩ : ∃ b lost, (place x.task).2 = released b lost ∧
      b.handle = handle ∧ (x.effect = .discardSnapshot handle → lost = false) := by
    generalize x.effect = e at he hallows
    cases hplace : (place x.task).2 with
    | released b lost =>
        rw [hplace] at hallows
        cases he with
        | discard => exact ⟨b, lost, rfl, hallows.1.symm, fun _ => hallows.2⟩
        | restore => exact ⟨b, lost, rfl, Eq.symm hallows, nofun⟩
    | _ =>
        rw [hplace] at hallows
        cases he <;> exact hallows.elim
  have hblock : (place x.task).2.block? = some b := by
    rw [hplace]
    rfl
  rcases h.books.inHand htaken with hgiven | ⟨b', hblock', hof⟩
  · exact absurd hhandle (h.books.gone hgiven hblock)
  · obtain htask := h.holds.sole hblock hblock' (hhandle.trans hof.handle.symm)
    refine ⟨htask, b, lost, htask ▸ hplace, ?_, hlost⟩
    rw [htask, hblock'] at hblock
    cases hblock
    exact hof

/-- A transaction that began below a scope before the scope was cancelled is not committed. -/
theorem Kept.not_discards (h : Kept T config log s place)
    (htaken : .poll ⟨t, .beginTransaction ctx, some (.ok handle), m, m'⟩ ∈ log)
    (hcovers : T.covers ctx.token = true) (hbegun : m.isCancelled T = false)
    (hT : s.machine.isCancelled T = true) {x : Poll} (move : s.Moves config [.poll x] s') :
    x.effect ≠ .discardSnapshot handle := by
  intro he
  obtain ⟨-, b, lost, hplace, hof, hlost⟩ := h.gives htaken (he ▸ .discard) move
  obtain ⟨-, -, hopen⟩ := (h.holds.fine t).released hplace
  have hno := hopen (hlost he) (hof.watched hcovers hbegun)
  rw [show s.outline.isCancelled T = true from hT] at hno
  cases hno

end Custody

/-- What becomes of a transaction that was open when its scope was cancelled: it is not committed,
and by the time its run is closed its snapshot was restored. -/
structure Undone (after : List Occurrence) (s' : System RunResult) (run : Nat) (handle : String)
    (saved : Collections) : Prop where
  uncommitted {x : Poll} : .poll x ∈ after → x.effect ≠ .discardSnapshot handle
  restored : run ∈ closings after → ∃ t answer m m',
    .poll ⟨t, .restoreSnapshot handle, some answer, m, m'⟩ ∈ after ∧
      (s'.machine.world.store.script.restoreError = none → answer = .ok ()) ∧
      (answer = .ok () → m'.collections = saved)

theorem Session.undone (h : Session config before s) (hT : s.machine.isCancelled T = true)
    (hr : s.Reaches config after s') {ctx : Context} {handle : String}
    (htaken : .poll ⟨t, .beginTransaction ctx, some (.ok handle), m, m'⟩ ∈ before)
    (hcovers : T.covers ctx.token = true) (hbegun : m.isCancelled T = false)
    (hopen : handle ∉ givings before) : Undone after s' ctx.run handle m.collections := by
  have huncommitted {x : Poll} (hx : .poll x ∈ after) : x.effect ≠ .discardSnapshot handle := by
    obtain ⟨l, u, v, hu, move⟩ := hr.moment_of_mem hx
    obtain ⟨place, hkept⟩ := Custody.kept_of_session (h.reaches hu) T
    exact hkept.not_discards (List.mem_append_left l htaken) hcovers hbegun (hu.isCancelled hT) move
  refine ⟨huncommitted, fun hclosed => ?_⟩
  obtain ⟨place, hkept⟩ := Custody.kept_of_session (h.reaches hr) T
  have hgiven : handle ∈ givings (before ++ after) := by
    have htakings : (ctx.run, handle) ∈ takings (before ++ after) := by
      rw [takings_append, List.mem_append]
      exact Or.inl (mem_takings.mpr ⟨t, ctx, m, m', rfl, htaken⟩)
    refine hkept.given_of_closed htakings ?_
    rw [closings_append, List.mem_append]
    exact Or.inr hclosed
  rw [givings_append, List.mem_append] at hgiven
  obtain ⟨u, e, a, r, r', he, hm⟩ := mem_givings.mp (hgiven.resolve_left hopen)
  cases he with
  | discard => exact absurd rfl (huncommitted hm)
  | restore =>
      obtain ⟨l, v, v', hv, move⟩ := hr.moment_of_mem hm
      obtain ⟨place', hkept'⟩ := Custody.kept_of_session (h.reaches hv) T
      obtain ⟨rfl, b, lost, hplace, hof, -⟩ :=
        hkept'.gives (List.mem_append_left l htaken) .restore move
      obtain ⟨haccepted, hrestored⟩ := hkept'.restores hplace (hof.handle.symm ▸ move)
      refine ⟨u, a, r, r', hm, fun hscript => haccepted ?_, fun ha => ?_⟩
      · rw [hv.script, ← hr.script]
        exact hscript
      · rw [(hrestored ha).1, hof.saved]
        rfl

/-- A moment in a part of a session, with what comes after it. -/
def System.Passes (config : Config) (s : System RunResult) (log : List Occurrence)
    (s' u : System RunResult) (later : List Occurrence) : Prop :=
  ∃ earlier, log = earlier ++ later ∧ s.Reaches config earlier u ∧ u.Reaches config later s'

/-- Everything below a cancelled scope comes to a halt. -/
structure Halted (config : Config) (T : Token) (before : List Occurrence) (s : System RunResult)
    (after : List Occurrence) (s' : System RunResult) : Prop where
  starts {t : TaskId} {ctx : Context} {step : String} {answer : Option (Except EngineError Unit)}
    {m m' : Machine} : .poll ⟨t, .startSpan ctx step, answer, m, m'⟩ ∈ after →
      T.covers ctx.token = false
  /-- A step that is reached is only written down as skipped. -/
  skips {u : System RunResult} {later : List Occurrence} {t : TaskId} {ctx : Context} {step : Step}
    {sc : Scope} {k : Except Failure Reached × Scope → Program t.Result} :
      s.Passes config after s' u later → u.At t (((step.run ctx).on sc).bind k) →
      T.covers ctx.token = true →
      ∃ q, (((skipped ctx step).on sc).bind k).Follows (deedsOf t later) q
  repeats {u : System RunResult} {later : List Occurrence} {t : TaskId} {ctx : Context} {id : String}
    {policy : Option RetryPolicy} {number : Nat}
    {again : Exec (Nat × Except Failure Reached)} {f : Failure} {sc : Scope}
    {k : Except Failure (Nat × Except Failure Reached) × Scope → Program t.Result} :
      s.Passes config after s' u later →
      u.At t (((afterAttempt ctx id policy number (some again) (.error f)).on sc).bind k) →
      T.covers ctx.token = true →
      ∃ q, (((notRepeated ctx id policy number f).on sc).bind k).Follows (deedsOf t later) q
  /-- No request gets an outcome, and none reaches a collaborator or the store. -/
  requests {t : TaskId} {run : Nat} {token : Token} {request : Request}
    {answer : Option (Except Interruption Outcome)} {m m' : Machine} :
      .poll ⟨t, .request run token request, answer, m, m'⟩ ∈ after → T.covers token = true →
      (∃ moment, answer = some (.error moment)) ∧ m'.world.store = m.world.store ∧
        ∀ route, (Machine.collaborator m'.world route).calls =
          (Machine.collaborator m.world route).calls
  transactions {t : TaskId} {ctx : Context} {handle : String} {m m' : Machine} :
      .poll ⟨t, .beginTransaction ctx, some (.ok handle), m, m'⟩ ∈ before →
      T.covers ctx.token = true → m.isCancelled T = false → handle ∉ givings before →
      Undone after s' ctx.run handle m.collections
  /-- A run whose steps fail ends cancelled, and its handler does not run. -/
  ends {u : System RunResult} {later : List Occurrence} {t : TaskId} {flow : Flow} {ctx : Context}
    {deadline : Option Nat} {f : Failure} {sc : Scope} {k : RunResult → Program t.Result} :
      s.Passes config after s' u later →
      u.At t ((conclude config flow ctx deadline (.error f, sc)).bind k) →
      T.covers ctx.token = true →
      (∃ q, ((cancelledEnd config ctx deadline f sc).bind k).Follows (deedsOf t later) q) ∧
      ∀ result, (conclude config flow ctx deadline (.error f, sc)).Yields (deedsOf t later) result →
        result.status = .cancelled ∧
          ∃ timedOut, result.error = some (cancellationError config.runTimeout timedOut f)

/-- A task that comes to a program in a cancelled scope goes on as in such a scope. -/
theorem System.Passes.follows {u : System RunResult} {later : List Occurrence} {α : Type}
    (h : s.Passes config after s' u later) (hT : s.machine.isCancelled T = true) {p p' : Program α}
    {k : α → Program t.Result} (hstays : p.StaysIn (Denies T) p') (hat : u.At t (p.bind k)) :
    ∃ q, (p'.bind k).Follows (deedsOf t later) q := by
  obtain ⟨earlier, -, hu, hlater⟩ := h
  obtain ⟨q, hq, -⟩ := hlater.follows hat
  obtain ⟨q', hq', -⟩ := hstays.bind_left k _ q hq (hlater.denies (hu.isCancelled hT) t)
  exact ⟨q', hq'⟩

/-- A run that ends in a cancelled scope has the status of one. Its error tells whether its deadline
had passed when it was taken back. -/
theorem Session.cancelled_of_yields (h : Session config before s)
    (hT : s.machine.isCancelled T = true) {u : System RunResult} {later : List Occurrence}
    (hp : s.Passes config after s' u later) {flow : Flow} {ctx : Context} {deadline : Option Nat}
    {f : Failure} {sc : Scope} (hc : T.covers ctx.token = true) {result : RunResult}
    (hyields : (conclude config flow ctx deadline (.error f, sc)).Yields (deedsOf t later) result) :
    result.status = .cancelled ∧
      ∃ timedOut, result.error = some (cancellationError config.runTimeout timedOut f) ∧
        ∀ d, deadline = some d → ∃ m m', .poll ⟨t, .stopDeadline d, some timedOut, m, m'⟩ ∈ later := by
  obtain ⟨earlier, -, hu, hlater⟩ := hp
  have hdenies := hlater.denies (hu.isCancelled hT) t
  obtain ⟨d, more, hdeeds, hd⟩ := hyields
  rw [hdeeds] at hdenies
  obtain ⟨q, hq, hpure⟩ := Denies.staysIn_cancelledEnd hc config flow deadline f sc d _ hd
    fun x hx => hdenies x (List.mem_append_left more hx)
  rw [hpure _ rfl] at hq
  obtain ⟨d', timedOut, rfl, hstops⟩ := closes_of_cancelledEnd hq
  have hdeed : (⟨.closeRun ctx.run (.cancelled (cancellationError config.runTimeout timedOut f))
      sc.flow, result⟩ : Deed) ∈ deedsOf t later := by simp [hdeeds]
  obtain ⟨m, m', hm⟩ := mem_of_deed hdeed
  obtain ⟨l, v, v', hv, move⟩ := hlater.moment_of_mem hm
  obtain ⟨journal, rfl, hstatus⟩ := ((h.reaches hu).reaches hv).status_of_closes move
  refine ⟨hstatus, timedOut, rfl, fun n hn => mem_of_deed ?_⟩
  rw [hdeeds]
  exact List.mem_append_left _ (List.mem_append_left _ (hstops n hn))

def Occurrence.beginsBelow (T : Token) (run : Nat) (handle : String) : Occurrence → Bool
  | .poll ⟨_, .beginTransaction ctx, some (.ok name), m, _⟩ =>
    decide (ctx.run = run) && decide (name = handle) && T.covers ctx.token && !m.isCancelled T
  | _ => false

theorem Occurrence.exists_of_beginsBelow {run : Nat} {handle : String} {x : Occurrence}
    (h : x.beginsBelow T run handle = true) : ∃ t ctx m m',
      x = .poll ⟨t, .beginTransaction ctx, some (.ok handle), m, m'⟩ ∧ ctx.run = run ∧
        T.covers ctx.token = true ∧ m.isCancelled T = false := by
  unfold beginsBelow at h
  split at h
  · simp only [Bool.and_eq_true, decide_eq_true_eq, Bool.not_eq_eq_eq_not, Bool.not_true] at h
    obtain ⟨⟨⟨hrun, rfl⟩, hcovers⟩, hbegun⟩ := h
    exact ⟨_, _, _, _, rfl, hrun, hcovers, hbegun⟩
  · cases h

end FlowEngine
