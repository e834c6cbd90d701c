import FlowEngine.Proofs.Execution.Node
import FlowEngine.Proofs.Run.Cancellation
import FlowEngine.Proofs.Run.Containment
import FlowEngine.Proofs.Run.FanOut
import FlowEngine.Proofs.Run.Sequence
import FlowEngine.Proofs.Run.Undisturbed

/-!
# Runs that nobody cancels

A run is cancelled from outside or by its own deadline, and by nothing else. When neither happens,
the run does not end as cancelled, none of its own steps does, and a fan-out that completes gathers
no cancellation: the deadline of an attempt shows as a timeout of its step, and what a join abandons
stays in the branches.
-/
namespace FlowEngine

open Exec Execution

variable {config : Config} {flow : Flow} {before after earlier log : List Occurrence}
  {s s' u : System RunResult} {t : TaskId} {ctx : Context} {inputs : List (String × Json)}
  {number : Nat} {parent token : Token}

def System.CarriesOut {α : Type} (config : Config) (s : System RunResult) (log : List Occurrence)
    (s' : System RunResult) (t : TaskId) (p : Program α) (deeds : List Deed) (a : α) : Prop :=
  ∃ u later rest, ∃ k : α → Program t.Result, s.Passes config log s' u later ∧ u.At t (p.bind k) ∧
    deedsOf t later = deeds ++ rest ∧ p.Follows deeds (.pure a)

def Context.Within (ctx : Context) (run : Nat) (token : Token) : Prop :=
  ctx.run = run ∧ token.covers ctx.token = true

def Execution.surfaced {α : Type} (id : String) (limit : Millis) : Except Failure α → Except Failure α
  | .ok a => .ok a
  | .error f => .error
    (if f.isCancellation then (deadlinePassed id limit).toFailure.atStep id else f)

/-- What holds of a run of a flow that is neither cancelled from outside nor by its deadline. -/
structure Contained (config : Config) (flow : Flow) (inputs : List (String × Json)) (parent : Token)
    (number : Nat) (token : Token) (t : TaskId) (s : System RunResult) (after : List Occurrence)
    (s' : System RunResult) : Prop where
  ends {result : RunResult} : (run config flow inputs parent).Yields (deedsOf t after) result →
    result.status ≠ .cancelled
  /-- None of its outermost steps is written down as cancelled or skipped. -/
  records {r : StepRecord} : .record r ∈ entriesOf number after → flow.OutermostOnly r.stepId →
    r.status ≠ .cancelled ∧ r.status ≠ .skipped
  /-- No step in a scope that is not cancelled ends with a cancellation, and it is written down as
  it ended. -/
  steps {t' : TaskId} {ctx : Context} {step : Step} {scope final : Scope} {deeds : List Deed}
    {r : Except Failure Reached} :
      s.CarriesOut config after s' t' ((step.run ctx).on scope) deeds (r, final) →
      ctx.Within number token → s'.machine.isCancelled ctx.token = false →
      (∀ f, r = .error f → f.isCancellation = false) ∧ ∃ attempts, ⟨.note number
        (.record ⟨step.id, step.kind, statusOf r, attempts, failureOf? r⟩), ()⟩ ∈ deeds
  /-- What the deadline of an attempt cancels in a scope that is not cancelled is a timeout of the
  step. -/
  timeouts {t' : TaskId} {ctx : Context} {id : String} {limit : Millis} {action : Action}
    {scope final : Scope} {deeds : List Deed} {r : Except Failure Reached} :
      s.CarriesOut config after s' t'
        ((withDeadline ctx id (some limit) fun ctx => action.run id ctx).on scope) deeds (r, final) →
      ctx.Within number token → s'.machine.isCancelled ctx.token = false →
      ∃ n inner attempt, attempt <:+: deeds ∧
        ((action.run id { ctx with token := ctx.token.child n }).on scope).Follows attempt
          (.pure (inner, final)) ∧ r = surfaced id limit inner
  /-- A fan-out fails with a cancellation only if its scope is cancelled. If it completes, none of
  the failures that it gathers is a cancellation. -/
  fanOuts {t' : TaskId} {ctx : Context} {id : String} {action : Action} {policy : JoinPolicy}
    {scope final : Scope} {deeds : List Deed} {r : Except Failure Reached} :
      s.CarriesOut config after s' t' ((action.run id ctx).on scope) deeds (r, final) →
      action.policy? = some policy → ctx.Within number token →
      (∀ f, r = .error f → f.isCancellation = true → s'.machine.isCancelled ctx.token = true) ∧
      ∀ reached, r = .ok reached → ∃ outcomes : List BranchOutcome,
        reached = .value (.arr (outcomes.map BranchOutcome.envelope)) ∧
          ∀ outcome ∈ outcomes, ∀ f ∈ outcome.failure?, f.isCancellation = false

namespace Containment

def ofRun (ctx : Context) (Top : String → Prop) (log : List Occurrence) : Containment where
  run := ctx.run
  token := ctx.token
  Top
  Started := Deadline log

variable {Top : String → Prop}

/-- A session whose owner spares a run tells what is relied on. -/
theorem heeds (h : Session.Commences config flow earlier u t ctx inputs)
    (hspares : Session.Spares config ctx.token (earlier ++ log) s')
    (hreplies : ∀ token request outcome,
      Answered log (.request ctx.run token request) (.ok outcome) → outcome.Active) :
    (ofRun ctx Top (earlier ++ log)).Heeds (earlier ++ log) s'.machine.cancelled := by
  refine ⟨id, fun hstopped hstarted hcovers => ?_, fun hreply => ?_⟩
  · exact hspares.not_cancelled_of_stopped hstarted hcovers hstopped
  · rcases hreply.of_append with ⟨t', m, m', hm⟩ | hnew
    · exact absurd rfl (h.fresh hm)
    · exact hreplies _ _ _ hnew

theorem outer_of_outermostOnly {steps : List Step}
    (hsteps : ∀ s ∈ steps, s ∈ flow.outermost) (log : List Occurrence) :
    (ofRun ctx flow.OutermostOnly log).Outer steps :=
  fun s hs n hn htop => htop s (hsteps s hs) n hn rfl

section

variable (h : Session.Commences config flow earlier u t ctx inputs)
  (hspares : Session.Spares config ctx.token earlier u) (hl : u.Spares config ctx.token log s')
  (hreplies : ∀ token request outcome,
    Answered log (.request ctx.run token request) (.ok outcome) → outcome.Active)
include h hspares hl hreplies

/-- What is done for the run is allowed, whatever is looked at as its outermost steps. -/
theorem allows_of_commences (hsteps : (ofRun ctx Top (earlier ++ log)).Outer flow.steps)
    (hhandler : ∀ steps ∈ flow.onError, (ofRun ctx Top (earlier ++ log)).Outer steps) {x : Poll}
    (hm : .poll x ∈ log) (hx : x.effect.run? = some ctx.run) :
    (ofRun ctx Top (earlier ++ log)).protocol.allows s'.machine.cancelled x.effect :=
  allows_of_mem h hsteps hhandler rfl rfl hspares hl (heeds h (hspares.along hl) hreplies) hm hx

theorem path_of_carriesOut {α : Type} {p : Program α} {a : α} {t' : TaskId} {deeds : List Deed}
    (hcarries : s.CarriesOut config after s' t' p deeds a) (hafter : after ⊆ earlier ++ log) :
    ∃ cancelled, (ofRun ctx (fun _ => False) (earlier ++ log)).protocol.Path [] deeds cancelled ∧
      cancelled <:+ s'.machine.cancelled := by
  obtain ⟨v, later, rest, k, ⟨sooner, rfl, -, hlater⟩, -, hdeeds, -⟩ := hcarries
  have hheeds : (ofRun ctx (fun _ => False) (earlier ++ log)).Heeds (earlier ++ log)
      s'.machine.cancelled := heeds h (hspares.along hl) hreplies
  have hu := upheld h (fun _ _ _ _ => id) (fun _ _ _ _ _ _ => id) rfl rfl hspares hl hheeds
  obtain ⟨last, hpath, hlast⟩ := path_of_reaches hlater
    (fun hm => hu.admitted (hafter (List.mem_append_right sooner hm))) t' List.nil_suffix
  rw [hdeeds] at hpath
  obtain ⟨cancelled, hbefore, hafter⟩ := Protocol.Path.append_iff.mp hpath
  exact ⟨cancelled, hbefore, (suffix_of_path hafter).trans hlast⟩

end

/-- What the deadline of an attempt cancels surfaces as a timeout when nothing else is cancelled. -/
theorem surfaces {w : Containment} {α : Type} {attempt : Context → Exec α}
    (hcovers : w.token.covers ctx.token = true)
    (ha : ∀ token, w.token.covers token = true → w.Confines token (attempt { ctx with token }))
    {id : String} {limit : Millis} {scope final : Scope} {r : Except Failure α} {deeds : List Deed}
    {cancelled : List Token} (hpath : w.protocol.Path [] deeds cancelled)
    (hcalm : ctx.token.isCancelled cancelled = false)
    (hfollows : ((withDeadline ctx id (some limit) attempt).on scope).Follows deeds
      (.pure (r, final))) :
    ∃ n inner d, d <:+: deeds ∧ ((attempt { ctx with token := ctx.token.child n }).on scope).Follows d
      (.pure (inner, final)) ∧ r = surfaced id limit inner := by
  rw [withDeadline_on] at hfollows
  obtain ⟨-, hend⟩ | ⟨token, d₁, rfl, hgranted⟩ := hfollows.cons_of_perform
  · cases hend
  obtain ⟨-, hend⟩ | ⟨deadline, d₂, rfl, hstarted⟩ := hgranted.cons_of_perform
  · cases hend
  obtain ⟨d₃, d₄, ⟨inner, reached⟩, rfl, hinner, hrest⟩ := hstarted.bind_pure
  obtain ⟨-, hend⟩ | ⟨(passed : Bool), d₅, rfl, hstopped⟩ := hrest.cons_of_perform
  · cases hend
  obtain ⟨granted, ⟨-, n, hn⟩, hgoes⟩ := Protocol.Path.cons_iff.mp hpath
  obtain ⟨begun, ⟨-, started⟩, hgoes⟩ := Protocol.Path.cons_iff.mp hgoes
  obtain ⟨attempted, hattempt, hgoes⟩ := Protocol.Path.append_iff.mp hgoes
  obtain ⟨stopped, ⟨hmore, admitted⟩, hlast⟩ := Protocol.Path.cons_iff.mp hgoes
  obtain rfl : token = ctx.token.child n := hn
  have hchild : w.token.covers (ctx.token.child n) = true := Token.covers_child _ _ _ hcovers
  have hgrounded : Grounded (ctx.token.child n) attempted inner :=
    (ha _ hchild begun scope).follow hinner hattempt
  refine ⟨n, inner, d₃, ?_, ?_⟩
  · apply (List.prefix_append d₃ _).isInfix.trans
    exact ((List.suffix_cons _ _).trans (List.suffix_cons _ _)).isInfix
  cases inner with
  | ok a =>
      obtain ⟨-, hend⟩ := Program.Follows.pure_iff.mp hstopped
      cases hend
      exact ⟨hinner, rfl⟩
  | error f =>
      obtain ⟨-, hend⟩ | ⟨(outer : Bool), d₆, rfl, hlooked⟩ :=
        Program.Follows.cons_of_perform hstopped
      · cases hend
      obtain ⟨looked, ⟨hlater, houter⟩, hended⟩ := Protocol.Path.cons_iff.mp hlast
      obtain ⟨rfl, hend⟩ := Program.Follows.pure_iff.mp hlooked
      cases hend
      obtain rfl := Protocol.Path.nil_iff.mp hended
      refine ⟨hinner, congrArg Except.error ?_⟩
      cases hkind : f.isCancellation with
      | false => rw [Bool.and_false, Bool.false_and]
      | true =>
          have hpassed : passed = true := by
            cases passed with
            | true => rfl
            | false =>
                have hcancelled := Token.isCancelled_mono hmore (hgrounded f rfl hkind)
                have habove := Token.isCancelled_of_child hcancelled (admitted rfl _ started hchild)
                exact hcalm.symm.trans (Token.isCancelled_mono hlater habove)
          have hcalmer : outer = false := houter.trans hcalm
          rw [hpassed, hcalmer, Bool.not_false, Bool.and_self, Bool.and_self]

end Containment

/-! ## The run -/

/-- Neither the token of the run nor one above it is cancelled when its deadline does not pass. -/
theorem Session.Spares.calm {m m' : Machine} {s₁ : System RunResult}
    (h : Session.Spares config token log s') (hm : .poll ⟨t, .openRun flow.name parent,
      some (number, token), m, m'⟩ ∈ log)
    (move : s₁.Moves config [.poll ⟨t, .openRun flow.name parent, some (number, token), m, m'⟩] u)
    (hparent : s'.machine.isCancelled parent = false)
    (hdeadline : ∀ d, Deadline log d token → s'.machine.isPending d = true ∨ Stopped log d) :
    s'.machine.isCancelled token = false := by
  have hown : token ∉ s'.machine.cancelled :=
    h.not_cancelled_of_deadlines ⟨flow.name, parent, number, t, m, m', hm⟩ (Token.covers_self token)
      hdeadline
  obtain ⟨-, next, w, -, ⟨n, hopened⟩, -⟩ := move.polls_of_answer
  obtain rfl : token = parent.child n := (Prod.ext_iff.mp (Turn.answered.inj hopened)).2
  apply eq_false_of_ne_true
  intro hcancelled
  exact Bool.false_ne_true (hparent.symm.trans (Token.isCancelled_of_child hcancelled hown))

theorem Step.Course.written {step : Step} {deeds : List Deed} {r : Except Failure Reached}
    (h : step.Course ctx deeds r) (hcalm : ⟨.isCancelled ctx.token, true⟩ ∉ deeds) : ∃ attempts,
      ⟨.note ctx.run (.record ⟨step.id, step.kind, statusOf r, attempts, failureOf? r⟩), ()⟩ ∈ deeds := by
  cases h with
  | passedOver f => exact absurd List.mem_cons_self hcalm
  | attempted opened attempts number r closed => exact ⟨number, by simp⟩

/-- What a task is told about a scope while it carries out a program is so in the end. -/
theorem System.CarriesOut.calm {α : Type} {p : Program α} {deeds : List Deed} {a : α}
    (h : s.CarriesOut config after s' t p deeds a) (hcalm : s'.machine.isCancelled token = false) :
    ⟨.isCancelled token, true⟩ ∉ deeds := by
  obtain ⟨v, later, rest, k, ⟨-, -, -, hlater⟩, -, hdeeds, -⟩ := h
  intro hd
  have hdeed : (⟨.isCancelled token, true⟩ : Deed) ∈ deedsOf t later := by
    rw [hdeeds]
    exact List.mem_append_left rest hd
  exact Bool.false_ne_true (hcalm.symm.trans (hlater.cancelled_of_deed hdeed))

theorem System.CarriesOut.follows {α : Type} {p : Program α} {deeds : List Deed} {a : α}
    (h : s.CarriesOut config after s' t p deeds a) : p.Follows deeds (.pure a) := by
  obtain ⟨v, later, rest, k, -, -, -, hfollows⟩ := h
  exact hfollows

section

variable (h : Session.Commences config flow earlier u t ctx inputs)
  (hspares : Session.Spares config ctx.token earlier u) (hl : u.Spares config ctx.token log s')
  (hreplies : ∀ token request outcome,
    Answered log (.request ctx.run token request) (.ok outcome) → outcome.Active)
include h hspares hl hreplies

namespace Contained

section

variable (hcalm : s'.machine.isCancelled ctx.token = false)
include hcalm

theorem status_of_opened {result : RunResult} {d more : List Deed} (hdeeds : deedsOf t log = d ++ more)
    (hcloses : (afterOpening config flow inputs (ctx.run, ctx.token)).Follows d (.pure result)) :
    result.status ≠ .cancelled := by
  intro hstatus
  obtain ⟨k, hbegins⟩ := h.begins
  obtain ⟨during, ending, outputs, v, m, later, hlog, hlives⟩ :=
    Session.lives_of_opened ctx h.limit h.opening hbegins hl.reaches hdeeds hcloses
  obtain ⟨f, rfl, -⟩ := hlives.ending_of_cancelled hstatus
  have hclose : Occurrence.poll ⟨t, .closeRun ctx.run (.cancelled f) outputs, some result, v.machine,
      m⟩ ∈ log := by simp [hlog]
  have hallows : (Containment.ofRun ctx (fun _ => False) (earlier ++ log)).protocol.allows
      s'.machine.cancelled (.closeRun ctx.run (.cancelled f) outputs) :=
    Containment.allows_of_commences h hspares hl hreplies (fun _ _ _ _ => id)
      (fun _ _ _ _ _ _ => id) hclose rfl
  exact Bool.false_ne_true (hcalm.symm.trans (hallows rfl f rfl))

/-- None of its outermost steps is written down as cancelled or skipped. -/
theorem status_of_record {r : StepRecord} (hr : .record r ∈ entriesOf ctx.run log)
    (htop : flow.OutermostOnly r.stepId) : r.status ≠ .cancelled ∧ r.status ≠ .skipped := by
  have hsteps : (Containment.ofRun ctx flow.OutermostOnly (earlier ++ log)).Outer flow.steps :=
    Containment.outer_of_outermostOnly (fun s hs => List.mem_append_left _ hs) _
  have hhandler : ∀ steps ∈ flow.onError,
      (Containment.ofRun ctx flow.OutermostOnly (earlier ++ log)).Outer steps := by
    intro steps hsteps
    apply Containment.outer_of_outermostOnly
    intro s hs
    rw [Flow.outermost, hsteps]
    exact List.mem_append_right _ hs
  obtain ⟨t', m, m', hm⟩ := mem_entriesOf.mp hr
  have hallows := Containment.allows_of_commences h hspares hl hreplies hsteps hhandler hm rfl
  have hno : ¬ (r.status = .cancelled ∨ r.status = .skipped) :=
    fun hstatus => Bool.false_ne_true (hcalm.symm.trans (hallows rfl htop hstatus))
  exact not_or.mp hno

end

variable {t' : TaskId} {own : Context} {name : String} {scope final : Scope} {deeds : List Deed}
  {r : Except Failure Reached} (hafter : after ⊆ earlier ++ log) (hwithin : own.Within ctx.run ctx.token)
include hafter hwithin

theorem step_ends {step : Step}
    (hcarries : s.CarriesOut config after s' t' ((step.run own).on scope) deeds (r, final))
    (hcalm : s'.machine.isCancelled own.token = false) :
    (∀ f, r = .error f → f.isCancellation = false) ∧ ∃ attempts, ⟨.note ctx.run
      (.record ⟨step.id, step.kind, statusOf r, attempts, failureOf? r⟩), ()⟩ ∈ deeds := by
  obtain ⟨hrun, hcovers⟩ := hwithin
  constructor
  · obtain ⟨cancelled, hpath, hless⟩ :=
      Containment.path_of_carriesOut h hspares hl hreplies hcarries hafter
    have hconfines := Containment.step (w := .ofRun ctx (fun _ => False) (earlier ++ log)) (s := step)
      (fun _ _ => id) hrun hcovers nofun
    have hgrounded : Grounded own.token cancelled r :=
      (hconfines [] scope).follow hcarries.follows hpath
    intro f hf
    apply eq_false_of_ne_true
    intro hkind
    have hcancelled := Token.isCancelled_mono hless (hgrounded f hf hkind)
    exact Bool.false_ne_true (hcalm.symm.trans hcancelled)
  · rw [← hrun]
    exact (Step.course_of_follows hcarries.follows).written (hcarries.calm hcalm)

theorem attempt_surfaces {limit : Millis} {action : Action}
    (hcarries : s.CarriesOut config after s' t'
      ((withDeadline own name (some limit) fun ctx => action.run name ctx).on scope) deeds (r, final))
    (hcalm : s'.machine.isCancelled own.token = false) :
    ∃ n inner attempt, attempt <:+: deeds ∧
      ((action.run name { own with token := own.token.child n }).on scope).Follows attempt
        (.pure (inner, final)) ∧ r = surfaced name limit inner := by
  obtain ⟨hrun, hcovers⟩ := hwithin
  obtain ⟨cancelled, hpath, hless⟩ :=
    Containment.path_of_carriesOut h hspares hl hreplies hcarries hafter
  have hcalmer : own.token.isCancelled cancelled = false := by
    apply eq_false_of_ne_true
    intro hcancelled
    exact Bool.false_ne_true (hcalm.symm.trans (Token.isCancelled_mono hless hcancelled))
  refine Containment.surfaces hcovers (fun token htoken => ?_) hpath hcalmer hcarries.follows
  exact Containment.action (s := .mk name action none none) (fun _ _ => id) hrun htoken

theorem fanOut_gathers {action : Action} {policy : JoinPolicy}
    (hcarries : s.CarriesOut config after s' t' ((action.run name own).on scope) deeds (r, final))
    (hpolicy : action.policy? = some policy) :
    (∀ f, r = .error f → f.isCancellation = true → s'.machine.isCancelled own.token = true) ∧
      ∀ reached, r = .ok reached → ∃ outcomes : List BranchOutcome,
        reached = .value (.arr (outcomes.map BranchOutcome.envelope)) ∧
          ∀ outcome ∈ outcomes, ∀ f ∈ outcome.failure?, f.isCancellation = false := by
  obtain ⟨hrun, hcovers⟩ := hwithin
  obtain ⟨cancelled, hpath, hless⟩ :=
    Containment.path_of_carriesOut h hspares hl hreplies hcarries hafter
  have hobeys := Containment.gathers (w := .ofRun ctx (fun _ => False) (earlier ++ log)) hpolicy
    (fun _ _ => id) hrun hcovers name []
  obtain ⟨hgrounded, hgathered⟩ := (hobeys scope).follow hcarries.follows hpath
  exact ⟨fun f hf hkind => Token.isCancelled_mono hless (hgrounded f hf hkind), hgathered⟩

end Contained

end

theorem System.Cancels.differs (h : s.Cancels token s') (htimers : s'.machine.timers = s.machine.timers)
    (hcancelled : s'.machine.cancelled = s.machine.cancelled) : False := by
  rcases h with hm | ⟨span, hm⟩
  · have hlength := congrArg (fun m => m.cancelled.length) hm
    simp only [hcancelled, Machine.cancelled_cancel, List.length_cons] at hlength
    omega
  · have hlength := congrArg (fun m => m.timers.length) hm
    simp only [htimers, Machine.schedule, List.length_append, List.length_singleton] at hlength
    omega

theorem System.spares_course (token : Token) (fuel : Nat) (s : System RunResult) :
    s.Spares config token (s.course fuel).1 (s.course fuel).2 := by
  induction fuel generalizing s with
  | zero => exact .refl
  | succ fuel ih =>
      rw [course]
      cases hs : s.step? with
      | none => exact .refl
      | some s' => exact (System.Spares.refl.move (.step hs)).trans (ih s')

namespace Solo

/-- Whoever asks for a run that is not to be cancelled cancels nothing before it begins. -/
theorem spares (a : Solo) (h : a.cancelAfter = none) (hs : a.world.store.store.snapshots = [])
    (token : Token) : Session.Spares a.config token [.errand] a.start := by
  obtain ⟨config, world, flow, inputs, cancelAfter⟩ := a
  cases h
  have hnew : System.Idle ⟨.new config world, .ended default 0⟩ := ⟨⟨_, _, rfl⟩, rfl⟩
  have hgranted : System.Spares config token ⟨.new config world, .ended default 0⟩ []
      ⟨(Machine.new config world).newToken.2, .ended default 0⟩ :=
    System.Spares.refl.move (.act (.newToken hnew) fun _ hc => (hc.differs rfl rfl).elim)
  have hasked : System.Spared config token
      ⟨(Machine.new config world).newToken.2, .ended default 0⟩ [.errand]
      (Solo.start ⟨config, world, flow, inputs, none⟩) :=
    .act (.start ⟨⟨_, _, rfl⟩, rfl⟩ (.run flow inputs _)) fun _ hc => (hc.differs rfl rfl).elim
  exact ⟨_, .new world (.of_no_snapshots hs), hgranted.move hasked⟩

/-- The run is opened before anything else happens. -/
theorem opens_first {a : Solo} (h : a.cancelAfter = none) (fuel : Nat) :
    ∃ deeds, deedsOf .main (a.start.course (fuel + 2)).1 =
      ⟨.openRun a.flow.name (.root 0), (0, a.token)⟩ :: deeds := by
  obtain ⟨config, world, flow, inputs, cancelAfter⟩ := a
  cases h
  exact ⟨_, rfl⟩

def sheltered : Solo where
  config := { runTimeout := some 1000 }
  world := quietWorld [("slow", .delayed 50 .echo), ("broken", .delayed 10 (.failure .stepExecution "no"))]
  flow :=
    { name := "orders"
      description := none
      steps := [
        .mk "block" (.transaction [.mk "fork" (.parallel
          [([calls "ship" "slow"], none), ([calls "pay" "broken"], none)] .failFast) none none]
          (some [creates "audit" "audits"])) none none,
        .mk "both" (.parallel
          [([.mk "wait" (.call .tool ⟨"slow", [], none, false⟩) none (some 5)], none)] .waitAll)
          none none]
      onError := none }

end Solo

namespace Occurrence

def deadline? (token : Token) : Occurrence → Option Nat
  | .poll ⟨_, .startDeadline other _, some d, _, _⟩ => if other = token then some d else none
  | _ => none

def stopsInTime (d : Nat) : Occurrence → Bool
  | .poll ⟨_, .stopDeadline other, some passed, _, _⟩ => other = d && !passed
  | _ => false

def isCalledOff : Occurrence → Bool
  | .poll ⟨_, .request _ _ _, some (.ok (.failed .cancellation _)), _, _⟩ => true
  | _ => false

def recordsCancellation : Occurrence → Bool
  | .poll ⟨_, .note _ (.record r), _, _, _⟩ => r.status = .cancelled
  | _ => false

theorem deadline_iff {log : List Occurrence} {d : Nat} :
    Deadline log d token ↔ d ∈ log.filterMap (deadline? token) := by
  rw [List.mem_filterMap]
  constructor
  · rintro ⟨limit, t, m, m', hm⟩
    exact ⟨_, hm, if_pos rfl⟩
  · rintro ⟨x, hx, hd⟩
    unfold deadline? at hd
    split at hd
    · rename_i t other limit d' m m'
      split at hd
      · rename_i same
        cases hd
        subst same
        exact ⟨limit, t, m, m', hx⟩
      · cases hd
    · cases hd

theorem stopped_of_stopsInTime {log : List Occurrence} {d : Nat}
    (h : log.any (stopsInTime d) = true) : Stopped log d := by
  obtain ⟨x, hx, hstops⟩ := List.any_eq_true.mp h
  unfold stopsInTime at hstops
  split at hstops
  · rename_i t other passed m m'
    obtain ⟨rfl, hpassed⟩ : other = d ∧ !passed := by simpa using hstops
    obtain rfl := (Bool.not_eq_true' passed).mp hpassed
    exact ⟨t, m, m', hx⟩
  · cases hstops

end Occurrence

end FlowEngine
