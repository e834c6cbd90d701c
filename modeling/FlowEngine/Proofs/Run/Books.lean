import FlowEngine.Proofs.Execution.Flow
import FlowEngine.Proofs.Execution.Keeping
import FlowEngine.Proofs.Session.Turns
import FlowEngine.Proofs.Session.Discipline

/-!
# How a task keeps its books

A task writes a step down when the span of the step is the innermost one that it has open,
and then nothing comes before the end of that span. Only steps that are passed over are written
down without a span. So the books of a task are a stack of open spans, with a note of the
span that it has to end next.
-/
namespace FlowEngine

open Exec Execution

/-- What may be written down: a step that was passed over has no attempts, a step has an
error unless it completed, and no handled failure is a cancellation. -/
def Entry.Proper : Entry → Prop
  | .record r => (r.attempts = 0 ↔ r.status = .skipped) ∧ (r.error = none ↔ r.status = .completed)
  | .handled f => f.isCancellation = false
  | _ => True

inductive Books where
  | settled (spans : List (Nat × String))
  /-- The step of the innermost span was written down; the span has to end. -/
  | owing (run : Nat) (id : String) (status : StepStatus) (spans : List (Nat × String))

namespace Books

def recorded (run : Nat) (r : StepRecord) (spans : List (Nat × String)) : Books :=
  if r.status = .skipped then settled spans else owing run r.stepId r.status spans.tail

def protocol : Protocol Books where
  allows
    | settled spans, e => match e with
      | .note run (.record r) =>
        Entry.Proper (.record r) ∧ (r.status ≠ .skipped → spans.head? = some (run, r.stepId))
      | .note _ entry => entry.Proper
      | .endSpan _ _ _ => False
      | .closeRun _ _ _ => spans = []
      | _ => True
    | owing run id status _, e => match e with
      | .endSpan ctx step status' => run = ctx.run ∧ id = step ∧ status = status'
      | _ => False
  moves
    | settled spans, e, _, v => match e with
      | .startSpan ctx step => v = settled ((ctx.run, step) :: spans)
      | .note run (.record r) => v = recorded run r spans
      | _ => v = settled spans
    | owing _ _ _ spans, _, _, v => v = settled spans

def discipline : Discipline Books where
  protocol := protocol
  root := settled []
  born _ := settled []
  final u := u = settled []

def Neutral (e : Effect) : Prop :=
  ∀ spans, protocol.allows (settled spans) e ∧
    ∀ a v, protocol.moves (settled spans) e a v → v = settled spans

variable {α β : Type} {ctx : Context}

def Balances (x : Exec α) : Prop :=
  ∀ spans, x.Keeps protocol (· = settled spans) fun _ => False

namespace Balances

theorem result (r : Except Failure α) : Balances (ofResult r) := fun _ => keeps_ofResult r

theorem value (a : α) : Balances (pure a) := fun _ => keeps_pure a

theorem fails (f : Failure) : Balances (throw f : Exec α) := fun _ => keeps_throw f

theorem alter (g : Scope → Scope) : Balances (modify g) := fun _ => keeps_modify g

theorem bind {x : Exec α} {f : α → Exec β} (hx : Balances x) (hf : ∀ a, Balances (f a)) :
    Balances (x >>= f) :=
  fun spans => (hx spans).bind fun a => hf a spans

theorem decide {d : Scope → Except Control.Fault α} {f : α → Exec β}
    (hf : ∀ s a, d s = .ok a → Balances (f a)) : Balances (decided d >>= f) :=
  fun spans => keeps_decided_bind fun s a hd => hf s a hd spans

theorem inFrame {x : Exec α} (hx : Balances x) (enter : Scope → Scope) :
    Balances (inFrame enter x) :=
  fun spans => (hx spans).inFrame enter

theorem outcome {x : Exec α} {f : Except Failure α → Exec β} (hx : Balances x)
    (hf : ∀ r, Balances (f r)) : Balances (x.outcome >>= f) :=
  fun spans => (hx spans).outcome_bind (fun r => hf r spans) fun _ _ h => h.elim

theorem ask {e : Effect} {f : e.Answer → Exec α} (he : Neutral e) (hf : ∀ a, Balances (f a)) :
    Balances (Exec.ask e >>= f) := by
  rintro spans u rfl
  obtain ⟨hallows, hmoves⟩ := he spans
  refine obeys_bind (obeys_ask.mpr ⟨hallows, fun a v hmove => ?_⟩)
  exact hf a spans v (hmoves a v hmove)

theorem obeys {x : Exec α} (hx : Balances x) (spans : List (Nat × String)) :
    x.Obeys protocol (fun v _ => v = settled spans) (settled spans) :=
  (hx spans).obeys (fun _ h => h) rfl

/-! ## The parts of steps -/

theorem send (id : String) (request : Request) : Balances (send ctx id request) := by
  refine ask (fun _ => ⟨trivial, fun _ _ h => h⟩) fun (cancelled : Bool) => ?_
  cases cancelled with
  | true => exact fails _
  | false =>
      refine ask (fun _ => ⟨trivial, fun _ _ h => h⟩) fun answer => ?_
      cases answer with
      | ok outcome => exact value _
      | error moment => exact fails _

theorem withDeadline {attempt : Context → Exec α} (ha : ∀ ctx, Balances (attempt ctx)) (id : String)
    (limit : Option Millis) : Balances (withDeadline ctx id limit attempt) := by
  cases limit with
  | none => exact ha ctx
  | some limit =>
      refine ask (fun _ => ⟨trivial, fun _ _ h => h⟩) fun token => ?_
      refine ask (fun _ => ⟨trivial, fun _ _ h => h⟩) fun deadline => outcome (ha _) fun r => ?_
      refine ask (fun _ => ⟨trivial, fun _ _ h => h⟩) fun passed => ?_
      cases r with
      | ok a => exact value a
      | error f =>
          refine ask (fun _ => ⟨trivial, fun _ _ h => h⟩) fun outer => ?_
          split
          · exact fails _
          · exact fails _

def Attempted (spans : List (Nat × String)) (v : Books)
    (r : Except Failure (Nat × Except Failure α)) : Prop :=
  v = settled spans ∧ ∃ number result, r = .ok (number, result) ∧ number ≠ 0

theorem afterAttempt {again : Option (Exec (Nat × Except Failure α))} {spans : List (Nat × String)}
    (hagain : ∀ x ∈ again, x.Obeys protocol (Attempted spans) (settled spans)) (id : String)
    (policy : Option RetryPolicy) {number : Nat} (hnumber : number ≠ 0) (r : Except Failure α) :
    (afterAttempt ctx id policy number again r).Obeys protocol (Attempted spans) (settled spans) := by
  have ends (r : Except Failure α) : (pure (number, r) : Exec (Nat × Except Failure α)).Obeys protocol
      (Attempted spans) (settled spans) := obeys_pure.mpr ⟨rfl, number, r, rfl, hnumber⟩
  unfold Execution.afterAttempt
  cases r with
  | ok a => exact ends _
  | error f =>
      dsimp only
      split
      · exact ends _
      · exact ends _
      · refine obeys_bind (obeys_ask.mpr ⟨trivial, fun (waited : Bool) v hmove => ?_⟩)
        obtain rfl : v = settled spans := hmove
        cases waited with
        | true => exact hagain _ rfl
        | false => exact ends _

theorem attempts {attempt : Exec α} (ha : Balances attempt) (id : String)
    (policy : Option RetryPolicy) (further : Nat) {number : Nat} (hnumber : number ≠ 0)
    (spans : List (Nat × String)) : (attempts ctx id policy attempt further number).Obeys protocol
      (Attempted spans) (settled spans) := by
  induction further generalizing number with
  | zero =>
      refine obeys_bind (obeys_outcome ((ha.obeys spans).mono ?_))
      rintro _ r rfl
      exact afterAttempt (by simp) id policy hnumber r
  | succ further ih =>
      refine obeys_bind (obeys_outcome ((ha.obeys spans).mono ?_))
      rintro _ r rfl
      refine afterAttempt ?_ id policy hnumber r
      rintro x ⟨⟩
      exact ih (Nat.succ_ne_zero number)

theorem proper_of_result (id kind : String) {number : Nat} (hnumber : number ≠ 0)
    (result : Except Failure α) :
    Entry.Proper (.record ⟨id, kind, statusOf result, number, failureOf? result⟩) ∧
      statusOf result ≠ .skipped := by
  cases result with
  | ok a => simp [Entry.Proper, statusOf, failureOf?, hnumber]
  | error f => cases hf : f.isCancellation <;> simp [Entry.Proper, statusOf, failureOf?, hnumber, hf]

theorem node {attempt : Exec Reached} (ha : Balances attempt) (id kind : String)
    (retry : Option RetryPolicy) : Balances (node ctx id kind retry attempt) := by
  refine ask (fun _ => ⟨trivial, fun _ _ h => h⟩) fun (cancelled : Bool) => ?_
  cases cancelled with
  | true =>
      refine ask (fun spans => ⟨⟨?_, fun h => absurd rfl h⟩, ?_⟩) fun _ => fails _
      · simp [Entry.Proper]
      · rintro a v rfl
        rfl
  | false =>
      rintro spans u rfl
      refine obeys_bind (obeys_ask.mpr ⟨trivial, ?_⟩)
      rintro a v rfl
      refine obeys_bind ((ha.attempts id retry _ Nat.one_ne_zero _).mono ?_)
      rintro _ _ ⟨rfl, number, result, rfl, hnumber⟩
      obtain ⟨hproper, hskipped⟩ := proper_of_result id kind hnumber result
      refine obeys_bind (obeys_ask.mpr ⟨⟨hproper, fun _ => rfl⟩, ?_⟩)
      rintro a v hmove
      obtain rfl : v = owing ctx.run id (statusOf result) spans :=
        hmove.trans (by simp [recorded, hskipped])
      refine obeys_bind (obeys_ask.mpr ⟨⟨rfl, rfl, rfl⟩, ?_⟩)
      rintro a v rfl
      cases result with
      | ok reached => exact (bind (alter _) fun _ => value _) spans _ rfl
      | error f => exact fails f spans _ rfl

theorem fanOut (branches : Context → Scope → Except Control.Fault (List Branch)) (id : String)
    (policy : JoinPolicy) : Balances (fanOut ctx id policy branches) := by
  refine ask (fun _ => ⟨trivial, fun _ _ h => h⟩) fun _ => decide fun _ _ _ => ?_
  refine ask (fun _ => ⟨trivial, fun _ _ h => h⟩) fun joined => bind (result joined) fun _ => ?_
  refine ask (fun _ => ⟨trivial, fun _ _ h => h⟩) fun (cancelled : Bool) => ?_
  cases cancelled with
  | true => exact fails _
  | false => exact value _

theorem boundary {handler : Exec Json} (hh : Balances handler) (name : String) (f : Failure)
    (spans : List (Nat × String)) : (boundary ctx name handler f).Obeys protocol
      (fun v r => v = settled spans ∧ ∀ g, r = .ok g → g.isCancellation = false)
      (settled spans) := by
  unfold Execution.boundary
  by_cases hf : Boundary.intercepts f = true
  · rw [if_pos hf]
    refine obeys_bind (obeys_ask.mpr ⟨trivial, ?_⟩)
    rintro a v rfl
    refine obeys_bind (obeys_outcome (obeys_inFrame ((hh.obeys spans).mono ?_)))
    rintro _ r rfl
    refine obeys_ofResult.mpr ⟨rfl, fun g hg => ?_⟩
    have hg' : g = f := by
      cases r with
      | ok value =>
          cases hg
          rfl
      | error e =>
          simp only [Except.map, Boundary.resolve] at hg
          split at hg <;> cases hg
    simpa [Boundary.intercepts, hg'] using hf
  · rw [if_neg hf]
    exact obeys_throw.mpr ⟨rfl, nofun⟩

theorem settle : Balances (settle ctx) :=
  ask (fun _ => ⟨trivial, fun _ _ h => h⟩) fun _ => value _

theorem recover {handler : Option (Exec Json)} (hh : ∀ x ∈ handler, Balances x) (id : String)
    (f : Failure) : Balances (recover ctx id handler f) := by
  cases handler with
  | none => exact fails f
  | some x =>
      rintro spans u rfl
      refine obeys_bind ((boundary (hh x rfl) id f spans).mono ?_)
      rintro _ r ⟨rfl, hr⟩
      cases r with
      | error e => exact Or.inl rfl
      | ok g =>
          refine obeys_bind (obeys_ask.mpr ⟨hr g rfl, ?_⟩)
          rintro a v rfl
          exact obeys_pure.mpr (Or.inl rfl)

theorem undo {handler : Option (Exec Json)} (hh : ∀ x ∈ handler, Balances x) (id handle : String)
    (f : Failure) : Balances (undo ctx id handle handler f) := by
  refine bind settle fun _ => bind ?_ fun undone => ?_
  · refine ask (fun _ => ⟨trivial, fun _ _ h => h⟩) fun released => ?_
    cases released with
    | error e => exact value _
    | ok _ => exact ask (fun _ => ⟨trivial, fun _ _ h => h⟩) fun _ => value _
  · cases undone with
    | error e => exact fails _
    | ok _ => exact ask (fun _ => ⟨trivial, fun _ _ h => h⟩) fun _ => recover hh id _

theorem transaction {body : Exec Json} {handler : Option (Exec Json)} (hb : Balances body)
    (hh : ∀ x ∈ handler, Balances x) (id : String) :
    Balances (transaction ctx id body handler) := by
  refine bind settle fun _ => ask (fun _ => ⟨trivial, fun _ _ h => h⟩) fun begun => ?_
  refine bind (result _) fun handle => outcome (hb.inFrame _) fun r => ?_
  cases r with
  | error f => exact undo hh id handle f
  | ok output =>
      refine bind ?_ fun _ => value _
      refine ask (fun _ => ⟨trivial, fun _ _ h => h⟩) fun released => bind (result _) fun _ => ?_
      exact ask (fun _ => ⟨trivial, fun _ _ h => h⟩) fun discarded => result _

end Balances

theorem compositional : Compositional fun _ _ x => Balances x where
  result := .result
  alter _ := .alter _
  bind := .bind
  decide := .decide
  inFrame _ hb := hb.inFrame _
  send := .send
  node id kind retry ha := ha.node id kind retry
  deadline id limit ha := .withDeadline ha id limit
  fanOut id policy _ := .fanOut _ id policy
  transaction _ _ id hb hh := hb.transaction hh id

/-! ## Runs -/

theorem obeys_neutral {e : Effect} {next : e.Answer → Program α} {Q : Books → α → Prop}
    {spans : List (Nat × String)} (he : Neutral e)
    (h : ∀ a, (next a).Obeys protocol Q (settled spans)) :
    (Program.perform e next).Obeys protocol Q (settled spans) := by
  obtain ⟨hallows, hmoves⟩ := he spans
  refine ⟨hallows, fun a v hmove => ?_⟩
  obtain rfl := hmoves a v hmove
  exact h a

theorem sequence_obeys (steps : List Step) (ctx : Context) (s : Scope) :
    ((runSequence steps ctx .null).on s).Obeys protocol (fun v _ => v = settled []) (settled []) :=
  (compositional.sequence steps ctx .null).obeys [] s

theorem handleFailure_obeys (flow : Flow) (ctx : Context) (limit : Option UInt64) (timedOut : Bool)
    (f : Failure) (s : Scope) : (handleFailure flow ctx limit timedOut f s).Obeys protocol
      (fun v _ => v = settled []) (settled []) := by
  rw [handleFailure_eq]
  cases flow.onError with
  | none => exact (rfl : settled [] = settled [])
  | some handler =>
      refine Program.obeys_bind.mpr ((Balances.boundary (compositional.sequence handler ctx .null)
        flow.name f [] s).mono ?_)
      rintro _ ⟨r, s'⟩ ⟨rfl, hr⟩
      cases r with
      | ok g => exact ⟨hr g rfl, fun _ _ h => h⟩
      | error escaped => exact (rfl : settled [] = settled [])

theorem conclude_obeys (config : Config) (flow : Flow) (ctx : Context) (deadline : Option Nat)
    (p : Except Failure Json × Scope) :
    (conclude config flow ctx deadline p).Obeys protocol (fun v _ => v = settled []) (settled []) := by
  obtain ⟨result, s⟩ := p
  rw [conclude_eq_ended]
  have hsettled : (settleAll ctx).Obeys protocol (fun v _ => v = settled []) (settled []) :=
    ⟨trivial, fun _ _ h => h⟩
  have hstopped : (stopRunDeadline deadline).Obeys protocol (fun v _ => v = settled [])
      (settled []) := by
    cases deadline with
    | none => exact (rfl : settled [] = settled [])
    | some deadline => exact ⟨trivial, fun _ _ h => h⟩
  have hended (timedOut : Bool) : (ended config flow ctx timedOut s result).Obeys protocol
      (fun v _ => v = settled []) (settled []) := by
    cases result with
    | ok value => exact (rfl : settled [] = settled [])
    | error f =>
        rw [ended, endAfter_eq]
        refine obeys_neutral (fun _ => ⟨trivial, fun _ _ h => h⟩) fun (cancelled : Bool) => ?_
        split
        · exact (rfl : settled [] = settled [])
        · exact handleFailure_obeys flow ctx config.runTimeout timedOut f s
  refine Program.obeys_bind.mpr (hsettled.mono ?_)
  rintro _ _ rfl
  refine Program.obeys_bind.mpr (hstopped.mono ?_)
  rintro _ timedOut rfl
  refine Program.obeys_bind.mpr ((hended timedOut).mono ?_)
  rintro _ ended rfl
  refine Program.obeys_bind.mpr (hsettled.mono ?_)
  rintro _ _ rfl
  exact ⟨rfl, fun _ _ h => h⟩

theorem run_obeys (config : Config) (flow : Flow) (inputs : List (String × Json)) (parent : Token) :
    discipline.Obeys (run config flow inputs parent) (settled []) := by
  rw [run_eq]
  refine obeys_neutral (fun _ => ⟨trivial, fun _ _ h => h⟩) fun opened => ?_
  have hstarted : (startRunDeadline opened.2 config.runTimeout).Obeys protocol
      (fun v _ => v = settled []) (settled []) := by
    cases config.runTimeout with
    | none => exact (rfl : settled [] = settled [])
    | some limit => exact ⟨trivial, fun _ _ h => h⟩
  refine Program.obeys_bind.mpr (hstarted.mono ?_)
  rintro _ deadline rfl
  refine Program.obeys_bind.mpr ((sequence_obeys flow.steps _ _).mono ?_)
  rintro _ p rfl
  exact conclude_obeys config flow _ deadline p

theorem submitted_obeys (config : Config) (flow : Flow) (inputs : List (String × Json))
    (parent : Token) : discipline.Obeys (submitted config flow inputs parent) (settled []) := by
  rw [submitted_eq]
  refine obeys_neutral (fun _ => ⟨trivial, fun _ _ h => h⟩) fun _ => ?_
  refine Program.obeys_bind.mpr (Program.Obeys.mono (run_obeys config flow inputs parent) ?_)
  rintro _ result rfl
  exact ⟨trivial, fun _ _ h => h⟩

theorem errand_obeys {config : Config} {p : Program RunResult} (h : System.Errand config p) :
    discipline.Obeys p (settled []) := by
  cases h with
  | run flow inputs token => exact run_obeys config flow inputs token
  | await submission => exact ⟨trivial, fun _ _ h => h⟩

theorem branch_obeys (b : Branch) : discipline.Obeys b.program (settled []) := by
  cases b with
  | timed observed delay result =>
      refine ⟨trivial, fun (waited : Bool) v hmove => ?_⟩
      cases waited <;> exact hmove
  | steps ctx scope body collect =>
      refine Program.obeys_bind.mpr ((sequence_obeys body ctx scope).mono ?_)
      rintro _ ⟨r, s⟩ rfl
      cases r <;> cases collect <;> exact (rfl : settled [] = settled [])

/-! ## Sessions -/

def Owes : Books → Prop
  | settled _ => False
  | owing _ _ _ _ => True

theorem not_owes_born (b : Branch) : ¬ (discipline.born b).Owes := id

def Holds (o : Outline) (place : TaskId → Books) : Prop :=
  ∀ t, (place t).Owes → o.running = some t ∧ ∃ p w, o.task? t = some (.active p w)

variable {o o₁ : Outline} {place : TaskId → Books} {t : TaskId}

theorem Holds.idle (hh : Holds o place) (idle : o.running = none) (t : TaskId) :
    ¬ (place t).Owes := by
  intro ht
  have hrunning := (hh t ht).1
  rw [idle] at hrunning
  cases hrunning

theorem Holds.eq_of_running (hh : Holds o place) (running : o.running = some t) {u : TaskId}
    (hu : (place u).Owes) : u = t :=
  Option.some.inj ((hh u hu).1.symm.trans running)

/-- Whoever owes the end of a span ends it at once. -/
theorem Owes.not_waits {u : Books} {e : Effect} (hu : u.Owes) (hallows : protocol.allows u e)
    {w w' : Wait} (polls : o.Polls w o₁ e (.waiting w')) : False := by
  cases u with
  | settled spans => exact hu
  | owing run id status spans =>
      cases e with
      | endSpan => exact polls.waits
      | _ => exact hallows

theorem exists_move {u : Books} {e : Effect} (a : e.Answer) (hallows : protocol.allows u e) :
    ∃ v, protocol.moves u e a v := by
  cases u with
  | owing run id status spans => exact ⟨_, rfl⟩
  | settled spans =>
      cases e with
      | note run entry => cases entry <;> exact ⟨_, rfl⟩
      | _ => exact ⟨_, rfl⟩

theorem sound (config : Config) : discipline.Sound config Holds where
  root := rfl
  main := errand_obeys
  submission := submitted_obeys config
  branch {u run policy group bs b} _ _ := branch_obeys b
  pick t hh idle u hu := absurd hu (hh.idle idle u)
  cancel tokens hh idle u hu := absurd hu (hh.idle idle u)
  stop hh running inactive u hu := by
    obtain rfl := hh.eq_of_running running hu
    obtain ⟨-, p, w, active⟩ := hh u hu
    exact absurd active (inactive p w)
  finish {o place t a w} order hh running active hf u hu := by
    obtain rfl := hh.eq_of_running running hu
    rw [show place u = settled [] from hf] at hu
    exact hu.elim
  answer {o o₁ place t e next w a} hh running active hallows polls := by
    obtain ⟨v, hmove⟩ := exists_move a hallows
    refine ⟨v, hmove, fun u hu => ?_⟩
    by_cases hut : u = t
    · subst hut
      rw [Outline.setTask_running, polls.tasks.2.1]
      exact ⟨running, _, _, o₁.task?_setTask_self _ (Option.isSome_of_eq_some (polls.task? active))⟩
    · rw [Function.update_of_ne hut] at hu
      exact absurd (hh.eq_of_running running hu) hut
  wait {o o₁ place t e next w w'} hh running active hallows polls u hu := by
    rcases Discipline.heirs_cases e w u with h | ⟨b, h⟩
    · rw [h] at hu
      obtain rfl := hh.eq_of_running running hu
      exact (hu.not_waits hallows polls).elim
    · rw [h] at hu
      exact absurd hu (not_owes_born b)
  submit {o place} p hh idle u hu := by
    by_cases hut : u = .submission o.submissions.length
    · subst hut
      rw [Function.update_self] at hu
      exact hu.elim
    · rw [Function.update_of_ne hut] at hu
      exact absurd hu (hh.idle idle u)
  errand {o place} p hh idle ended u hu := by
    by_cases hut : u = .main
    · subst hut
      rw [Function.update_self] at hu
      exact hu.elim
    · rw [Function.update_of_ne hut] at hu
      exact absurd hu (hh.idle idle u)

theorem holds_initial {config : Config} {s : System RunResult} (_ : System.Initial config s) :
    Holds s.outline fun _ => discipline.root := fun _ h => h.elim

end Books
end FlowEngine
