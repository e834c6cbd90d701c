import FlowEngine.Proofs.Execution.Coherent
import FlowEngine.Proofs.Execution.Flow
import FlowEngine.Proofs.Program.Alone

/-!
# Steps that depend on neither time nor order

A step without a deadline, without a transaction and without a change of the record store, whose
branches are all waited for, does the same in any two scopes of cancellation that nobody cancels.
-/
namespace FlowEngine

open Exec Execution

def Action.Timeless : Action → Prop
  | .record op _ => op = .query
  | .forEach _ _ _ join _ | .parallel _ join => join = .waitAll
  | .transaction _ _ => False
  | _ => True

instance : DecidablePred Action.Timeless
  | .record op _ => inferInstanceAs (Decidable (op = .query))
  | .forEach _ _ _ join _ | .parallel _ join => inferInstanceAs (Decidable (join = .waitAll))
  | .transaction _ _ => inferInstanceAs (Decidable False)
  | .call _ _ | .script _ _ | .assign _ _ _ | .conditional _ _ | .choose _ _ _ | .guard _ _
  | .repeatTimes _ _ _ | .repeatForEach _ _ _ _ => inferInstanceAs (Decidable True)

def Step.Timeless (s : Step) : Prop := s.timeout = none ∧ s.action.Timeless

instance : DecidablePred Step.Timeless := fun s =>
  inferInstanceAs (Decidable (s.timeout = none ∧ s.action.Timeless))

def Flow.Timeless (flow : Flow) : Prop :=
  ∀ s ∈ Step.sequenceNodes flow.steps ++ Step.optionNodes flow.onError, s.Timeless

instance : DecidablePred Flow.Timeless := fun flow =>
  inferInstanceAs (Decidable
    (∀ s ∈ Step.sequenceNodes flow.steps ++ Step.optionNodes flow.onError, s.Timeless))

/-- A step leaves the rows of the store alone and waits for all branches that it starts. -/
def Action.Patient : Action → Prop
  | .record op _ => op = .query
  | .forEach _ _ _ join _ | .parallel _ join => join = .waitAll
  | _ => True

instance : DecidablePred Action.Patient
  | .record op _ => inferInstanceAs (Decidable (op = .query))
  | .forEach _ _ _ join _ | .parallel _ join => inferInstanceAs (Decidable (join = .waitAll))
  | .transaction _ _ | .call _ _ | .script _ _ | .assign _ _ _ | .conditional _ _ | .choose _ _ _
  | .guard _ _ | .repeatTimes _ _ _ | .repeatForEach _ _ _ _ => inferInstanceAs (Decidable True)

/-- A step without a deadline that leaves the rows of the store alone and waits for all branches that
it starts. -/
def Step.Patient (s : Step) : Prop := s.timeout = none ∧ s.action.Patient

instance : DecidablePred Step.Patient := fun s =>
  inferInstanceAs (Decidable (s.timeout = none ∧ s.action.Patient))

theorem Step.Timeless.patient {s : Step} (h : s.Timeless) : s.Patient := by
  refine ⟨h.1, ?_⟩
  have ha := h.2
  cases hs : s.action with
  | record | forEach | parallel =>
      rw [hs] at ha
      exact ha
  | _ => trivial

theorem Step.Timeless.not_transaction {s : Step} {body : List Step} {onError : Option (List Step)}
    (h : s.Timeless) : s.action ≠ .transaction body onError := by
  intro hs
  have ha := h.2
  rw [hs] at ha
  exact ha

theorem Action.Asks.reads {a : Action} {request : Request} (h : a.Asks request)
    (ha : a.Patient) : request.Reads := by
  cases h with
  | call => trivial
  | record => exact ha

theorem Action.Patient.policy {a : Action} {policy : JoinPolicy} (ha : a.Patient)
    (h : a.policy? = some policy) : policy = .waitAll := by
  cases a with
  | forEach | parallel =>
      cases h
      exact ha
  | _ => cases h

namespace Exec

variable {reply : Request → Outcome} {U : Role → Answers} {role : Role} {α β : Type}

def Twins (U : Role → Answers) (role : Role) (x x' : Exec α) : Prop :=
  ∀ s, Program.Twin U role Eq (x.on s) (x'.on s)

namespace Twins

theorem ofResult (r : Except Failure α) : Twins U role (ofResult r) (ofResult r) := by
  intro s
  rw [on_ofResult]
  exact .pure rfl

theorem value (a : α) : Twins U role (pure a) (pure a) := ofResult (.ok a)

theorem fails (f : Failure) : Twins U role (throw f : Exec α) (throw f) := ofResult (.error f)

theorem alter (g : Scope → Scope) : Twins U role (modify g) (modify g) := fun _ => .pure rfl

theorem bind {x x' : Exec α} {f f' : α → Exec β} (hx : Twins U role x x')
    (hf : ∀ a, Twins U role (f a) (f' a)) : Twins U role (x >>= f) (x' >>= f') := by
  intro s
  rw [on_bind, on_bind]
  refine (hx s).bind ?_
  rintro ⟨r, s'⟩ _ rfl
  cases r with
  | ok a => exact hf a s'
  | error f => exact .pure rfl

theorem decide {Q : α → α → Prop} {d d' : Scope → Except Control.Fault α} {f f' : α → Exec β}
    (hd : ∀ s, Control.Alike Q (d s) (d' s))
    (hf : ∀ s a a', d s = .ok a → Q a a' → Twins U role (f a) (f' a')) :
    Twins U role (decided d >>= f) (decided d' >>= f') := by
  intro s
  rw [on_bind, on_bind, on_decided, on_decided, Program.bind_pure_left,
    Program.bind_pure_left]
  have halike := hd s
  cases hs : d s with
  | ok a =>
      rw [hs] at halike
      generalize d' s = r' at halike
      cases halike with
      | ok hQ => exact hf s a _ hs hQ s
  | error fault =>
      rw [hs] at halike
      generalize d' s = r' at halike
      cases halike
      exact .pure rfl

theorem outcome {x x' : Exec α} (hx : Twins U role x x') : Twins U role x.outcome x'.outcome := by
  intro s
  rw [on_outcome, on_outcome]
  refine (hx s).bind ?_
  rintro p _ rfl
  exact .pure rfl

theorem inFrame {x x' : Exec α} (hx : Twins U role x x') (enter : Scope → Scope) :
    Twins U role (inFrame enter x) (inFrame enter x') := by
  intro s
  rw [on_inFrame, on_inFrame]
  refine (hx (enter s)).bind ?_
  rintro p _ rfl
  exact .pure rfl

theorem join {f f' : Except Failure (List BranchOutcome) → Exec α} {run run' : Nat}
    {group group' : Token} {bs bs' : List Branch} (length : bs.length = bs'.length)
    (branches : ∀ (i : Nat) (b b' : Branch), bs[i]? = some b → bs'[i]? = some b' →
      Program.Twin U .branch Eq b.program b'.program)
    (hf : ∀ outcomes, Twins U role (f (.ok outcomes)) (f' (.ok outcomes))) :
    Twins U role (ask (.join run .waitAll group bs) >>= f)
      (ask (.join run' .waitAll group' bs') >>= f') :=
  fun s => .join length branches fun _ => hf _ s

theorem expect {e e' : Effect} {f : e.Answer → Exec α} {f' : e'.Answer → Exec α}
    (entries : e.entries = e'.entries) (answers : ∃ a, U role e a) (answers' : ∃ a, U role e' a)
    (hf : ∀ a a', U role e a → U role e' a' → Twins U role (f a) (f' a')) :
    Twins U role (ask e >>= f) (ask e' >>= f') := by
  intro s
  rw [on_bind, on_bind, on_ask, on_ask]
  exact .deed entries answers answers' fun a a' ha ha' => hf a a' ha ha' s

/-! ## The parts of steps -/

variable {ctx ctx' : Context}

theorem branch {body : List Step} {scope : Scope}
    (h : Twins U .branch (runSequence body ctx .null) (runSequence body ctx' .null))
    (collect : Option Expr) :
    Program.Twin U .branch Eq (Branch.steps ctx scope body collect).program
      (Branch.steps ctx' scope body collect).program := by
  refine (h scope).bind ?_
  rintro ⟨r, final⟩ _ rfl
  cases r <;> cases collect <;> exact .pure rfl

section

variable (hU : Regular reply U)
include hU

theorem ask_bind {e e' : Effect} {f : e.Answer → Exec α} {f' : e'.Answer → Exec α}
    (entries : e.entries = e'.entries) (unhandled : ∀ f, .handled f ∉ e.entries)
    (answers : ∃ a, e.Undisturbed reply a) (answers' : ∃ a, e'.Undisturbed reply a)
    (hf : ∀ a a', e.Undisturbed reply a → e'.Undisturbed reply a' → Twins U role (f a) (f' a')) :
    Twins U role (ask e >>= f) (ask e' >>= f') := by
  obtain ⟨b, hb⟩ := answers
  obtain ⟨b', hb'⟩ := answers'
  exact expect entries ⟨b, hU.expected hb fun _ => unhandled⟩
    ⟨b', hU.expected hb' fun _ => entries ▸ unhandled⟩
    fun a a' ha ha' => hf a a' (hU.undisturbed hb ha) (hU.undisturbed hb' ha')

theorem look {f f' : Bool → Exec α} {token token' : Token} (hf : Twins U role (f false) (f' false)) :
    Twins U role (ask (.isCancelled token) >>= f) (ask (.isCancelled token') >>= f') := by
  refine ask_bind hU rfl nofun ⟨false, rfl⟩ ⟨false, rfl⟩ ?_
  rintro _ _ rfl rfl
  exact hf

theorem note {f f' : Unit → Exec α} {run run' : Nat} {entry : Entry}
    (unhandled : ∀ f, entry ≠ .handled f) (hf : Twins U role (f ()) (f' ())) :
    Twins U role (ask (.note run entry) >>= f) (ask (.note run' entry) >>= f') :=
  ask_bind hU rfl (fun f hm => unhandled f (List.mem_singleton.mp hm).symm) ⟨(), trivial⟩ ⟨(), trivial⟩
    fun _ _ _ _ => hf

theorem send {request : Request} (h : request.Reads) (id : String) :
    Twins U role (send ctx id request) (send ctx' id request) := by
  refine look hU (ask_bind hU rfl nofun ⟨_, h, rfl⟩ ⟨_, h, rfl⟩ ?_)
  rintro _ _ ⟨-, rfl⟩ ⟨-, rfl⟩
  exact value _

theorem afterAttempt {again again' : Option (Exec (Nat × Except Failure α))}
    (h : Option.Rel (Twins U role) again again') (id : String) (policy : Option RetryPolicy)
    (number : Nat) (r : Except Failure α) :
    Twins U role (afterAttempt ctx id policy number again r)
      (afterAttempt ctx' id policy number again' r) := by
  unfold Execution.afterAttempt
  cases r with
  | ok a => exact value _
  | error f =>
      dsimp only
      cases Retry.decide policy number (f.atStep id) with
      | giveUp f => exact value _
      | retryAfter delay =>
          cases h with
          | none => exact value _
          | some hagain =>
              refine ask_bind hU rfl nofun ⟨true, rfl⟩ ⟨true, rfl⟩ ?_
              rintro _ _ rfl rfl
              exact hagain

theorem attempts {attempt attempt' : Exec α} (h : Twins U role attempt attempt') (id : String)
    (policy : Option RetryPolicy) (further number : Nat) :
    Twins U role (attempts ctx id policy attempt further number)
      (attempts ctx' id policy attempt' further number) := by
  induction further generalizing number with
  | zero => exact bind h.outcome fun r => afterAttempt hU .none id policy number r
  | succ further ih => exact bind h.outcome fun r => afterAttempt hU (.some (ih _)) id policy number r

theorem node {attempt attempt' : Exec Reached} (h : Twins U role attempt attempt') (id kind : String)
    (retry : Option RetryPolicy) :
    Twins U role (node ctx id kind retry attempt) (node ctx' id kind retry attempt') := by
  refine look hU (ask_bind hU rfl nofun ⟨.ok (), trivial⟩ ⟨.ok (), trivial⟩ fun _ _ _ _ => ?_)
  refine bind (attempts hU h id retry _ _) fun p => note hU nofun ?_
  refine ask_bind hU rfl nofun ⟨.ok (), trivial⟩ ⟨.ok (), trivial⟩ fun _ _ _ _ => ?_
  cases p.2 with
  | ok reached => exact bind (alter _) fun _ => value _
  | error f => exact fails f

theorem fanOut {plan : Scope → Except Control.Fault (List Part)} (id : String)
    (h : ∀ scope parts, plan scope = .ok parts → ∀ p ∈ parts, ∀ group group', Twins U .branch
      (runSequence p.body { ctx with token := group } .null)
      (runSequence p.body { ctx' with token := group' } .null)) :
    Twins U role (fanOut ctx id .waitAll (branchesOf plan))
      (fanOut ctx' id .waitAll (branchesOf plan)) := by
  refine ask_bind hU rfl nofun ⟨ctx.token, trivial⟩ ⟨ctx'.token, trivial⟩ fun group group' _ _ s => ?_
  rw [on_bind, on_bind, on_decided, on_decided, Program.bind_pure_left,
    Program.bind_pure_left]
  unfold branchesOf
  cases hs : plan s with
  | error fault => exact .pure rfl
  | ok parts =>
      refine join (by simp) (fun i b b' hb hb' => ?_) (fun outcomes => ?_) s
      · rw [List.getElem?_map] at hb hb'
        obtain ⟨p, hp, rfl⟩ := Option.map_eq_some_iff.mp hb
        rw [hp] at hb'
        cases hb'
        exact branch (h s parts hs p (List.mem_of_getElem? hp) group group') p.collect
      · exact bind (ofResult _) fun _ => look hU (value _)

theorem boundary {handler handler' : Exec Json} (h : Twins U role handler handler') (name : String)
    (f : Failure) : Twins U role (boundary ctx name handler f) (boundary ctx' name handler' f) := by
  unfold Execution.boundary
  split
  · exact note hU nofun (bind (h.inFrame _).outcome fun _ => ofResult _)
  · exact fails f

end

end Twins

end Exec

/-! ## Steps -/

/-- In scopes without a deadline for attempts, steps that wait for all that they start are twins if the
bodies of their branches are, and their transactions. -/
theorem Step.coherent_twins {reply : Request → Outcome} {U : Role → Answers} (hU : Regular reply U)
    (role : Role) {Fits : Step → Prop} (patient : ∀ {s : Step}, Fits s → s.Patient)
    (branches : ∀ {s : Step} {policy : JoinPolicy} {body : List Step}, Fits s →
      s.action.policy? = some policy →
      (∀ n ∈ Step.sequenceNodes body, n ∈ Step.actionNodes s.action ∧ Fits n) →
      (∀ ctx ctx' : Context, ctx.stepLimit = none → ctx'.stepLimit = none →
        Twins U role (runSequence body ctx .null) (runSequence body ctx' .null)) →
      ∀ ctx ctx' : Context, ctx.stepLimit = none → ctx'.stepLimit = none →
        Twins U .branch (runSequence body ctx .null) (runSequence body ctx' .null))
    (transaction : ∀ {s : Step} {ctx ctx' : Context} {body : List Step} {onError : Option (List Step)},
      Fits s → s.action = .transaction body onError →
      Twins U role (runSequence body ctx .null) (runSequence body ctx' .null) →
      Option.Rel (Twins U role) (optionProgram onError ctx) (optionProgram onError ctx') →
      Twins U role (transaction ctx s.id (runSequence body ctx .null) (optionProgram onError ctx))
        (transaction ctx' s.id (runSequence body ctx' .null) (optionProgram onError ctx'))) :
    Coherent Fits Fits (fun _ => True) fun _ ctx ctx' _ x x' =>
      ctx.stepLimit = none → ctx'.stepLimit = none → Twins U role x x' where
  acts ht := ht
  value a _ _ := .ofResult (.ok a)
  fails _ _ _ := .ofResult (.error _)
  alter _ _ _ := .alter _
  bind hx hf h h' := .bind (hx h h') fun a => hf a h h'
  decide hd hf h h' := .decide hd fun scope a a' ha hQ => hf scope a a' ha hQ h h'
  inFrame _ hb h h' := (hb h h').inFrame _
  send fits hasks hf h h' :=
    .bind (.send hU (hasks.reads (patient fits).2) _) fun outcome => hf outcome trivial h h'
  node _ ha h h' := .node hU (ha h h') _ _ _
  inside hb := hb
  deadline {s ctx ctx' attempt} fits ha h h' := by
    have hlimit {ctx : Context} (h : ctx.stepLimit = none) : s.limit ctx = none := by
      simp [Step.limit, (patient fits).1, h]
    rw [hlimit h, hlimit h']
    exact ha ctx ctx' h h'
  fanOut {s ctx ctx' policy plan} fits hpolicy hnodes hbodies h h' := by
    obtain rfl : policy = .waitAll := (patient fits).2.policy hpolicy
    exact .fanOut hU s.id fun scope parts hparts p hp group group' =>
      branches fits hpolicy (hnodes scope parts hparts p hp) (hbodies scope parts hparts p hp) _ _ h h'
  transaction {s ctx ctx' body onError} fits hs hb ho h h' := by
    refine transaction fits hs (hb h h') ?_
    generalize optionProgram onError ctx = o, optionProgram onError ctx' = o' at ho ⊢
    cases ho with
    | none => exact .none
    | some hx => exact .some (hx h h')

namespace Step.Timeless

variable {reply : Request → Outcome} {U : Role → Answers} (hU : Regular reply U) {ctx ctx' : Context}
include hU

theorem coherent_branch : Coherent Step.Timeless Step.Timeless (fun _ => True) fun _ ctx ctx' _ x x' =>
    ctx.stepLimit = none → ctx'.stepLimit = none → Twins U .branch x x' :=
  Step.coherent_twins hU .branch patient (fun _ _ _ h => h) fun ht hs => (ht.not_transaction hs).elim

/-- In scopes without a deadline for attempts, timeless steps are twins. -/
theorem twins {steps : List Step} (h : ∀ n ∈ Step.sequenceNodes steps, n.Timeless) (role : Role)
    (hctx : ctx.stepLimit = none) (hctx' : ctx'.stepLimit = none) :
    Twins U role (runSequence steps ctx .null) (runSequence steps ctx' .null) := by
  cases role with
  | branch => exact (coherent_branch hU).sequence steps h ctx ctx' .null hctx hctx'
  | owner =>
      refine (Step.coherent_twins hU .owner patient (fun _ _ hnodes _ ctx ctx' => ?_) fun ht hs =>
        (ht.not_transaction hs).elim).sequence steps h ctx ctx' .null hctx hctx'
      exact (coherent_branch hU).sequence _ (fun n hn => (hnodes n hn).2) ctx ctx' .null

end Step.Timeless

/-! ## Runs -/

namespace Journal

@[simp] theorem finish_handled (j : Journal) (ending : Ending) :
    (j.finish ending).handled = j.handled := by
  unfold finish
  split <;> rfl

@[simp] theorem finish_records (j : Journal) (ending : Ending) :
    (j.finish ending).records = j.records := by
  unfold finish
  split <;> rfl

theorem finalStatus_congr {j j' : Journal} (h : j.handled.isEmpty = j'.handled.isEmpty)
    (ending : Ending) : j.finalStatus ending = j'.finalStatus ending := by
  cases ending with
  | completed => rw [finalStatus, finalStatus, h]
  | _ => rfl

end Journal

/-- Two results with the same outputs and the same error. They also have the same status if both
runs handled a failure or neither did. -/
structure RunResult.Agrees (r r' : RunResult) : Prop where
  outputs : r.outputs = r'.outputs
  error : r.error = r'.error
  status : r.handledErrors.isEmpty = r'.handledErrors.isEmpty → r.status = r'.status

/-- The steps of a flow and of its handler do the same in any two scopes without a deadline for
attempts. -/
def Flow.Alike (U : Role → Answers) (flow : Flow) : Prop :=
  ∀ {steps : List Step} {ctx ctx' : Context}, (∀ n ∈ Step.sequenceNodes steps, n ∈ flow.nodes) →
    ctx.stepLimit = none → ctx'.stepLimit = none →
      Exec.Twins U .owner (runSequence steps ctx .null) (runSequence steps ctx' .null)

theorem Flow.Timeless.alike {reply : Request → Outcome} {U : Role → Answers} (hU : Regular reply U)
    {flow : Flow} (h : flow.Timeless) : flow.Alike U :=
  fun hnodes hctx hctx' => Step.Timeless.twins hU (fun n hn => h n (hnodes n hn)) .owner hctx hctx'

namespace Execution

variable {reply : Request → Outcome} {U : Role → Answers} (hU : Regular reply U)
  {config config' : Config} {flow : Flow} {ctx ctx' : Context}
include hU

theorem closeRun_twin (run run' : Nat) (ending : Ending) (outputs : List (String × Json)) :
    Program.Twin U .owner RunResult.Agrees (Program.ask (.closeRun run ending outputs))
      (Program.ask (.closeRun run' ending outputs)) := by
  have hanswer (run : Nat) : ∃ r, (Effect.closeRun run ending outputs).Undisturbed reply r := by
    refine ⟨_, .start "", rfl, ?_⟩
    cases ending <;> rfl
  obtain ⟨b, hb⟩ := hanswer run
  obtain ⟨b', hb'⟩ := hanswer run'
  refine .deed rfl ⟨b, hU.expected hb nofun⟩ ⟨b', hU.expected hb' nofun⟩ fun a a' ha ha' => ?_
  obtain ⟨j, rfl, hstatus⟩ := hU.undisturbed hb ha
  obtain ⟨j', rfl, hstatus'⟩ := hU.undisturbed hb' ha'
  refine .pure ⟨rfl, rfl, fun hhandled => ?_⟩
  simp only [Journal.result, Journal.finish_handled] at hhandled
  exact hstatus.trans ((Journal.finalStatus_congr hhandled ending).trans hstatus'.symm)

section

variable (hflow : flow.Alike U) (hctx : ctx.stepLimit = none) (hctx' : ctx'.stepLimit = none)
include hflow hctx hctx'

theorem endAfter_twin (limit : Option UInt64) (timedOut : Bool) (f : Failure) (s : Scope) :
    Program.Twin U .owner Eq (endAfter flow ctx limit timedOut f s)
      (endAfter flow ctx' limit timedOut f s) := by
  rw [endAfter_eq, endAfter_eq]
  have hlook (token : Token) : (Effect.isCancelled token).Undisturbed reply false := rfl
  refine .deed rfl ⟨false, hU.expected (hlook _) nofun⟩ ⟨false, hU.expected (hlook _) nofun⟩
    fun a a' ha ha' => ?_
  obtain rfl : a = false := hU.undisturbed (hlook _) ha
  obtain rfl : a' = false := hU.undisturbed (hlook _) ha'
  split
  · exact .pure rfl
  · rw [handleFailure_eq, handleFailure_eq]
    cases hhandler : flow.onError with
    | none => exact .pure rfl
    | some handler =>
        have hnodes : ∀ n ∈ Step.sequenceNodes handler, n ∈ flow.nodes := fun n hn =>
          List.mem_append_right _ (by rwa [hhandler])
        have hhandled := hflow hnodes hctx hctx'
        refine (hhandled.boundary hU flow.name f s).bind ?_
        rintro ⟨r, s'⟩ _ rfl
        cases r with
        | ok handled =>
            exact .deed rfl ⟨(), hU.expected trivial nofun⟩ ⟨(), hU.expected trivial nofun⟩
              fun _ _ _ _ => .pure rfl
        | error escaped => exact .pure rfl

/-- Runs without a deadline come to the same end. -/
theorem steps_twin (hconfig : config.runTimeout = none) (hconfig' : config'.runTimeout = none)
    (s : Scope) : Program.Twin U .owner RunResult.Agrees
      (((runSequence flow.steps ctx .null).on s).bind (conclude config flow ctx none))
      (((runSequence flow.steps ctx' .null).on s).bind (conclude config' flow ctx' none)) := by
  have hnodes : ∀ n ∈ Step.sequenceNodes flow.steps, n ∈ flow.nodes := fun n hn =>
    List.mem_append_left _ hn
  refine (hflow hnodes hctx hctx' s).bind ?_
  rintro ⟨r, s'⟩ _ rfl
  rw [conclude_eq, conclude_eq, hconfig, hconfig']
  have hsettled : Program.Twin U .owner Eq (settleAll ctx) (settleAll ctx') :=
    .deed rfl ⟨.ok 0, hU.expected trivial nofun⟩ ⟨.ok 0, hU.expected trivial nofun⟩
      fun _ _ _ _ => .pure rfl
  have hstopped : Program.Twin U .owner Eq (stopRunDeadline none) (stopRunDeadline none) := .pure rfl
  refine hsettled.bind fun _ _ _ => hstopped.bind ?_
  rintro timedOut _ rfl
  refine Program.Twin.bind (Q := Eq) ?_ ?_
  · cases r with
    | ok value => exact .pure rfl
    | error f => exact endAfter_twin hU hflow hctx hctx' none timedOut f s'
  · rintro ended _ rfl
    exact hsettled.bind fun _ _ _ => closeRun_twin hU _ _ _ _

end

/-- Runs without deadlines that have just been opened come to the same end. -/
theorem afterOpening_twin (hflow : flow.Alike U) (hrun : config.runTimeout = none)
    (hrun' : config'.runTimeout = none) (hstep : config.stepTimeout = none)
    (hstep' : config'.stepTimeout = none) (inputs : List (String × Json))
    (opened opened' : Nat × Token) : Program.Twin U .owner RunResult.Agrees
      (afterOpening config flow inputs opened) (afterOpening config' flow inputs opened') := by
  unfold afterOpening
  rw [hrun, hrun']
  have hctx : Context.stepLimit ⟨opened.1, opened.2, config.stepTimeout⟩ = none := hstep
  have hctx' : Context.stepLimit ⟨opened'.1, opened'.2, config'.stepTimeout⟩ = none := hstep'
  exact steps_twin hU hflow hctx hctx' hrun hrun' (Scope.ofBindings inputs)

end Execution
end FlowEngine
