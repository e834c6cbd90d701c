import FlowEngine.Proofs.Execution.Effectwise
import FlowEngine.Proofs.Execution.Flow
import FlowEngine.Proofs.Machine.Signals
import FlowEngine.Proofs.Session.Log
import FlowEngine.Proofs.Session.Turns

/-!
# Deadlines are taken back

Who starts a deadline owes that it is stopped. Every task has paid by the time that it ends.
-/
namespace FlowEngine

open Exec Execution

def Effect.Owes (e : Effect) (a : e.Answer) (owed : Nat → Prop) (d : Nat) : Prop :=
  owed d ∧ e ≠ .stopDeadline d ∨ e.Starts a d

theorem Effect.Owes.mono {e : Effect} {a : e.Answer} {owed more : Nat → Prop} {d : Nat}
    (h : e.Owes a owed d) (hmore : ∀ d, owed d → more d) : e.Owes a more d :=
  h.imp_left fun hd => ⟨hmore d hd.1, hd.2⟩

namespace Program

variable {α β : Type}

/-- Whatever the answers are, a program that owes some deadlines at its beginning owes only the
others at its end. -/
def Repays (left : Nat → Prop) : (Nat → Prop) → Program α → Prop
  | owed, pure _ => ∀ d, owed d → left d
  | owed, perform e next => ∀ a, (next a).Repays left (e.Owes a owed)

theorem Repays.mono {left left' owed owed' : Nat → Prop} {p : Program α} (h : p.Repays left owed)
    (howed : ∀ d, owed' d → owed d) (hleft : ∀ d, left d → left' d) : p.Repays left' owed' := by
  induction p generalizing owed owed' with
  | pure a => exact fun d hd => hleft d (h d (howed d hd))
  | perform e next ih => exact fun a => ih a (h a) fun d hd => hd.mono howed

theorem Repays.bind {left mid owed : Nat → Prop} {p : Program α} {f : α → Program β}
    (hp : p.Repays mid owed) (hf : ∀ a, (f a).Repays left mid) : (p.bind f).Repays left owed := by
  induction p generalizing owed with
  | pure a => exact (hf a).mono hp fun _ => id
  | perform e next ih => exact fun a => ih a (hp a)

/-- An effect that has nothing to do with deadlines leaves what is owed. -/
theorem Repays.perform {left owed : Nat → Prop} {e : Effect} {next : e.Answer → Program α}
    (he : ∀ a d, ¬ e.Starts a d) (hnext : ∀ a, (next a).Repays left owed) :
    (Program.perform e next).Repays left owed :=
  fun a => (hnext a).mono (fun d hd => (hd.resolve_right (he a d)).1) fun _ => id

def owing (deeds : List Deed) (owed : Nat → Prop) : Nat → Prop :=
  deeds.foldl (fun owed x => x.effect.Owes x.answer owed) owed

theorem Repays.follow {left owed : Nat → Prop} {p q : Program α} {deeds : List Deed}
    (hp : p.Repays left owed) (hf : p.Follows deeds q) : q.Repays left (owing deeds owed) := by
  induction hf generalizing owed with
  | start p => exact hp
  | deed tail ih => exact ih (hp _)

end Program

namespace Exec

variable {α β : Type} {left owed : Nat → Prop}

/-- Wherever it starts, a program that owes some deadlines owes only the others at its end. -/
def Repays (left owed : Nat → Prop) (x : Exec α) : Prop := ∀ s, (x.on s).Repays left owed

namespace Repays

theorem ofResult (r : Except Failure α) : (ofResult r).Repays owed owed := by
  intro s
  rw [on_ofResult]
  exact fun _ => id

theorem mono {owed' : Nat → Prop} {x : Exec α} (h : x.Repays left owed)
    (howed : ∀ d, owed' d → owed d) : x.Repays left owed' :=
  fun s => (h s).mono howed fun _ => id

theorem bind {x : Exec α} {f : α → Exec β} (hx : x.Repays owed owed)
    (hf : ∀ a, (f a).Repays owed owed) : (x >>= f).Repays owed owed := by
  intro s
  rw [on_bind]
  refine (hx s).bind fun p => ?_
  obtain ⟨r, s'⟩ := p
  cases r with
  | error f => exact fun _ => id
  | ok a => exact hf a s'

theorem outcome {x : Exec α} (hx : x.Repays left owed) : x.outcome.Repays left owed := by
  intro s
  rw [on_outcome]
  exact (hx s).bind fun _ _ => id

theorem outcome_bind {mid : Nat → Prop} {x : Exec α} {f : Except Failure α → Exec β}
    (hx : x.Repays mid owed) (hf : ∀ r, (f r).Repays left mid) :
    (x.outcome >>= f).Repays left owed := by
  intro s
  rw [on_bind, on_outcome, Program.bind_assoc]
  exact (hx s).bind fun p => hf p.1 p.2

theorem ask_bind {e : Effect} {f : e.Answer → Exec α}
    (hf : ∀ a, (f a).Repays left (e.Owes a owed)) :
    (Exec.ask e >>= f).Repays left owed := by
  intro s
  rw [on_bind]
  exact fun a => hf a s

theorem withDeadline {ctx : Context} {attempt : Context → Exec Reached}
    (ha : ∀ ctx owed, (attempt ctx).Repays owed owed) (id : String) (limit : Millis) :
    (withDeadline ctx id (some limit) attempt).Repays owed owed := by
  refine ask_bind fun token => ask_bind fun (deadline : Nat) => outcome_bind (ha _ _) fun result =>
    ask_bind fun (passed : Bool) => ?_
  have hpaid (d : Nat) (hd : (Effect.stopDeadline deadline).Owes passed
      ((Effect.startDeadline token limit).Owes deadline
        ((Effect.childToken ctx.token).Owes token owed))
      d) : owed d := by
    rcases hd with ⟨⟨⟨hd, -⟩ | hstarts, -⟩ | rfl, hne⟩ | hstarts
    · exact hd
    · exact hstarts.elim
    · exact absurd rfl hne
    · exact hstarts.elim
  cases result with
  | ok a => exact (ofResult (.ok a)).mono hpaid
  | error f =>
      refine ask_bind fun (outer : Bool) => mono ?_ fun d hd =>
        hpaid d (hd.resolve_right fun h => h).1
      split
      · exact ofResult (.error _)
      · exact ofResult (.error _)

theorem effectwise : Effectwise fun _ x => ∀ owed, x.Repays owed owed where
  result r _ := ofResult r
  alter _ _ _ := fun _ => id
  record _ _ _ _ := fun _ => id
  bind hx hf owed := (hx owed).bind fun a => hf a owed
  decide {β γ d f} hf owed := by
    intro s
    rw [on_bind, on_decided, Program.bind_pure_left]
    cases hd : d s with
    | error fault => exact fun _ => id
    | ok a => exact hf s a hd owed s
  inFrame {β enter body} _ hb owed := by
    intro s
    rw [on_inFrame]
    exact (hb owed (enter s)).bind fun _ _ => id
  outcome hx owed := (hx owed).outcome
  ask {e} he owed _ := .perform (fun a d hd => by cases e <;> first | exact he | exact hd)
    fun _ _ => id
  join run policy group bs owed _ := .perform (fun _ _ => id) fun _ _ => id
  deadline id limit ha _ := withDeadline ha id limit

theorem sequence (steps : List Step) (ctx : Context) (last : Json) :
    (runSequence steps ctx last).Repays owed owed :=
  effectwise.compositional.sequence steps ctx last owed

end Repays
end Exec

/-! ## Runs -/

namespace Execution

variable {owed : Nat → Prop}

theorem repays_settleAll (ctx : Context) : (settleAll ctx).Repays owed owed :=
  .perform (fun _ _ => id) fun _ _ => id

theorem repays_endAfter (flow : Flow) (ctx : Context) (limit : Option UInt64) (timedOut : Bool)
    (f : Failure) (s : Scope) : (endAfter flow ctx limit timedOut f s).Repays owed owed := by
  rw [endAfter_eq]
  refine .perform (fun _ _ => id) fun (cancelled : Bool) => ?_
  split
  · exact fun _ => id
  · rw [handleFailure_eq]
    cases flow.onError with
    | none => exact fun _ => id
    | some handler =>
        have hhandler (owed : Nat → Prop) :
            (boundary ctx flow.name (runSequence handler ctx .null) f).Repays owed owed :=
          Repays.effectwise.boundary (fun owed => Repays.sequence handler ctx .null) flow.name
            f owed
        refine (hhandler owed s).bind fun p => ?_
        obtain ⟨r, s'⟩ := p
        cases r with
        | ok handled => exact .perform (fun _ _ => id) fun _ _ => id
        | error escaped => exact fun _ => id

/-- The end of a run takes the deadline of the run back. -/
theorem repays_conclude (config : Config) (flow : Flow) (ctx : Context) (deadline : Option Nat)
    (p : Except Failure Json × Scope) :
    (conclude config flow ctx deadline p).Repays owed fun d => owed d ∨ deadline = some d := by
  obtain ⟨result, s⟩ := p
  have hstopped : (stopRunDeadline deadline).Repays owed fun d => owed d ∨ deadline = some d := by
    cases deadline with
    | none => exact fun d hd => hd.resolve_right nofun
    | some deadline =>
        intro passed d hd
        obtain ⟨hd | hd, hne⟩ := hd.resolve_right id
        · exact hd
        · cases hd
          exact absurd rfl hne
  have hended (timedOut : Bool) : (ended config flow ctx timedOut s result).Repays owed owed := by
    cases result with
    | ok value => exact fun _ => id
    | error f => exact repays_endAfter flow ctx config.runTimeout timedOut f s
  rw [conclude_eq_ended]
  refine (repays_settleAll ctx).bind fun _ => hstopped.bind fun timedOut =>
    (hended timedOut).bind fun _ => ?_
  exact (repays_settleAll ctx).bind fun _ => .perform (fun _ _ => id) fun _ _ => id

theorem repays_run (config : Config) (flow : Flow) (inputs : List (String × Json))
    (parent : Token) : (run config flow inputs parent).Repays owed owed := by
  rw [run_eq]
  refine .perform (fun _ _ => id) fun opened => ?_
  have hrest (deadline : Option Nat) :
      (((runSequence flow.steps ⟨opened.1, opened.2, config.stepTimeout⟩ .null).on
        (Scope.ofBindings inputs)).bind
          (conclude config flow ⟨opened.1, opened.2, config.stepTimeout⟩ deadline)).Repays owed
            fun d => owed d ∨ deadline = some d :=
    (Repays.sequence flow.steps _ .null _).bind fun p => repays_conclude config flow _ deadline p
  cases config.runTimeout with
  | none => exact (hrest none).mono (fun _ => Or.inl) fun _ => id
  | some limit =>
      intro (deadline : Nat)
      refine (hrest (some deadline)).mono (fun d hd => ?_) fun _ => id
      exact hd.imp And.left (congrArg some)

end Execution

theorem Begins.repays {config : Config} {t : TaskId} {p : Program t.Result} {owed : Nat → Prop}
    (h : Begins config t p) : p.Repays owed owed := by
  cases h with
  | errand errand =>
      cases errand with
      | run flow inputs token => exact repays_run config flow inputs token
      | await submission => exact .perform (fun _ _ => id) fun _ _ => id
  | submission number flow inputs token =>
      rw [submitted_eq]
      refine .perform (fun _ _ => id) fun _ =>
        (repays_run config flow inputs token).bind fun _ => ?_
      exact .perform (fun _ _ => id) fun _ _ => id
  | branch number b =>
      cases b with
      | steps ctx scope body collect =>
          refine (Repays.sequence body ctx .null scope).bind fun p => ?_
          obtain ⟨r, s⟩ := p
          cases r <;> cases collect <;> exact fun _ => id
      | timed observed delay result =>
          refine .perform (fun _ _ => id) fun (waited : Bool) => ?_
          cases waited <;> exact fun _ => id

/-! ## Sessions -/

def Occurrence.pays (t : TaskId) (owed : Nat → Prop) : Occurrence → Nat → Prop
  | .poll ⟨task, e, some a, _, _⟩ => if task = t then e.Owes a owed else owed
  | _ => owed

def debts (t : TaskId) (log : List Occurrence) : Nat → Prop :=
  log.foldl (Occurrence.pays t) fun _ => False

theorem debts_append (t : TaskId) (log more : List Occurrence) :
    debts t (log ++ more) = more.foldl (Occurrence.pays t) (debts t log) := by
  simp only [debts, List.foldl_append]

theorem foldl_pays {t : TaskId} {log : List Occurrence} (h : ¬ Restarted t log)
    (owed : Nat → Prop) :
    log.foldl (Occurrence.pays t) owed = Program.owing (deedsOf t log) owed := by
  induction log generalizing owed with
  | nil => rfl
  | cons x rest ih =>
      have hrest : ¬ Restarted t rest := fun hr => h ⟨hr.1, List.mem_cons_of_mem _ hr.2⟩
      rw [List.foldl_cons, ih hrest]
      cases x with
      | errand =>
          have ht : t ≠ .main := fun ht => h ⟨ht, List.mem_cons_self⟩
          simp only [deedsOf, if_neg ht, Occurrence.pays]
      | ended u => rfl
      | poll x =>
          obtain ⟨u, e, a, before, after⟩ := x
          cases a with
          | none => rfl
          | some a =>
              by_cases hu : u = t
              · simp only [deedsOf, if_pos hu, Occurrence.pays]
                rfl
              · simp only [deedsOf, if_neg hu, Occurrence.pays]

theorem debts_of_others {t : TaskId} {log more : List Occurrence}
    (h : ∀ x, .poll x ∈ more → x.task ≠ t) : debts t (log ++ more) = debts t log := by
  rw [debts_append]
  generalize debts t log = owed
  induction more with
  | nil => rfl
  | cons x rest ih =>
      have hx : Occurrence.pays t owed x = owed := by
        cases x with
        | poll x =>
            obtain ⟨u, e, a, before, after⟩ := x
            cases a with
            | none => rfl
            | some a => exact if_neg (h _ List.mem_cons_self)
        | _ => rfl
      rw [List.foldl_cons, hx]
      exact ih fun y hy => h y (List.mem_cons_of_mem x hy)

theorem debts_of_started {t : TaskId} {e : Effect} {a : e.Answer} {m m' : Machine} {d : Nat}
    (hstarts : e.Starts a d) (before : List Occurrence) {after : List Occurrence}
    (h : ∀ passed m m', .poll ⟨t, .stopDeadline d, some passed, m, m'⟩ ∉ after) :
    debts t (before ++ .poll ⟨t, e, some a, m, m'⟩ :: after) d := by
  have hstays (owed : Nat → Prop) (howed : owed d) : after.foldl (Occurrence.pays t) owed d := by
    induction after generalizing owed with
    | nil => exact howed
    | cons x rest ih =>
        refine ih (fun passed m m' hm => h passed m m' (List.mem_cons_of_mem x hm)) _ ?_
        cases x with
        | poll x =>
            obtain ⟨u, e, a, before, after⟩ := x
            cases a with
            | none => exact howed
            | some a =>
                simp only [Occurrence.pays]
                split
                · rename_i hu
                  subst hu
                  refine Or.inl ⟨howed, ?_⟩
                  rintro rfl
                  exact h a before after List.mem_cons_self
                · exact howed
        | _ => exact howed
  rw [debts_append, List.foldl_cons]
  refine hstays _ ?_
  rw [Occurrence.pays, if_pos rfl]
  exact Or.inr hstarts

variable {config : Config} {log : List Occurrence} {s s' : System RunResult}

/-- Every task pays what it owes before it ends, and those that have not begun or have ended owe
nothing. -/
structure System.Solvent (log : List Occurrence) (s : System RunResult) : Prop where
  repays {t : TaskId} {p : Program t.Result} : s.At t p → p.Repays (fun _ => False) (debts t log)
  paid {t : TaskId} : (∀ p, ¬ s.At t p) → ∀ d, ¬ debts t log d

theorem System.Solvent.move {more : List Occurrence} (h : s.Solvent log)
    (move : s.Moves config more s') : s'.Solvent (log ++ more) := by
  have hboth (t : TaskId) : (∀ p, s'.At t p → p.Repays (fun _ => False) (debts t (log ++ more))) ∧
      ((∀ p, ¬ s'.At t p) → ∀ d, ¬ debts t (log ++ more) d) := by
    by_cases hat : ∃ p, s.At t p
    · obtain ⟨p, hat⟩ := hat
      obtain ⟨w, hw⟩ := hat
      rw [← task?_outline] at hw
      have hrestarted := move.advances.not_restarted hw
      rw [debts_append, foldl_pays hrestarted]
      obtain ⟨q, hq, ⟨w', hq'⟩ | ⟨r, k, rfl, hend⟩⟩ := move.advances.follows hw
      · have hrepays := (h.repays ⟨w, (task?_outline t).symm.trans hw⟩).follow hq
        rw [task?_outline] at hq'
        refine ⟨fun p' hp' => ?_, fun hnone => absurd ⟨w', hq'⟩ (hnone q)⟩
        obtain ⟨w'', hw''⟩ := hp'
        cases hq'.symm.trans hw''
        exact hrepays
      · have hrepays := (h.repays ⟨w, (task?_outline t).symm.trans hw⟩).follow hq
        rw [task?_outline] at hend
        refine ⟨fun p' hp' => ?_, fun _ => hrepays⟩
        obtain ⟨w'', hw''⟩ := hp'
        cases hend.symm.trans hw''
    · have hnone : ∀ p, ¬ s.At t p := fun p hp => hat ⟨p, hp⟩
      have hothers (x : Poll) (hx : .poll x ∈ more) : x.task ≠ t := by
        rintro rfl
        obtain rfl := move.advances.eq_singleton_of_mem hx
        obtain ⟨next, w, active⟩ := move.advances.active_of_poll
        exact hnone _ ⟨w, (task?_outline _).symm.trans active⟩
      rw [debts_of_others hothers]
      refine ⟨fun p hp => ?_, fun _ => h.paid hnone⟩
      obtain ⟨w, hw⟩ := hp
      rw [← task?_outline] at hw
      obtain ⟨p', w', hp', -⟩ | hbegins := move.advances.origin hw
      · exact absurd ⟨w', (task?_outline t).symm.trans hp'⟩ (hnone p')
      · exact (Begins.repays hbegins).mono (fun d hd => (h.paid hnone d hd).elim) fun _ => id
  exact ⟨fun {t p} => (hboth t).1 p, fun {t} => (hboth t).2⟩

theorem Session.solvent (h : Session config log s) : s.Solvent log := by
  obtain ⟨s₀, hs₀, hreaches⟩ := h
  induction hreaches with
  | refl =>
      obtain ⟨world, numbered⟩ := hs₀
      refine ⟨fun {t p} ht => ?_, fun _ _ => id⟩
      obtain ⟨w, hw⟩ := ht
      cases t <;> cases hw
  | move before move ih => exact ih.move move

end FlowEngine
