import FlowEngine.Proofs.Execution.Containment
import FlowEngine.Proofs.Run.Attribution
import FlowEngine.Proofs.Run.Order
import FlowEngine.Proofs.Run.Sparing

/-!
# Runs that nobody cancels

A run is cancelled from outside or by its own deadline, and by nothing else. The cancellations that
deadlines of attempts and joins that fail fast cause in it stay in the scopes that they were meant
for: the run does not end as cancelled, none of its own steps does, and a fan-out that completes
gathers no cancellation.
-/
namespace FlowEngine

open Exec Execution

/-! ## Programs of runs -/

namespace Containment

variable {w : Containment} {config : Config} {flow : Flow} {ctx : Context} {cancelled : List Token}

/-- What is allowed stays so when more is cancelled. -/
theorem allows_mono {later : List Token} {e : Effect} (h : w.protocol.allows cancelled e)
    (hmore : cancelled <:+ later) : w.protocol.allows later e := by
  cases e with
  | note run entry =>
      cases entry with
      | record r =>
          intro hrun top hstatus
          exact Token.isCancelled_mono hmore (h hrun top hstatus)
      | _ => trivial
  | closeRun run ending outputs =>
      intro hrun f hf
      exact Token.isCancelled_mono hmore (h hrun f hf)
  | _ => exact h

theorem obeys_mono {α : Type} {Q : List Token → α → Prop} {p : Program α} {later : List Token}
    (h : p.Obeys w.protocol Q cancelled) (hmore : cancelled <:+ later)
    (hQ : ∀ a, Q cancelled a → Q later a) : p.Obeys w.protocol Q later := by
  cases p with
  | pure a => exact hQ a h
  | perform e next =>
      refine ⟨allows_mono h.1 hmore, fun a last moved => h.2 a last ?_⟩
      exact ⟨hmore.trans moved.1, moved.2⟩

/-- A branch fails with a cancellation only when its group is cancelled. -/
theorem branch_obeys {b : Branch} {scope : Scope} {body : List Step} {collect : Option Expr}
    (hb : b = .steps ctx scope body collect) (hrun : ctx.run = w.run)
    (hcovers : w.token.covers ctx.token = true)
    (nested : ∀ n ∈ Step.sequenceNodes body, ¬ w.Top n.id) (cancelled : List Token) :
    b.program.Obeys w.protocol (Grounded ctx.token) cancelled := by
  subst hb
  rw [Branch.program_steps, Program.obeys_bind]
  refine (sequence nested hrun hcovers .null cancelled scope).mono fun later p hp => ?_
  obtain ⟨r, final⟩ := p
  cases r with
  | error f => exact hp
  | ok value =>
      cases collect with
      | none => exact .ok value
      | some e =>
          change Grounded ctx.token later
            ((Control.evaluate e final).mapError fun fault => fault.toError.toFailure)
          cases Control.evaluate e final with
          | ok value => exact .ok value
          | error fault => exact .active fault.bare.active

theorem settleAll_obeys : (settleAll ctx).Obeys w.protocol (fun later _ => cancelled <:+ later)
    cancelled :=
  ⟨trivial, fun _ _ moved => moved.1⟩

/-- An ending says that the run was cancelled only if that is so. -/
def Fair (w : Containment) (cancelled : List Token) (ending : Ending) : Prop :=
  ∀ f, ending = .cancelled f → w.token.isCancelled cancelled = true

/-- Steps with these ids are done nowhere but in the scope of the run itself. -/
def Outer (w : Containment) (steps : List Step) : Prop :=
  ∀ s ∈ steps, ∀ n ∈ Step.actionNodes s.action, ¬ w.Top n.id

section

variable (hsteps : w.Outer flow.steps) (hhandler : ∀ steps ∈ flow.onError, w.Outer steps)
include hhandler

theorem endAfter_obeys (hrun : ctx.run = w.run) (htoken : ctx.token = w.token)
    (limit : Option UInt64) (timedOut : Bool) {f : Failure}
    (hf : Grounded ctx.token cancelled (.error f : Except Failure Json)) (s : Scope) :
    (endAfter flow ctx limit timedOut f s).Obeys w.protocol (fun later p => w.Fair later p.1)
      cancelled := by
  rw [endAfter_eq]
  refine ⟨trivial, fun (stopped : Bool) later ⟨hmore, looked⟩ => ?_⟩
  dsimp only
  split
  · rename_i hcause
    intro _ _
    rw [← htoken]
    rcases Bool.or_eq_true_iff.mp hcause with hkind | hstopped
    · exact Token.isCancelled_mono hmore (hf f rfl hkind)
    · exact looked.symm.trans hstopped
  · rename_i hcalm
    rw [handleFailure_eq]
    cases honError : flow.onError with
    | none => exact nofun
    | some handler =>
        have hconfines : w.Confines ctx.token (runSequence handler ctx .null) :=
          own (hhandler handler honError) hrun htoken .null
        have hboundary := Confines.boundary hconfines flow.name (hf.mono hmore) s
        refine Program.obeys_bind.mpr (hboundary.mono fun last p hp => ?_)
        obtain ⟨r, s'⟩ := p
        cases r with
        | ok handled => exact ⟨trivial, fun _ _ _ => nofun⟩
        | error escaped =>
            intro g hg
            rw [← htoken]
            apply hp escaped rfl
            cases hkind : escaped.isCancellation with
            | true => rfl
            | false =>
                rw [hkind] at hg
                cases hg

include hsteps

/-- A run closes as cancelled only if its token is cancelled. -/
theorem afterOpening_obeys (config : Config) (inputs : List (String × Json)) {opened : Nat × Token}
    (hrun : opened.1 = w.run) (htoken : opened.2 = w.token) (cancelled : List Token) :
    (afterOpening config flow inputs opened).Obeys w.protocol (fun _ _ => True) cancelled := by
  let ctx : Context := ⟨opened.1, opened.2, config.stepTimeout⟩
  have hstart : (startRunDeadline opened.2 config.runTimeout).Obeys w.protocol
      (fun _ _ => True) cancelled := by
    unfold startRunDeadline
    split
    · trivial
    · exact ⟨trivial, fun _ _ _ => trivial⟩
  refine Program.obeys_bind.mpr (hstart.mono fun begun deadline _ => ?_)
  have hbody : w.Confines ctx.token (runSequence flow.steps ctx .null) :=
    own hsteps hrun htoken .null
  refine Program.obeys_bind.mpr ((hbody begun _).mono fun reached p hp => ?_)
  obtain ⟨r, s⟩ := p
  rw [conclude_eq_ended]
  refine Program.obeys_bind.mpr (settleAll_obeys.mono fun settled _ hsettled => ?_)
  have hstop : (stopRunDeadline deadline).Obeys w.protocol (fun later _ => settled <:+ later)
      settled := by
    unfold stopRunDeadline
    split
    · exact List.suffix_rfl
    · exact ⟨trivial, fun _ _ moved => moved.1⟩
  refine Program.obeys_bind.mpr (hstop.mono fun stopped timedOut hstopped => ?_)
  have hended : (ended config flow ctx timedOut s r).Obeys w.protocol
      (fun later p => w.Fair later p.1) stopped := by
    cases r with
    | ok value => exact nofun
    | error f =>
        have hf := (Grounded.mono hp hsettled).mono hstopped
        exact endAfter_obeys hhandler hrun htoken config.runTimeout timedOut hf s
  refine Program.obeys_bind.mpr (hended.mono fun later ending hfair => ?_)
  refine Program.obeys_bind.mpr (settleAll_obeys.mono fun last _ hlast => ?_)
  exact ⟨fun _ f hf => Token.isCancelled_mono hlast (hfair f hf), fun _ _ _ => trivial⟩

end
end Containment

/-! ## Answers -/

namespace Machine

variable {m : Machine} {me : TaskId} {run : Nat} {token : Token} {request : Request} {wait : Wait}
  {moment : Interruption}

theorem startRequest_accepts :
    (m.startRequest me run token request).turn ≠ .answered (.error moment) := by
  have hbegins := m.startRequest_begins me run token request
  generalize m.startRequest me run token request = polled at hbegins ⊢
  cases hbegins <;> nofun

/-- A request of a run that was opened is given up only under a token that is cancelled. -/
theorem cancelled_of_refused (h : (m.pollRequest me run token request wait).turn =
    .answered (.error moment)) (hrun : m.runs[run]? ≠ none) : m.isCancelled token = true := by
  have hpoll := m.pollRequest_requests me run token request wait
  generalize m.pollRequest me run token request wait = polled at hpoll h
  cases hpoll with
  | refused first why => exact Bool.of_not_eq_false fun hcalm => hrun (why hcalm)
  | leaves cancelled => exact cancelled
  | abandoned awaited cancelled => exact cancelled
  | starts => exact absurd h startRequest_accepts
  | queues | queued | waits | replied | performed | unsuited => cases h

end Machine

theorem BranchOutcome.failure_ofExcept {r : Except Failure Json} {f : Failure}
    (h : f ∈ (BranchOutcome.ofExcept r).failure?) : r = .error f := by
  cases r with
  | ok value => cases h
  | error g =>
      unfold ofExcept at h
      dsimp only at h
      split at h <;>
        · cases h
          rfl

variable {config : Config} {flow : Flow} {log more : List Occurrence} {s s' : System RunResult}

theorem System.Moves.turn_of_answer {t : TaskId} {e : Effect} {a : e.Answer} {m m' : Machine}
    (move : s.Moves config [.poll ⟨t, e, some a, m, m'⟩] s') :
    ∃ wait, (s.machine.poll t wait e).turn = .answered a := by
  obtain ⟨-, next, wait, -, hanswer⟩ := move.polled
  exact ⟨wait, Turn.eq_answered hanswer⟩

theorem Session.opened_of_poll {x : Poll} {run : Nat} (h : Session config log s)
    (move : s.Moves config [.poll x] s') (hrun : x.effect.run? = some run) :
    s.machine.runs[run]? ≠ none := by
  obtain ⟨place, hhoused⟩ := Residence.housed_of_session h
  obtain ⟨next, w, active⟩ := move.advances.active_of_poll
  obtain ⟨home, hhome, rfl⟩ := Residence.home_of_allows (hhoused.obedient.active active).1 hrun
  have hlt := hhoused.holds.opened hhome
  intro hnone
  have hsize := Array.getElem?_eq_none_iff.mp hnone
  have hlength : s.outline.runs.length = s.machine.runs.size := by
    simp [System.outline, Machine.outline]
  omega

namespace Containment

variable {w : Containment}

/-- What is relied on in a part of a log: which deadlines were started for which tokens, that a
deadline which was stopped in time did not cancel its token, and that replies to the requests of the
run report no cancellation. -/
structure Heeds (w : Containment) (log : List Occurrence) (cancelled : List Token) : Prop where
  started {d : Nat} {token : Token} : Deadline log d token → w.Started d token
  stopped {d : Nat} {token : Token} : Stopped log d → w.Started d token →
    w.token.covers token = true → token ∉ cancelled
  replies {token : Token} {request : Request} {outcome : Outcome} :
    Answered log (.request w.run token request) (.ok outcome) → outcome.Active

theorem Heeds.part {cancelled cancelled' : List Token} (h : w.Heeds log cancelled)
    (hlog : more ⊆ log) (hcancelled : cancelled' ⊆ cancelled) : w.Heeds more cancelled' := by
  have answered {e : Effect} {a : e.Answer} (ha : Answered more e a) : Answered log e a := by
    obtain ⟨t, m, m', hm⟩ := ha
    exact ⟨t, m, m', hlog hm⟩
  refine ⟨?_, fun hstopped hstarted hcovers hmem => ?_, fun hreply => h.replies (answered hreply)⟩
  · rintro d token ⟨limit, hd⟩
    exact h.started ⟨limit, answered hd⟩
  · exact h.stopped (answered hstopped) hstarted hcovers (hcancelled hmem)

/-- A join of the run gives back cancellations only when the scope around its own was cancelled. -/
theorem admits_of_join {t : TaskId} {policy : JoinPolicy} {group : Token} {bs : List Branch}
    {a : Except Failure (List BranchOutcome)} {m m' : Machine}
    {next : Except Failure (List BranchOutcome) → Program t.Result} {wait : Wait}
    (h : Session.Spares config w.token log s)
    (move : s.Moves config [.poll ⟨t, .join w.run policy group bs, some a, m, m'⟩] s')
    (hactive : s.task? t = some (.active (.perform (.join w.run policy group bs) next) wait))
    (hmore : s.machine.cancelled <:+ m'.cancelled)
    (hended : ∀ group n r order, Forked log w.run group n →
      s.task? (.branch n) = some (.ended r order) → Grounded group s.machine.cancelled r) :
    w.Admits m'.cancelled (.join w.run policy group bs) a := by
  rintro - above number rfl hcovers
  have hgroup : above.child number ∉ s.machine.cancelled :=
    h.not_cancelled_of_join hactive (Token.covers_child _ _ _ hcovers)
  have hcontained {n order : Nat} {r : Except Failure Json}
      (hforked : Forked log w.run (above.child number) n)
      (hstate : s.task? (.branch n) = some (.ended r order)) : Grounded above m'.cancelled r := by
    intro f hf hkind
    apply Token.isCancelled_mono hmore
    exact Token.isCancelled_of_child (hended _ n r order hforked hstate f hf hkind) hgroup
  rcases h.session.outcome_of_join move with
    ⟨f, n, order, rfl, hforked, hstate⟩ | ⟨outcomes, rfl, hall⟩
  · exact ⟨(hcontained hforked hstate).of_error, nofun⟩
  · refine ⟨.ok _, ?_⟩
    rintro _ ⟨⟩ outcome hmem f hf hkind
    obtain ⟨r, n, order, rfl, hforked, hstate⟩ := hall outcome hmem
    exact hcontained hforked hstate f (BranchOutcome.failure_ofExcept hf) hkind

theorem admits_of_answer {t : TaskId} {e : Effect} {a : e.Answer} {m m' : Machine}
    (h : Session.Spares config w.token log s)
    (move : s.Moves config [.poll ⟨t, e, some a, m, m'⟩] s')
    (hheeds : w.Heeds [.poll ⟨t, e, some a, m, m'⟩] m'.cancelled)
    (hended : ∀ group n r order, Forked log w.run group n →
      s.task? (.branch n) = some (.ended r order) → Grounded group s.machine.cancelled r) :
    w.Admits m'.cancelled e a := by
  have answered : Answered [.poll ⟨t, e, some a, m, m'⟩] e a :=
    ⟨t, m, m', List.mem_singleton_self _⟩
  obtain ⟨-, next, wait, hactive, hpolls⟩ := move.polls_of_answer
  have hmore : s.machine.cancelled <:+ m'.cancelled := hpolls.cancelled_suffix
  cases e with
  | isCancelled token =>
      obtain ⟨hturn, hsame⟩ := hpolls
      cases hturn
      have hcancelled : m'.cancelled = s.machine.cancelled := congrArg Outline.cancelled hsame
      change token.isCancelled s.machine.cancelled = token.isCancelled m'.cancelled
      rw [hcancelled]
  | childToken token =>
      obtain ⟨⟨n, hturn⟩, -⟩ := hpolls
      cases hturn
      exact ⟨n, rfl⟩
  | startDeadline token limit => exact hheeds.started ⟨limit, answered⟩
  | stopDeadline d =>
      rintro rfl token hstarted hcovers
      exact hheeds.stopped answered hstarted hcovers
  | request run token request =>
      rintro rfl
      refine ⟨?_, ?_⟩
      · rintro moment rfl
        obtain ⟨wait, hturn⟩ := move.turn_of_answer
        have hopened := h.session.opened_of_poll move rfl
        exact Token.isCancelled_mono hmore (Machine.cancelled_of_refused hturn hopened)
      · rintro outcome rfl
        exact hheeds.replies answered
  | sleep token span =>
      intro t ht hwaited
      cases ht
      obtain ⟨-, hturn | ⟨⟨_, hturn⟩, -⟩⟩ := hpolls
      · cases hturn
        have hanswer : (!t.isCancelled s.machine.cancelled) = false := hwaited
        apply Token.isCancelled_mono hmore
        simpa using hanswer
      · cases hturn
  | join run policy group bs =>
      rintro rfl
      exact admits_of_join h move hactive hmore hended rfl
  | beginTransaction ctx =>
      rintro e rfl
      exact hpolls.bare_of_begin
  | releaseTransaction run handle =>
      rintro e rfl
      exact hpolls.bare_of_release
  | discardSnapshot handle =>
      rintro e rfl
      exact ScriptedStore.bare_of_discard (Outline.Stores.error_eq hpolls)
  | restoreSnapshot handle =>
      rintro e rfl
      exact ScriptedStore.bare_of_restore (Outline.Stores.error_eq hpolls)
  | _ => trivial

/-! ## Sessions -/

/-- What a branch is at keeps its cancellations to the scope that they came from. -/
def Keeps (w : Containment) (group : Token) (cancelled : List Token) :
    TaskState (Except Failure Json) → Prop
  | .active p _ => p.Obeys w.protocol (Grounded group) cancelled
  | .ended r _ => Grounded group cancelled r

structure Upheld (w : Containment) (log : List Occurrence) (s : System RunResult) : Prop where
  admitted {t : TaskId} {e : Effect} {a : e.Answer} {m m' : Machine} :
    .poll ⟨t, e, some a, m, m'⟩ ∈ log → w.Admits m'.cancelled e a
  branch {group : Token} {n : Nat} {state : TaskState (Except Failure Json)} :
    Forked log w.run group n → s.task? (.branch n) = some state →
      w.Keeps group s.machine.cancelled state

/-- A move in which a task does a deed leaves cancelled what was so after the poll. -/
theorem deeds_of_move (move : s.Moves config more s') (t : TaskId) : deedsOf t more = [] ∨
    ∃ e a m m', more = [.poll ⟨t, e, some a, m, m'⟩] ∧ m'.cancelled = s'.machine.cancelled := by
  rcases move.polled_or_unpolled with ⟨u, e, next, w, polls, rfl⟩ | unpolled
  · have halerts := Machine.alerts_of_shared polls.shared
    cases (s.machine.poll u w e).turn.answer? with
    | none => exact Or.inl rfl
    | some a =>
        by_cases hu : u = t
        · subst hu
          exact Or.inr ⟨e, a, _, _, rfl, congrArg (fun x => x.2.1) halerts.symm⟩
        · simp only [deedsOf, if_neg hu, true_or]
  · left
    rcases move.short with rfl | ⟨x, rfl⟩
    · rfl
    · cases x with
      | errand => simp only [deedsOf, ite_self]
      | ended u => rfl
      | poll x => exact absurd (List.mem_singleton_self _) (unpolled.quiet x)

/-- The deeds of a task lead on through the protocol, and no further than to what is cancelled. -/
theorem path_of_reaches (hr : s.Reaches config log s')
    (hadmitted : ∀ {t e a m m'}, .poll ⟨t, e, some a, m, m'⟩ ∈ log → w.Admits m'.cancelled e a)
    (t : TaskId) {cancelled : List Token} (hfrom : cancelled <:+ s.machine.cancelled) :
    ∃ later, w.protocol.Path cancelled (deedsOf t log) later ∧ later <:+ s'.machine.cancelled := by
  induction hr with
  | refl => exact ⟨cancelled, .start cancelled, hfrom⟩
  | @move before more u v hbefore move ih =>
      obtain ⟨later, hpath, hlater⟩ := ih fun hm => hadmitted (List.mem_append_left more hm)
      have hgrown : u.machine.cancelled <:+ v.machine.cancelled := move.advances.cancelled
      by_cases hrestarted : Restarted t before
      · rw [deedsOf_append_of_restarted hrestarted]
        exact ⟨later, hpath, hlater.trans hgrown⟩
      · rw [deedsOf_append hrestarted]
        rcases deeds_of_move move t with hnone | ⟨e, a, m, m', rfl, hcancelled⟩
        · rw [hnone, List.append_nil]
          exact ⟨later, hpath, hlater.trans hgrown⟩
        · have hadmits : w.Admits v.machine.cancelled e a :=
            hcancelled ▸ hadmitted (List.mem_append_right before (List.mem_singleton_self _))
          have hdeed : deedsOf t [.poll ⟨t, e, some a, m, m'⟩] = [⟨e, a⟩] := by simp [deedsOf]
          rw [hdeed]
          refine ⟨v.machine.cancelled, hpath.append (.deed ?_ (.start _)), List.suffix_rfl⟩
          exact ⟨hlater.trans hgrown, hadmits⟩

theorem suffix_of_path {later : List Token} {deeds : List Deed}
    (h : w.protocol.Path cancelled deeds later) : cancelled <:+ later := by
  induction h with
  | start => exact List.suffix_rfl
  | deed move tail ih => exact move.1.trans ih

theorem Keeps.move {group : Token} {n : Nat} {state state' : TaskState (Except Failure Json)}
    (h : w.Keeps group s.machine.cancelled state) (move : s.Moves config more s')
    (hs : s.task? (.branch n) = some state) (hs' : s'.task? (.branch n) = some state')
    (hadmitted : ∀ {t e a m m'}, .poll ⟨t, e, some a, m, m'⟩ ∈ more → w.Admits m'.cancelled e a) :
    w.Keeps group s'.machine.cancelled state' := by
  have hgrown : s.machine.cancelled <:+ s'.machine.cancelled := move.advances.cancelled
  rw [← System.task?_outline] at hs hs'
  cases state with
  | ended r order =>
      obtain ⟨-, hstill | hr⟩ := move.advances.ended hs
      · cases hstill.symm.trans hs'
        exact Grounded.mono h hgrown
      · exact absurd hr (System.not_restarted_branch n more)
  | active p wait =>
      replace h : p.Obeys w.protocol (Grounded group) s.machine.cancelled := h
      obtain ⟨later, hpath, hlater⟩ :=
        path_of_reaches (.single move) hadmitted (.branch n) List.suffix_rfl
      obtain ⟨q, hq, ⟨wait', hnow⟩ | ⟨r, k, rfl, hnow⟩⟩ := move.advances.follows hs
      · cases hnow.symm.trans hs'
        exact obeys_mono (h.follow hq hpath) hlater fun r hr => hr.mono hlater
      · cases hnow.symm.trans hs'
        have hr : Grounded group later r := h.follow hq hpath
        exact hr.mono hlater

theorem Upheld.move (hu : w.Upheld log s) (h : Session.Spares config w.token log s)
    (move : s.Moves config more s') (hheeds : w.Heeds more s'.machine.cancelled)
    (hallows : ∀ {t policy group bs m m'},
      more = [.poll ⟨t, .join w.run policy group bs, none, m, m'⟩] →
        w.protocol.allows s.machine.cancelled (.join w.run policy group bs)) :
    w.Upheld (log ++ more) s' := by
  have hadmitted {t : TaskId} {e : Effect} {a : e.Answer} {m m' : Machine}
      (hm : .poll ⟨t, e, some a, m, m'⟩ ∈ more) : w.Admits m'.cancelled e a := by
    obtain rfl := move.advances.eq_singleton_of_mem hm
    refine admits_of_answer h move ?_ fun group n r order hforked hended => hu.branch hforked hended
    rcases deeds_of_move move t with hnone | ⟨e', a', m₁, m₁', hlog, hcancelled⟩
    · simp [deedsOf] at hnone
    · cases hlog
      exact hcancelled ▸ hheeds
  refine ⟨fun hm => ?_, fun {group n state} hforked hs' => ?_⟩
  · exact (List.mem_append.mp hm).elim hu.admitted hadmitted
  · obtain ⟨t, policy, bs, m, m', hm, hge, hlt⟩ := hforked
    rcases List.mem_append.mp hm with hold | hnew
    · have hbefore : Forked log w.run group n := ⟨t, policy, bs, m, m', hold, hge, hlt⟩
      obtain ⟨state₀, hs⟩ := h.session.exists_branch hbefore.starting
      exact (hu.branch hbefore hs).move move hs hs' hadmitted
    · obtain rfl := move.advances.eq_singleton_of_mem hnew
      obtain ⟨rfl, -, b, hb, rfl⟩ := move.born_of_join hge hs'
      obtain ⟨hcovers, hbs⟩ := hallows rfl rfl
      obtain ⟨ctx, scope, body, collect, hb, hrun, rfl, nested⟩ := hbs b hb
      exact branch_obeys hb hrun hcovers nested _

/-! ## A run of a flow -/

/-- Before anything is done for the run, there is nothing in it to keep to the protocol. -/
theorem upheld_of_fresh (h : Session.Spares config w.token log s)
    (hfresh : ∀ x, .poll x ∈ log → x.effect.run? ≠ some w.run)
    (hheeds : w.Heeds log s.machine.cancelled) : w.Upheld log s := by
  obtain ⟨s₀, hs₀, hspares⟩ := h
  induction hspares with
  | refl =>
      refine ⟨nofun, fun hforked => ?_⟩
      obtain ⟨t, policy, bs, m, m', hm, -⟩ := hforked
      cases hm
  | @move before more u v hbefore spared ih =>
      have hgrown : u.machine.cancelled <:+ v.machine.cancelled := spared.moves.advances.cancelled
      have hu : w.Upheld before u := by
        apply ih fun x hx => hfresh x (List.mem_append_left more hx)
        exact hheeds.part (List.subset_append_left before more) hgrown.subset
      refine hu.move ⟨s₀, hs₀, hbefore⟩ spared.moves ?_ ?_
      · exact hheeds.part (List.subset_append_right before more) (List.Subset.refl _)
      · rintro t policy group bs m m' rfl
        exact absurd rfl (hfresh _ (List.mem_append_right before (List.mem_singleton_self _)))

section

variable {earlier l : List Occurrence} {u : System RunResult} {t : TaskId} {ctx : Context}
  {inputs : List (String × Json)} (h : Session.Commences config flow earlier u t ctx inputs)
  (hsteps : w.Outer flow.steps) (hhandler : ∀ steps ∈ flow.onError, w.Outer steps)
  (hrun : ctx.run = w.run) (htoken : ctx.token = w.token)
include h hsteps hhandler hrun htoken

/-- What is done for the run is allowed, by the one who opened it and by its branches. -/
theorem Upheld.allows (hu : w.Upheld (earlier ++ l) s) (hr : u.Reaches config l s) {x : Poll}
    (move : s.Moves config [.poll x] s') (hx : x.effect.run? = some ctx.run) :
    w.protocol.allows s.machine.cancelled x.effect := by
  obtain ⟨t', e, a, m, m'⟩ := x
  obtain ⟨-, next, wait, polls⟩ := move.polls_of_poll
  rcases h.worker hr move hx with howner | ⟨n, hn, hstarted⟩
  · obtain rfl : t' = t := howner
    obtain ⟨e', next', rest, hfollows, ⟨wait', hat⟩, -⟩ :=
      (h.goes_on hr).resolve_right (h.open_of_concerns hr move hx)
    cases polls.active.symm.trans hat
    have hobeys : (afterOpening config flow inputs (ctx.run, ctx.token)).Obeys w.protocol
        (fun _ _ => True) [] := afterOpening_obeys hsteps hhandler config inputs hrun htoken []
    obtain ⟨later, hpath, hlater⟩ := path_of_reaches hr
      (fun hm => hu.admitted (List.mem_append_right earlier hm)) t' List.nil_suffix
    exact allows_mono (hobeys.follow hfollows hpath).1 hlater
  · obtain rfl : t' = .branch n := hn
    obtain ⟨t₁, policy, group, bs, m₁, m₁', hm, hsize⟩ := mem_startings.mp hstarted
    have hforked : Forked (earlier ++ l) w.run group n :=
      ⟨t₁, policy, bs, m₁, m₁', hrun ▸ List.mem_append_right earlier hm, hsize⟩
    have hkeeps : w.Keeps group s.machine.cancelled _ := hu.branch hforked polls.active
    exact hkeeps.1

/-- Along the run every answer is admitted, and its branches keep to the protocol. -/
theorem upheld (hspares : Session.Spares config w.token earlier u)
    (hl : u.Spares config w.token l s) (hheeds : w.Heeds (earlier ++ l) s.machine.cancelled) :
    w.Upheld (earlier ++ l) s := by
  induction hl with
  | refl =>
      rw [List.append_nil] at hheeds ⊢
      exact upheld_of_fresh hspares (fun x hx => hrun ▸ h.fresh hx) hheeds
  | @move before more v v' hbefore spared ih =>
      have hgrown : v.machine.cancelled <:+ v'.machine.cancelled := spared.moves.advances.cancelled
      rw [← List.append_assoc] at hheeds ⊢
      have hv : w.Upheld (earlier ++ before) v :=
        ih (hheeds.part (List.subset_append_left _ more) hgrown.subset)
      refine hv.move (hspares.along hbefore) spared.moves ?_ ?_
      · exact hheeds.part (List.subset_append_right _ more) (List.Subset.refl _)
      · rintro t' policy group bs m m' rfl
        exact hv.allows h hsteps hhandler hrun htoken hbefore.reaches spared.moves (congrArg some hrun.symm)

/-- Whatever is done for the run is allowed by what is cancelled in the end. -/
theorem allows_of_mem (hspares : Session.Spares config w.token earlier u)
    (hl : u.Spares config w.token l s) (hheeds : w.Heeds (earlier ++ l) s.machine.cancelled)
    {x : Poll} (hm : .poll x ∈ l) (hx : x.effect.run? = some ctx.run) :
    w.protocol.allows s.machine.cancelled x.effect := by
  obtain ⟨l₁, l₂, rfl⟩ := List.append_of_mem hm
  obtain ⟨v, v', hv, spared, hlater⟩ := hl.moment
  have hgrown : v.machine.cancelled <:+ s.machine.cancelled :=
    spared.moves.advances.cancelled.trans hlater.reaches.cancelled
  have hbefore : w.Heeds (earlier ++ l₁) v.machine.cancelled :=
    hheeds.part (by simp) hgrown.subset
  have hu := upheld h hsteps hhandler hrun htoken hspares hv hbefore
  exact allows_mono (hu.allows h hsteps hhandler hrun htoken hv.reaches spared.moves hx) hgrown

end

end Containment
end FlowEngine
