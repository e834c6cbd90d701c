import FlowEngine.Proofs.Session.Hosting
import FlowEngine.Proofs.Session.Turns

/-!
# Steps that start

A step starts right after its task has looked at its scope and found that it is not
cancelled. Nobody else gets a turn in between, so no step starts in a scope that is
cancelled.
-/
namespace FlowEngine

open Exec Execution

abbrev Lookout : Type := Option Token

namespace Lookout

def protocol : Protocol Lookout where
  allows
    | u, .startSpan ctx _ => u = some ctx.token
    | _, _ => True
  moves
    | _, .isCancelled t, false, v => v = some t
    | _, .childToken t, a, v => (∃ n, a = t.child n) ∧ v = none
    | _, _, _, v => v = none

def discipline : Discipline Lookout where
  protocol := protocol
  root := none
  born _ := none
  final _ := True

variable {o o₁ : Outline} {place : TaskId → Lookout} {t : TaskId}

theorem tolerates : Tolerates protocol (fun (_ : Unit) _ _ => True) fun _ _ _ => False where
  plain he _ := ⟨by cases he <;> trivial, fun _ _ _ => Or.inl trivial⟩
  starts _ _ hmove := ⟨hmove, fun _ _ _ => trivial⟩
  futile _ hu := hu.elim
  child _ hmove := hmove.1
  narrow _ _ := trivial
  widen _ _ _ := trivial
  widenFutile _ _ hv := hv.elim

theorem compositional : Compositional fun _ _ x => ∀ _ : Unit,
    x.Keeps protocol (fun _ => True) fun _ => False := by
  refine tolerates.compositional fun {ctx body handler} id hb hh i => ?_
  refine tolerates.transaction (fun _ h => h) (fun {e u} he _ => ?_) (hb i) (fun x hx => hh x hx i)
    id (i := i)
  exact ⟨by cases he <;> trivial, fun _ _ _ => trivial⟩

theorem hosts : discipline.Hosts (fun _ _ => True) (fun _ _ => True) fun _ _ => True where
  plain he _ := ⟨by cases he <;> trivial, fun _ _ _ => trivial⟩
  sequence steps ctx last := compositional.sequence steps ctx last ()
  opens _ _ := ⟨trivial, fun _ _ _ _ => trivial⟩
  settles _ := ⟨trivial, fun _ _ _ => trivial⟩
  stops _ _ := ⟨trivial, fun _ _ _ => trivial⟩
  looks _ := ⟨trivial, fun _ _ _ => trivial⟩
  closes _ _ _ := ⟨trivial, fun _ _ _ => trivial⟩
  acquires := ⟨trivial, fun _ _ h => h⟩
  releases _ := ⟨trivial, fun _ _ _ => trivial⟩
  ends _ := trivial
  awaits _ := ⟨trivial, fun _ _ _ => trivial⟩

theorem branch (b : Branch) : discipline.Obeys b.program (discipline.born b) := by
  cases b with
  | steps ctx scope body collect =>
      exact (Branch.obeys_of_keeps (compositional.sequence body ctx .null ()) (fun _ h => h) scope
        collect trivial).mono fun _ _ _ => trivial
  | timed observed delay result =>
      refine ⟨trivial, fun (waited : Bool) v _ => ?_⟩
      cases waited <;> trivial

/-- A token that a task has just found not to be cancelled is not cancelled, unless the task has
to wait. -/
def Holds (o : Outline) (place : TaskId → Lookout) : Prop :=
  ∀ t token, place t = some token → ∃ state, o.task? t = some state ∧
    ∀ p w, state = .active p w → o.Suspended t ∨ o.running = some t ∧ o.isCancelled token = false

theorem Holds.move (hh : Holds o place) {o' : Outline} {place' : TaskId → Lookout}
    (hrunning : ∀ u, o.running = some u → u = t)
    (hplace : ∀ u token, u ≠ t → place' u = some token → place u = some token)
    (htask : ∀ u state, u ≠ t → o.task? u = some state → o'.task? u = some state)
    (hself : ∀ token, place' t = some token → ∃ state, o'.task? t = some state ∧
      ∀ p w, state = .active p w → o'.Suspended t ∨
        o'.running = some t ∧ o'.isCancelled token = false) : Holds o' place' := by
  intro u token hu
  by_cases hut : u = t
  · subst hut
    exact hself token hu
  · obtain ⟨state, hs, hstate⟩ := hh u token (hplace u token hut hu)
    refine ⟨state, htask u state hut hs, fun p w hp => Or.inl ?_⟩
    obtain ⟨e, next, w', hw, he⟩ := (hstate p w hp).resolve_right fun h => hut (hrunning u h.1)
    exact ⟨e, next, w', htask u _ hut hw, he⟩

theorem Holds.idle (hh : Holds o place) (idle : o.running = none) {o' : Outline}
    (htask : ∀ u, o'.task? u = o.task? u) : Holds o' place := by
  intro u token hu
  obtain ⟨state, hs, hstate⟩ := hh u token hu
  refine ⟨state, (htask u).trans hs, fun p w hp => Or.inl ?_⟩
  obtain ⟨e, next, w', hw, he⟩ := (hstate p w hp).resolve_right fun h => by
    rw [idle] at h
    cases h.1
  exact ⟨e, next, w', (htask u).trans hw, he⟩

theorem exists_move (u : Lookout) {w : Wait} {e : Effect} {a : e.Answer}
    (polls : o.Polls w o₁ e (.answered a)) : ∃ v, protocol.moves u e a v ∧
      ∀ token, v = some token → o₁.running = o.running ∧ o₁.isCancelled token = false := by
  cases e with
  | isCancelled token =>
      obtain ⟨hturn, rfl⟩ := polls
      cases hturn
      cases hc : o₁.isCancelled token with
      | false => exact ⟨some token, rfl, by rintro _ ⟨⟩; exact ⟨rfl, hc⟩⟩
      | true => exact ⟨none, rfl, nofun⟩
  | childToken token =>
      obtain ⟨⟨n, hturn⟩, -⟩ := polls
      cases hturn
      exact ⟨none, ⟨⟨n, rfl⟩, rfl⟩, nofun⟩
  | _ => exact ⟨none, rfl, nofun⟩

theorem sound (config : Config) : discipline.Sound config Holds where
  root := trivial
  main h := hosts.errand h
  submission flow inputs token := hosts.submitted config flow inputs token
  branch {u run policy group bs b} _ _ := branch b
  pick t hh idle := hh.idle idle fun _ => rfl
  cancel tokens hh idle := hh.idle idle fun _ => rfl
  stop {o place t} hh running inactive := by
    refine hh.move (t := t) (fun u hu => ?_) (fun _ _ _ h => h) (fun _ _ _ h => h) fun token ht => ?_
    · exact Option.some.inj (hu.symm.trans running)
    · obtain ⟨state, hs, -⟩ := hh t token ht
      exact ⟨state, hs, fun p w hp => absurd (hp ▸ hs) (inactive p w)⟩
  finish {o place t a w} order hh running active hf := by
    refine hh.move (t := t) (fun u hu => ?_) (fun _ _ _ h => h) (fun u _ hut hu => ?_)
      fun token ht => ?_
    · exact Option.some.inj (hu.symm.trans running)
    · exact (o.task?_setTask_of_ne _ hut).trans hu
    · exact ⟨_, o.task?_setTask_self _ (Option.isSome_of_eq_some active), nofun⟩
  answer {o o₁ place t e next w a} hh running active hallows polls := by
    obtain ⟨v, hmove, hv⟩ := exists_move (place t) polls
    have hself := o₁.task?_setTask_self (.active (next a) .fresh)
      (Option.isSome_of_eq_some (polls.task? active))
    refine ⟨v, hmove, hh.move (t := t) (fun u hu => ?_) (fun u token hut hu => ?_)
      (fun u state hut hu => ?_) fun token ht => ?_⟩
    · exact Option.some.inj (hu.symm.trans running)
    · rwa [Function.update_of_ne hut] at hu
    · exact (o₁.task?_setTask_of_ne _ hut).trans (polls.task? hu)
    · rw [Function.update_self] at ht
      refine ⟨_, hself, fun p w hp => Or.inr ?_⟩
      rw [Outline.setTask_running, (hv token ht).1]
      refine ⟨running, ?_⟩
      rw [Outline.isCancelled, Outline.setTask_cancelled]
      exact (hv token ht).2
  wait {o o₁ place t e next w w'} hh running active hallows polls := by
    have hself := o₁.task?_setTask_self (.active (.perform e next) w')
      (Option.isSome_of_eq_some (polls.task? active))
    refine hh.move (t := t) (fun u hu => ?_) (fun u token hut hu => ?_) (fun u state hut hu => ?_)
      fun token ht => ?_
    · exact Option.some.inj (hu.symm.trans running)
    · rcases Discipline.heirs_cases e w u with h | ⟨b, h⟩
      · exact h.symm.trans hu
      · cases h.symm.trans hu
    · exact (o₁.task?_setTask_of_ne _ hut).trans (polls.task? hu)
    · exact ⟨_, hself, fun p w₁ hp => Or.inl ⟨e, next, w', hself, polls.waits⟩⟩
  submit {o place} p hh idle := by
    refine hh.move (t := .submission o.submissions.length) (fun u hu => ?_) (fun u token hut hu => ?_)
      (fun u state hut hu => ?_) fun token ht => ?_
    · rw [idle] at hu
      cases hu
    · rwa [Function.update_of_ne hut] at hu
    · cases u with
      | submission number =>
          exact (List.getElem?_append_left (List.getElem?_eq_some_iff.mp hu).1).trans hu
      | _ => exact hu
    · rw [Function.update_self] at ht
      cases ht
  errand {o place} p hh idle ended := by
    refine hh.move (t := .main) (fun u hu => ?_) (fun u token hut hu => ?_)
      (fun u state hut hu => ?_) fun token ht => ?_
    · rw [idle] at hu
      cases hu
    · rwa [Function.update_of_ne hut] at hu
    · cases u with
      | main => exact absurd rfl hut
      | _ => exact hu
    · rw [Function.update_self] at ht
      cases ht

end Lookout

theorem Session.starts_uncancelled {config : Config} {log : List Occurrence}
    {s s' : System RunResult} {t : TaskId} {ctx : Context} {step : String}
    {answer : Except EngineError Unit} {m m' : Machine} (h : Session config log s)
    (move : s.Moves config [.poll ⟨t, .startSpan ctx step, some answer, m, m'⟩] s') :
    s.machine.isCancelled ctx.token = false := by
  obtain ⟨place, hob, hh⟩ := (Lookout.sound config).session h fun s₀ hs₀ => by
    rintro u token ⟨⟩
  obtain ⟨-, next, w, hw, hpolls⟩ := move.polls_of_answer
  rw [← System.task?_outline] at hw
  have hplace : place t = some ctx.token := (hob.active hw).1
  obtain ⟨state, hs, hstate⟩ := hh t _ hplace
  rw [hw] at hs
  cases hs
  rcases hstate _ _ rfl with ⟨e, next', w', hsuspended, he⟩ | ⟨-, hc⟩
  · rw [hw] at hsuspended
    cases hsuspended
    exact he.elim
  · exact hc

end FlowEngine
