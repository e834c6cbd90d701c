import FlowEngine.Proofs.Run.Journals
import FlowEngine.Proofs.Run.Trails
import FlowEngine.Proofs.Transaction.Stages

/-!
# The stages of all runs

Each task that does a run is at a stage of its own. While its run is open, the slot of the run names
the snapshot that the task has in hand, the journal says which failures were handled, and no other
task is in the same run.
-/
namespace FlowEngine

open Execution

namespace Outline

variable {o o₁ : Outline} {w : Wait} {e : Effect} {run : Nat}

def handled? (o : Outline) (run : Nat) : Option (List Failure) :=
  (o.journal? run).map Journal.handled

theorem Polls.handled? {turn : Turn e.Answer} (h : o.Polls w o₁ e turn) {fs : List Failure}
    (hfs : o.handled? run = some fs) :
    o₁.handled? run = some (fs ++ (e.entriesFor run).filterMap Entry.handled?) := by
  obtain ⟨j, hj, rfl⟩ := Option.map_eq_some_iff.mp hfs
  by_cases hc : ∃ ending outputs, e = .closeRun run ending outputs
  · obtain ⟨ending, outputs, rfl⟩ := hc
    obtain ⟨r, hr, rfl⟩ := Option.map_eq_some_iff.mp hj
    simp only [Polls, hr] at h
    obtain ⟨-, rfl⟩ := h
    rw [Outline.handled?, o.journal?_modifyRun run run (g := fun _ => r.journal.finish ending)
      fun _ => rfl, hj]
    simp [Effect.entriesFor, Effect.entries]
  · rcases h.journal? fun ending outputs he => hc ⟨ending, outputs, he⟩ with hsame | ⟨hnone, -⟩
    · rw [Outline.handled?, hsame, hj]
      simp [Journal.write_handled]
    · cases hnone.symm.trans hj

theorem lt_of_handled? {fs : List Failure} (h : o.handled? run = some fs) : run < o.runs.length := by
  obtain ⟨j, hj, -⟩ := Option.map_eq_some_iff.mp h
  obtain ⟨r, hr, -⟩ := Option.map_eq_some_iff.mp hj
  exact (List.getElem?_eq_some_iff.mp hr).1

end Outline

namespace Effect

def Concerns (run : Nat) : Effect → Prop
  | .note number _ | .releaseTransaction number _ => number = run
  | .beginTransaction ctx => ctx.run = run
  | _ => False

def Modest : Effect → Prop
  | .note _ (.handled _) | .beginTransaction _ | .releaseTransaction _ _ => False
  | _ => True

variable {e : Effect} {run : Nat} {o o₁ : Outline} {w : Wait} {turn : Turn e.Answer}

theorem entriesFor_of_not_concerns (h : ¬ e.Concerns run) : e.entriesFor run = [] := by
  cases e with
  | note number entry =>
      have hne : ¬ number = run := h
      simp [entriesFor, run?, hne]
  | _ => simp [entriesFor, entries]

theorem slot_of_not_concerns (h : ¬ e.Concerns run) (polls : o.Polls w o₁ e turn) :
    o₁.slot run = o.slot run :=
  Stage.slot_of_ne polls (fun _ he hrun => h (he ▸ hrun)) fun _ _ he hrun => h (he ▸ hrun)

theorem Modest.slot (h : e.Modest) (polls : o.Polls w o₁ e turn) (run : Nat) :
    o₁.slot run = o.slot run := by
  refine Stage.slot_of_ne polls ?_ ?_
  · rintro ctx rfl
    exact h.elim
  · rintro number handle rfl
    exact h.elim

theorem Modest.handled (h : e.Modest) (run : Nat) :
    (e.entriesFor run).filterMap Entry.handled? = [] := by
  unfold entriesFor
  split
  · cases e with
    | note number entry =>
        cases entry with
        | handled f => exact h.elim
        | _ => rfl
    | _ => rfl
  · rfl

end Effect

namespace Stage

def Ends : (t : TaskId) → Stage → t.Result → Prop
  | .main, u, r => u = closed r ∨ u = told
  | .submission _, u, r => u = done r
  | .branch _, _, _ => True

def handled? : Stage → Option (List Failure)
  | queued | admitted => some []
  | closed r | done r => some r.handledErrors
  | _ => none

theorem inside_of_concerns {u : Stage} {e : Effect} {run : Nat} (h : protocol.allows u e)
    (hrun : e.Concerns run) : ∃ held, u = inside run held := by
  cases u with
  | inside run' held =>
      cases e with
      | note number entry =>
          obtain rfl : number = run := hrun
          obtain rfl : number = run' := h
          exact ⟨held, rfl⟩
      | beginTransaction ctx =>
          obtain rfl : ctx.run = run := hrun
          obtain ⟨rfl, -⟩ : ctx.run = run' ∧ held = none := h
          exact ⟨held, rfl⟩
      | releaseTransaction number handle =>
          obtain rfl : number = run := hrun
          obtain ⟨rfl, -⟩ : number = run' ∧ held = some handle := h
          exact ⟨held, rfl⟩
      | _ => exact hrun.elim
  | _ => cases e <;> first | exact hrun.elim | exact h.elim

theorem entriesFor_of_allows {e : Effect} {run : Nat} {held : Option String}
    (h : protocol.allows (inside run held) e) : e.entriesFor run = e.entries := by
  cases e with
  | note number entry =>
      obtain rfl : number = run := h
      simp [Effect.entriesFor, Effect.run?]
  | _ => simp [Effect.entriesFor, Effect.entries]

structure Tells (u : Stage) (o : Outline) (fs : List Failure) : Prop where
  within {run : Nat} {held : Option String} : u = inside run held →
    o.slot run = ⟨held⟩ ∧ o.handled? run = some fs
  known {fs' : List Failure} : u.handled? = some fs' → fs = fs'

theorem tells_told (o : Outline) (fs : List Failure) : Tells told o fs := ⟨nofun, nofun⟩

theorem Tells.setTask {u : Stage} {o : Outline} {fs : List Failure} (h : u.Tells o fs) (t : TaskId)
    (state : TaskState t.Result) : u.Tells (o.setTask t state) fs := by
  refine ⟨fun hu => ?_, h.known⟩
  rw [Outline.setTask_slot, Outline.handled?, Outline.journal?_setTask]
  exact h.within hu

/-- What a stage says is still so after a poll that leaves the run alone. -/
theorem Tells.stays {u : Stage} {o o₁ : Outline} {fs : List Failure} {e : Effect} {w : Wait}
    {turn : Turn e.Answer} (h : u.Tells o fs) (polls : o.Polls w o₁ e turn)
    (hstays : ∀ {run : Nat} {held : Option String}, u = inside run held →
      o₁.slot run = o.slot run ∧ (e.entriesFor run).filterMap Entry.handled? = []) : u.Tells o₁ fs := by
  refine ⟨fun hu => ?_, h.known⟩
  obtain ⟨hslot, hhandled⟩ := h.within hu
  obtain ⟨hsame, hnothing⟩ := hstays hu
  refine ⟨hsame.trans hslot, ?_⟩
  rw [polls.handled? hhandled, hnothing, List.append_nil]

/-- The next stage says what is so after the answer. -/
theorem Tells.after {u : Stage} {o o₁ : Outline} {fs : List Failure} {e : Effect} {w : Wait}
    {a : e.Answer} (h : u.Tells o fs) (hallows : protocol.allows u e)
    (polls : o.Polls w o₁ e (.answered a)) :
    (u.after e a).Tells o₁ (fs ++ e.entries.filterMap Entry.handled?) := by
  cases u with
  | queued =>
      cases e with
      | acquireSlot =>
          refine ⟨fun hin => (by cases hin), fun hfs => ?_⟩
          rw [← h.known hfs]
          exact List.append_nil fs
      | _ => exact hallows.elim
  | admitted =>
      cases e with
      | openRun flow parent =>
          obtain ⟨⟨n, hturn⟩, rfl⟩ := polls
          cases hturn
          refine ⟨fun hrun => ?_, fun hfs => (by cases hfs)⟩
          cases hrun
          have hnone : fs = [] := h.known rfl
          simp [hnone, Outline.slot, Outline.handled?, Outline.journal?, Effect.entries, Journal.start,
            TransactionSlot.empty]
      | _ => exact hallows.elim
  | inside run held =>
      obtain ⟨hslot, hhandled⟩ := h.within rfl
      refine ⟨fun {run' held'} hafter => ?_, fun {fs'} hfs => ?_⟩
      · obtain ⟨rfl, hslot'⟩ :=
          slot_of_answer polls hallows hslot (Outline.lt_of_handled? hhandled) hafter
        refine ⟨hslot', ?_⟩
        rw [polls.handled? hhandled, entriesFor_of_allows hallows]
      · cases e with
        | closeRun number ending outputs =>
            obtain rfl : number = run := hallows
            obtain ⟨j, hj, rfl⟩ := Option.map_eq_some_iff.mp hhandled
            obtain ⟨r, hr, rfl⟩ := Option.map_eq_some_iff.mp hj
            simp only [Outline.Polls, hr] at polls
            obtain ⟨hturn, -⟩ := polls
            cases hturn
            cases hfs
            simp [Effect.entries, Journal.result]
        | beginTransaction ctx => cases a <;> cases hfs
        | _ => cases hfs
  | closed result =>
      cases e with
      | releaseSlot =>
          refine ⟨fun hin => (by cases hin), fun hfs => ?_⟩
          rw [← h.known hfs]
          exact List.append_nil fs
      | _ => exact hallows.elim
  | awaiting =>
      cases e with
      | awaitRun n => exact tells_told _ _
      | _ => exact hallows.elim
  | _ => cases e <;> exact hallows.elim

/-- A task that is in a run after an answer was in it before, or has opened it. -/
theorem before_of_after {u : Stage} {o o₁ : Outline} {e : Effect} {w : Wait} {a : e.Answer}
    {run : Nat} {held : Option String} (hallows : protocol.allows u e)
    (polls : o.Polls w o₁ e (.answered a)) (h : u.after e a = inside run held) :
    (∃ held', u = inside run held') ∨ run = o.runs.length := by
  cases u with
  | admitted =>
      cases e with
      | openRun flow parent =>
          obtain ⟨⟨n, hturn⟩, -⟩ := polls
          cases hturn
          cases h
          exact Or.inr rfl
      | _ => exact hallows.elim
  | inside run' held' =>
      refine Or.inl ⟨held', ?_⟩
      cases e with
      | beginTransaction ctx => cases a <;> cases h <;> rfl
      | closeRun => cases h
      | _ => cases h; rfl
  | _ => cases e <;> cases h

def First (u : Stage) : Prop := u = queued ∨ u = admitted ∨ u = awaiting

end Stage

namespace Outline

variable {o o' o₁ : Outline} {config : Config} {log : List Occurrence} {t : TaskId} {e : Effect}
  {w : Wait} {run : Nat} {stage stage' : TaskId → Stage} {trail trail' : (t : TaskId) → Trail t}
  {first : TaskId → Stage}

/-- Every task that is no branch is at a stage that it keeps to. Its run has the slot and has handled
the failures that the stage and the trail of the task say. -/
structure Staged (o : Outline) (stage : TaskId → Stage) (trail : (t : TaskId) → Trail t) : Prop where
  obeys {t : TaskId} {p : Program t.Result} {w : Wait} : t.role = .owner →
    o.task? t = some (.active p w) → p.Obeys Stage.protocol (Stage.Ends t) (stage t)
  ends {t : TaskId} {a : t.Result} {k : Nat} : t.role = .owner →
    o.task? t = some (.ended a k) → Stage.Ends t (stage t) a
  idle {t : TaskId} : o.task? t = none ∨ t.role = .branch → stage t = .told
  slot {t : TaskId} {run : Nat} {held : Option String} : stage t = .inside run held →
    o.slot run = ⟨held⟩ ∧ o.handled? run = some (trail t).handled
  handled {t : TaskId} {fs : List Failure} : (stage t).handled? = some fs → (trail t).handled = fs
  sole {t u : TaskId} {run : Nat} {held held' : Option String} : stage t = .inside run held →
    stage u = .inside run held' → t = u

structure Advanced (o : Outline) (log : List Occurrence) (o' : Outline) (first : TaskId → Stage)
    (stage stage' : TaskId → Stage) : Prop where
  led {t : TaskId} : (o.task? t).isSome → ¬ Restarted t log →
    Stage.protocol.Path (stage t) (deedsOf t log) (stage' t)
  begun {t : TaskId} : t.role = .owner → o.task? t = none ∨ Restarted t log → (o'.task? t).isSome →
    stage' t = first t

namespace Staged

theorem isSome (h : o.Staged stage trail) (hne : stage t ≠ .told) : (o.task? t).isSome := by
  cases ht : o.task? t with
  | none => exact absurd (h.idle (Or.inl ht)) hne
  | some state => rfl

theorem tells (h : o.Staged stage trail) (t : TaskId) : (stage t).Tells o (trail t).handled :=
  ⟨h.slot, h.handled⟩

/-- A task of a run that gets no answer handles no failure. -/
theorem trail_eq (h : o.Staged stage trail) (hpro : o.Prolongs log o' trail trail')
    (hdeeds : deedsOf t log = []) (hlog : ¬ Restarted t log) (hne : stage t ≠ .told) :
    (trail' t).handled = (trail t).handled := by
  obtain ⟨-, hkept⟩ := hpro.kept (h.isSome hne) hlog
  rw [hkept, handledBy, hdeeds]
  exact List.append_nil _

/-- Stages stay as they are when no task gets an answer. -/
theorem still (h : o.Staged stage trail) (hpro : o.Prolongs log o' trail trail')
    (hdeeds : ∀ t, deedsOf t log = []) (hlog : .errand ∉ log)
    (htasks : ∀ t p w, o'.task? t = some (.active p w) → t.role = .owner →
      ∃ w', o.task? t = some (.active p w'))
    (hends : ∀ t a k, o'.task? t = some (.ended a k) → t.role = .owner → Stage.Ends t (stage t) a)
    (hnone : ∀ t, o'.task? t = none → o.task? t = none) (hslot : ∀ run, o'.slot run = o.slot run)
    (hhandled : ∀ run fs, o.handled? run = some fs → o'.handled? run = some fs) :
    o'.Staged stage trail' := by
  have htrail {t : TaskId} (hne : stage t ≠ .told) : (trail' t).handled = (trail t).handled :=
    h.trail_eq hpro (hdeeds t) (fun hr => hlog hr.2) hne
  refine ⟨fun hrole ht => ?_, fun hrole ht => hends _ _ _ ht hrole,
    fun ht => h.idle (ht.imp_left (hnone _)), fun {t run held} ht => ?_, fun {t fs} ht => ?_, h.sole⟩
  · obtain ⟨w', hw'⟩ := htasks _ _ _ ht hrole
    exact h.obeys hrole hw'
  · obtain ⟨hs, hh⟩ := h.slot ht
    refine ⟨(hslot _).trans hs, hhandled _ _ ?_⟩
    rw [htrail (by rw [ht]; nofun)]
    exact hh
  · refine (htrail fun htold => ?_).trans (h.handled ht)
    rw [htold] at ht
    cases ht

/-- A task leaves the slots of other runs alone, and handles no failures for them. -/
theorem stays_of_ne (h : o.Staged stage trail) {next : e.Answer → Program t.Result}
    (active : o.task? t = some (.active (.perform e next) w)) (hquiet : t.role = .branch → e.Modest)
    {v : TaskId} (hv : v ≠ t) {held : Option String} (hstage : stage v = .inside run held)
    {turn : Turn e.Answer} (polls : o.Polls w o₁ e turn) :
    o₁.slot run = o.slot run ∧ (e.entriesFor run).filterMap Entry.handled? = [] := by
  cases hrole : t.role with
  | branch => exact ⟨(hquiet hrole).slot polls run, (hquiet hrole).handled run⟩
  | owner =>
      have hnot : ¬ e.Concerns run := by
        intro hconcerns
        obtain ⟨held', hmine⟩ := Stage.inside_of_concerns (h.obeys hrole active).1 hconcerns
        exact hv (h.sole hstage hmine)
      exact ⟨Effect.slot_of_not_concerns hnot polls, by simp [Effect.entriesFor_of_not_concerns hnot]⟩

section Answers

variable {next : e.Answer → Program t.Result} {a : e.Answer} {before after : Machine}

/-- The stages tell nothing of branches, also after an answer. -/
theorem after_of_branch (h : o.Staged stage trail) (hrole : t.role = .branch) :
    (stage t).after e a = .told := by
  rw [h.idle (Or.inr hrole)]
  cases e <;> rfl

theorem tells_of_answer (h : o.Staged stage trail)
    (active : o.task? t = some (.active (.perform e next) w))
    (hquiet : t.role = .branch → e.Modest) (polls : o.Polls w o₁ e (.answered a))
    (hpro : o.Prolongs [.poll ⟨t, e, some a, before, after⟩]
      (o₁.setTask t (.active (next a) .fresh)) trail trail') (u : TaskId) :
    (Function.update stage t ((stage t).after e a) u).Tells
      (o₁.setTask t (.active (next a) .fresh)) (trail' u).handled := by
  by_cases hut : u = t
  · subst hut
    obtain ⟨-, hkept⟩ := hpro.kept (Option.isSome_of_eq_some active) (by simp [Restarted])
    rw [Function.update_self, hkept]
    cases hrole : u.role with
    | branch =>
        rw [h.after_of_branch hrole]
        exact Stage.tells_told _ _
    | owner =>
        have hafter := (h.tells u).after (h.obeys hrole active).1 polls
        simpa [handledBy, deedsOf] using hafter.setTask u _
  · rw [Function.update_of_ne hut]
    have hstays : (stage u).Tells o₁ (trail u).handled :=
      (h.tells u).stays polls fun hu => h.stays_of_ne active hquiet hut hu polls
    by_cases htold : stage u = .told
    · rw [htold]
      exact Stage.tells_told _ _
    · obtain ⟨-, hkept⟩ := hpro.kept (h.isSome htold) (by simp [Restarted])
      rw [hkept]
      simpa [handledBy, deedsOf, Ne.symm hut] using hstays.setTask t _

/-- An answer brings a task into a run only if it was there before, or if nobody else is. -/
theorem not_inside_of_answer (h : o.Staged stage trail)
    (active : o.task? t = some (.active (.perform e next) w))
    (polls : o.Polls w o₁ e (.answered a)) {u : TaskId} (hu : u ≠ t) {held held' : Option String}
    (hin : stage u = .inside run held) : (stage t).after e a ≠ .inside run held' := by
  intro ht
  have hrole : t.role = .owner := by
    cases hrole : t.role with
    | owner => rfl
    | branch => cases (h.after_of_branch hrole).symm.trans ht
  rcases Stage.before_of_after (h.obeys hrole active).1 polls ht with ⟨held₀, hbefore⟩ | rfl
  · exact hu (h.sole hin hbefore)
  · exact Nat.lt_irrefl _ (lt_of_handled? (h.slot hin).2)

theorem answer (h : o.Staged stage trail) (active : o.task? t = some (.active (.perform e next) w))
    (hquiet : t.role = .branch → e.Modest) (polls : o.Polls w o₁ e (.answered a))
    (hpro : o.Prolongs [.poll ⟨t, e, some a, before, after⟩]
      (o₁.setTask t (.active (next a) .fresh)) trail trail') :
    (o₁.setTask t (.active (next a) .fresh)).Staged
      (Function.update stage t ((stage t).after e a)) trail' := by
  have hothers {u : TaskId} (hu : u ≠ t) :
      (o₁.setTask t (.active (next a) .fresh)).task? u = o.task? u := by
    rw [task?_setTask_of_ne _ _ hu, polls.task?_answered]
  have htells := h.tells_of_answer active hquiet polls hpro
  refine ⟨fun {u p w'} hrole hu => ?_, fun {u b k} hrole hu => ?_, fun {u} hu => ?_,
    (htells _).within, (htells _).known, fun {u v run held held'} hu hv => ?_⟩
  · by_cases hut : u = t
    · subst hut
      cases eq_of_task?_setTask _ _ hu
      rw [Function.update_self]
      exact (h.obeys hrole active).2 a _ (Stage.moves_after polls _)
    · rw [Function.update_of_ne hut]
      exact h.obeys hrole ((hothers hut).symm.trans hu)
  · by_cases hut : u = t
    · subst hut
      cases eq_of_task?_setTask _ _ hu
    · rw [Function.update_of_ne hut]
      exact h.ends hrole ((hothers hut).symm.trans hu)
  · by_cases hut : u = t
    · subst hut
      rw [Function.update_self]
      refine h.after_of_branch (hu.resolve_left fun hnone => ?_)
      have hsome := isSome_setTask (o := o₁) u u (.active (next a) .fresh)
      rw [hnone, polls.task?_answered, active] at hsome
      cases hsome
    · rw [Function.update_of_ne hut]
      exact h.idle (hu.imp_left fun hnone => (hothers hut).symm.trans hnone)
  · by_cases hut : u = t
    · by_cases hvt : v = t
      · rw [hut, hvt]
      · rw [hut, Function.update_self] at hu
        rw [Function.update_of_ne hvt] at hv
        exact absurd hu (h.not_inside_of_answer active polls hvt hv)
    · rw [Function.update_of_ne hut] at hu
      by_cases hvt : v = t
      · rw [hvt, Function.update_self] at hv
        exact absurd hv (h.not_inside_of_answer active polls hut hu)
      · rw [Function.update_of_ne hvt] at hv
        exact h.sole hu hv

end Answers

theorem begins (h : o.Staged stage trail) {p : Program t.Result} {u : Stage} (hrole : t.role = .owner)
    (hu : u.First) (hobeys : p.Obeys Stage.protocol (Stage.Ends t) u)
    (hnew : o'.task? t = some (.active p .fresh)) (hothers : ∀ v, v ≠ t → o'.task? v = o.task? v)
    (hslot : ∀ run, o'.slot run = o.slot run) (hhandled : ∀ run, o'.handled? run = o.handled? run)
    (hpro : o.Prolongs log o' trail trail') (hdeeds : ∀ v, v ≠ t → deedsOf v log = [])
    (hlog : ∀ v, v ≠ t → ¬ Restarted v log) (hmine : trail' t = .new p) :
    o'.Staged (Function.update stage t u) trail' := by
  have hout {run : Nat} {held : Option String} : u ≠ .inside run held := by
    rintro rfl
    rcases hu with h | h | h <;> cases h
  have htells (v : TaskId) : (Function.update stage t u v).Tells o' (trail' v).handled := by
    by_cases hvt : v = t
    · subst hvt
      rw [Function.update_self, hmine]
      refine ⟨fun hin => (hout hin).elim, fun hfs => ?_⟩
      rcases hu with rfl | rfl | rfl
      · exact Option.some.inj hfs
      · exact Option.some.inj hfs
      · cases hfs
    · rw [Function.update_of_ne hvt]
      by_cases htold : stage v = .told
      · rw [htold]
        exact Stage.tells_told _ _
      · rw [h.trail_eq hpro (hdeeds v hvt) (hlog v hvt) htold]
        refine ⟨fun hin => ?_, h.handled⟩
        rw [hslot, hhandled]
        exact h.slot hin
  have hcases {v : TaskId} {run : Nat} {held : Option String}
      (hv : Function.update stage t u v = .inside run held) : stage v = .inside run held := by
    by_cases hvt : v = t
    · rw [hvt, Function.update_self] at hv
      exact (hout hv).elim
    · rwa [Function.update_of_ne hvt] at hv
  refine ⟨fun {v q w'} hv hq => ?_, fun {v b k} hv hb => ?_, fun {v} hv => ?_, (htells _).within,
    (htells _).known, fun hv hx => h.sole (hcases hv) (hcases hx)⟩
  · by_cases hvt : v = t
    · subst hvt
      cases hq.symm.trans hnew
      rwa [Function.update_self]
    · rw [Function.update_of_ne hvt]
      exact h.obeys hv ((hothers v hvt).symm.trans hq)
  · by_cases hvt : v = t
    · subst hvt
      cases hb.symm.trans hnew
    · rw [Function.update_of_ne hvt]
      exact h.ends hv ((hothers v hvt).symm.trans hb)
  · by_cases hvt : v = t
    · subst hvt
      rcases hv with hnone | hv
      · cases hnone.symm.trans hnew
      · cases hv.symm.trans hrole
    · rw [Function.update_of_ne hvt]
      exact h.idle (hv.imp_left fun hnone => (hothers v hvt).symm.trans hnone)

end Staged

/-- When no task that is no branch begins and none is answered, the stages stay as they are. -/
theorem Advanced.still (hdeeds : ∀ t, deedsOf t log = [])
    (hnew : ∀ t, t.role = .owner → o.task? t = none ∨ Restarted t log → (o'.task? t).isSome → False) :
    o.Advanced log o' first stage stage :=
  ⟨fun {t} _ _ => hdeeds t ▸ .start _, fun hrole hbegun hsome => (hnew _ hrole hbegun hsome).elim⟩

theorem Advanced.begins {u : Stage} (hdeeds : ∀ v, v ≠ t → deedsOf v log = [])
    (hlog : (o.task? t).isSome → Restarted t log) (hothers : ∀ v, v ≠ t → o'.task? v = o.task? v)
    (hrestarted : ∀ v, v ≠ t → ¬ Restarted v log) (hu : first t = u) :
    o.Advanced log o' first stage (Function.update stage t u) := by
  refine ⟨fun {v} hv hr => ?_, fun {v} _ hbegun hv => ?_⟩
  · by_cases hvt : v = t
    · subst hvt
      exact absurd (hlog hv) hr
    · rw [Function.update_of_ne hvt, hdeeds v hvt]
      exact .start _
  · by_cases hvt : v = t
    · subst hvt
      rw [Function.update_self, hu]
    · have hnone := hbegun.resolve_right (hrestarted v hvt)
      rw [hothers v hvt, hnone] at hv
      cases hv

/-- A move that concerns no task leaves all of them at their stages. -/
theorem Staged.unmoved (h : o.Staged stage trail) (hpro : o.Prolongs [] o' trail trail')
    (ht : ∀ t, o'.task? t = o.task? t) (hruns : o'.runs = o.runs) :
    o'.Staged stage trail' ∧ o.Advanced [] o' first stage stage := by
  have hslot (run : Nat) : o'.slot run = o.slot run := by
    rw [Outline.slot, hruns, Outline.slot]
  have hhandled (run : Nat) : o'.handled? run = o.handled? run := by
    rw [Outline.handled?, Outline.journal?, hruns, Outline.handled?, Outline.journal?]
  refine ⟨h.still hpro (fun _ => rfl) List.not_mem_nil (fun t p w hp _ => ⟨w, ht t ▸ hp⟩)
    (fun t a k hk hrole => h.ends hrole (ht t ▸ hk)) (fun t => (ht t ▸ id)) hslot
    (fun run fs => hhandled run ▸ id), .still (fun _ => rfl) fun t _ hnew hsome => ?_⟩
  rw [ht t, hnew.resolve_right (restarted_nil t)] at hsome
  cases hsome

theorem Staged.finish (h : o.Staged stage trail) {a : t.Result}
    (active : o.task? t = some (.active (.pure a) w)) (order : Nat)
    (hpro : o.Prolongs [.ended t] { o.setTask t (.ended a order) with running := none } trail trail') :
    Staged { o.setTask t (.ended a order) with running := none } stage trail' ∧
      o.Advanced [.ended t] { o.setTask t (.ended a order) with running := none } first stage stage := by
  have hends (hrole : t.role = .owner) : Stage.Ends t (stage t) a := h.obeys hrole active
  have hsome (u : TaskId) := o.isSome_setTask t u (.ended a order)
  refine ⟨h.still hpro (fun _ => rfl) (by simp) (fun u p w' hp _ => ⟨w', ?_⟩)
    (fun u b k hb hrole => ?_) (fun u hu => ?_) (fun run => o.setTask_slot _ run) (fun run fs hfs => ?_),
    .still (fun _ => rfl) fun u _ hnew hu => ?_⟩
  · by_cases hut : u = t
    · subst hut
      cases o.eq_of_task?_setTask _ hp
    · exact (o.task?_setTask_of_ne _ hut).symm.trans hp
  · by_cases hut : u = t
    · subst hut
      cases o.eq_of_task?_setTask _ hb
      exact hends hrole
    · exact h.ends hrole ((o.task?_setTask_of_ne _ hut).symm.trans hb)
  · rw [← Option.isNone_iff_eq_none, ← Option.not_isSome] at hu ⊢
    exact (hsome u) ▸ hu
  · exact (congrArg _ (o.journal?_setTask _)).trans hfs
  · have hnone := hnew.resolve_right fun hr => by simp [Restarted] at hr
    have hu' := (hsome u).symm.trans hu
    rw [hnone] at hu'
    cases hu'

/-- A task that has to wait is still at its stage, and so are the others. -/
theorem Staged.wait (h : o.Staged stage trail) {next : e.Answer → Program t.Result} {w' : Wait}
    (active : o.task? t = some (.active (.perform e next) w)) (polls : o.Polls w o₁ e (.waiting w'))
    {before after : Machine} (hpro : o.Prolongs [.poll ⟨t, e, none, before, after⟩]
      { o₁.setTask t (.active (.perform e next) w') with running := none } trail trail') :
    Staged { o₁.setTask t (.active (.perform e next) w') with running := none } stage trail' ∧
      o.Advanced [.poll ⟨t, e, none, before, after⟩]
        { o₁.setTask t (.active (.perform e next) w') with running := none } first stage stage := by
  have hsome {u : TaskId} (hu : (o.task? u).isSome) :
      (o₁.setTask t (.active (.perform e next) w')).task? u ≠ none := by
    obtain ⟨state, hstate⟩ := Option.isSome_iff_exists.mp hu
    rw [← Option.isSome_iff_ne_none, isSome_setTask, polls.task? hstate]
    rfl
  have hbefore {u : TaskId} {state : TaskState u.Result} (hrole : u.role = .owner) (hut : u ≠ t)
      (hu : (o₁.setTask t (.active (.perform e next) w')).task? u = some state) :
      o.task? u = some state := by
    rw [task?_setTask_of_ne _ _ hut] at hu
    rcases polls.task?_or_born u with hsame | ⟨-, n, rfl⟩
    · exact hsame.symm.trans hu
    · cases hrole
  refine ⟨h.still hpro (fun _ => rfl) (by simp) (fun u p w₁ hp hrole => ?_)
    (fun u b k hb hrole => ?_) (fun u hu => ?_)
    (fun run => (Outline.setTask_slot _ _ run).trans (Stage.slot_of_waiting polls run))
    (fun run fs hfs => ?_), .still (fun _ => rfl) fun u hrole hnew hu => ?_⟩
  · by_cases hut : u = t
    · subst hut
      cases eq_of_task?_setTask _ _ hp
      exact ⟨w, active⟩
    · exact ⟨w₁, hbefore hrole hut hp⟩
  · by_cases hut : u = t
    · subst hut
      cases eq_of_task?_setTask _ _ hb
    · exact h.ends hrole (hbefore hrole hut hb)
  · by_contra hne
    exact hsome (Option.isSome_iff_ne_none.mpr hne) hu
  · have hnothing : e.entriesFor run = [] := by
      cases e with
      | note => exact polls.waits.elim
      | _ => simp [Effect.entriesFor, Effect.entries]
    have hkept := polls.handled? hfs
    rw [hnothing, List.filterMap_nil, List.append_nil] at hkept
    exact (congrArg _ (journal?_setTask _ _)).trans hkept
  · have hnone := hnew.resolve_right fun hr => by simp [Restarted] at hr
    obtain ⟨state, hstate⟩ := Option.isSome_iff_exists.mp hu
    by_cases hut : u = t
    · subst hut
      cases hnone.symm.trans active
    · cases hnone.symm.trans (hbefore hrole hut hstate)

theorem Staged.advances (h : o.Staged stage trail) (adv : o.Advances config log o')
    (hpro : o.Prolongs log o' trail trail')
    (hquiet : ∀ {t : TaskId} {e : Effect} {next : e.Answer → Program t.Result} {w : Wait},
      o.task? t = some (.active (.perform e next) w) → t.role = .branch → e.Modest)
    (hfirst : ∀ {t : TaskId} {p : Program t.Result}, t.role = .owner →
      o.task? t = none ∨ Restarted t log → o'.task? t = some (.active p .fresh) →
        (first t).First ∧ p.Obeys Stage.protocol (Stage.Ends t) (first t)) :
    ∃ stage', o'.Staged stage' trail' ∧ o.Advanced log o' first stage stage' := by
  cases adv with
  | pick t idle => exact ⟨stage, h.unmoved hpro (fun _ => rfl) rfl⟩
  | cancel tokens idle => exact ⟨stage, h.unmoved hpro (fun _ => rfl) rfl⟩
  | stop running inactive => exact ⟨stage, h.unmoved hpro (fun _ => rfl) rfl⟩
  | finish running active order => exact ⟨stage, h.finish active order hpro⟩
  | @answer t e next w a before after running active start polls =>
      refine ⟨_, h.answer active (hquiet active) polls hpro, fun {u} hu _ => ?_, fun {u} _ hnew hu => ?_⟩
      · by_cases hut : u = t
        · subst hut
          rw [Function.update_self]
          simpa [deedsOf] using Protocol.Path.deed (Stage.moves_after polls (stage u)) (.start _)
        · rw [Function.update_of_ne hut]
          simp [deedsOf, Ne.symm hut]
      · have hnone := hnew.resolve_right fun hr => by simp [Restarted] at hr
        rw [isSome_setTask, polls.task?_answered, hnone] at hu
        cases hu
  | wait running active start polls => exact ⟨stage, h.wait active polls hpro⟩
  | submit flow inputs token idle =>
      have hnew := o.task?_submit_self (.active (submitted config flow inputs token) .fresh)
      have hnone : o.task? (.submission o.submissions.length) = none := by simp [task?]
      have hothers (v : TaskId) := o.task?_submit_of_ne (u := v)
        (.active (submitted config flow inputs token) .fresh)
      obtain ⟨hu, hobeys⟩ := hfirst rfl (Or.inl hnone) hnew
      refine ⟨_, h.begins rfl hu hobeys hnew hothers (fun _ => rfl) (fun _ => rfl) hpro (fun _ _ => rfl)
        (fun _ _ => restarted_nil _) (hpro.begun (Or.inl hnone) hnew), .begins (fun _ _ => rfl)
        (fun hsome => ?_) hothers (fun _ _ => restarted_nil _) rfl⟩
      rw [hnone] at hsome
      cases hsome
  | @errand p idle ended errand =>
      have hothers (v : TaskId) := o.task?_main_of_ne (u := v) (.active p .fresh)
      have hrestarted : Restarted .main [.errand] := ⟨rfl, List.mem_singleton_self _⟩
      have hdeeds (v : TaskId) (hv : v ≠ .main) : deedsOf v [.errand] = [] := by simp [deedsOf, hv]
      have hlog (v : TaskId) (hv : v ≠ .main) : ¬ Restarted v [.errand] := fun hr => hv hr.1
      obtain ⟨hu, hobeys⟩ := @hfirst .main p rfl (Or.inr hrestarted) rfl
      exact ⟨_, h.begins (t := .main) rfl hu hobeys rfl hothers (fun _ => rfl) (fun _ => rfl) hpro hdeeds
        hlog (hpro.begun (t := .main) (Or.inr hrestarted) rfl),
        .begins hdeeds (fun _ => hrestarted) hothers hlog rfl⟩

end Outline

end FlowEngine
