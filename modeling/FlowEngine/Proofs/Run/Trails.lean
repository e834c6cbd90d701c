import FlowEngine.Proofs.Run.Results
import FlowEngine.Proofs.Run.Serenity
import FlowEngine.Proofs.Run.Unwinding

/-!
# What tasks wrote so far

The trail of a task holds the program that it began with and what was written since by the task
itself and by the branches that it waited for. When all answers are expected, what a task still has
to do ends a course of that program which begins with its trail.
-/
namespace FlowEngine

theorem Program.Course.unhandled {U : Role → Answers} {role : Role} {α : Type} {p : Program α}
    {entries : List Entry} {a : α}
    (hU : ∀ {e : Effect} {b : e.Answer}, U .branch e b → ∀ f, .handled f ∉ e.entries)
    (h : p.Course U role entries a) (hrole : role = .branch) :
    entries.filterMap Entry.handled? = [] := by
  induction h with
  | pure => rfl
  | @deed role _ e _ b _ _ expected _ ih =>
      subst hrole
      rw [List.filterMap_append, ih rfl, List.append_nil]
      refine List.filterMap_eq_nil_iff.mpr fun entry hentry => ?_
      cases entry with
      | handled f => exact absurd hentry (hU expected f)
      | _ => rfl
  | @join _ _ _ _ bs _ courses _ _ length _ _ ihb ih =>
      rw [List.filterMap_append, ih hrole, List.append_nil, List.filterMap_flatMap]
      refine List.flatMap_eq_nil_iff.mpr fun c hc => ?_
      obtain ⟨i, hi⟩ := List.getElem?_of_mem hc
      have hlt : i < bs.length := length ▸ (List.getElem?_eq_some_iff.mp hi).1
      exact ihb i _ c (List.getElem?_eq_getElem hlt) hi rfl

/-- The program that a task began with, and what was written since by it and by the branches that it
waited for. -/
structure Trail (t : TaskId) where
  origin : Program t.Result
  entries : List Entry

namespace Trail

variable {U : Role → Answers} {t : TaskId} {x : Trail t}

def new (p : Program t.Result) : Trail t := ⟨p, []⟩

def write (x : Trail t) (more : List Entry) : Trail t := { x with entries := x.entries ++ more }

@[simp] theorem write_nil (x : Trail t) : x.write [] = x := by
  rw [write, List.append_nil]

def handled (x : Trail t) : List Failure := x.entries.filterMap Entry.handled?

@[simp] theorem handled_new (p : Program t.Result) : (new p).handled = [] := rfl

@[simp] theorem handled_write (x : Trail t) (more : List Entry) :
    (x.write more).handled = x.handled ++ more.filterMap Entry.handled? :=
  List.filterMap_append

def Leads (U : Role → Answers) (x : Trail t) : TaskState t.Result → Prop
  | .active p _ => ∀ (later : List Entry) (a : t.Result), p.Course U t.role later a →
      x.origin.Course U t.role (x.entries ++ later) a
  | .ended a _ => x.origin.Course U t.role x.entries a

namespace Leads

theorem new (p : Program t.Result) (w : Wait) : (Trail.new p).Leads U (.active p w) := fun _ _ => id

theorem finish {a : t.Result} {w : Wait} (h : x.Leads U (.active (.pure a) w)) (order : Nat) :
    x.Leads U (.ended a order) := by
  have hcourse := h _ _ (.pure a)
  rwa [List.append_nil] at hcourse

variable {w w' : Wait}

theorem wait {p : Program t.Result} (h : x.Leads U (.active p w)) (w' : Wait) :
    x.Leads U (.active p w') := h

theorem deed {e : Effect} {next : e.Answer → Program t.Result} {a : e.Answer}
    (h : x.Leads U (.active (.perform e next) w)) (ha : U t.role e a) :
    (x.write e.entries).Leads U (.active (next a) w') := by
  intro later r hlater
  rw [write, List.append_assoc]
  exact h _ _ (.deed ha hlater)

theorem join {run : Nat} {group : Token} {bs : List Branch}
    {next : Except Failure (List BranchOutcome) → Program t.Result}
    {courses : List (List Entry × Except Failure Json)}
    (h : x.Leads U (.active (.perform (.join run .waitAll group bs) next) w))
    (length : courses.length = bs.length)
    (branches : ∀ (i : Nat) (b : Branch) (c : List Entry × Except Failure Json),
      bs[i]? = some b → courses[i]? = some c → b.program.Course U .branch c.1 c.2) :
    (x.write (courses.flatMap Prod.fst)).Leads U
      (.active (next (.ok (courses.map fun c => .ofExcept c.2))) w') := by
  intro later r hlater
  rw [write, List.append_assoc]
  exact h _ _ (.join length branches hlater)

end Leads

end Trail

namespace Outline

variable {U : Role → Answers} {o o' o₁ : Outline} {trail trail' : (t : TaskId) → Trail t} {t : TaskId}
  {config : Config} {log : List Occurrence}

def Does (o : Outline) (trail : (t : TaskId) → Trail t) (n : Nat) (b : Branch) : Prop :=
  n < o.branches.length ∧ (trail (.branch n)).origin = b.program

/-- What each task wrote so far leads to what it is at. The branches that a join waits for began with
the programs of its branches. -/
structure Traced (U : Role → Answers) (o : Outline) (trail : (t : TaskId) → Trail t) : Prop where
  leads {t : TaskId} {state : TaskState t.Result} :
    o.task? t = some state → (trail t).Leads U state
  joining {t : TaskId} {run : Nat} {policy : JoinPolicy} {group : Token} {bs : List Branch}
    {next : Except Failure (List BranchOutcome) → Program t.Result} {tasks : List Nat} :
    o.task? t = some (.active (.perform (.join run policy group bs) next) (.branches tasks)) →
      List.Forall₂ (o.Does trail) tasks bs

namespace Traced

theorem of_tasks (h : o.Traced U trail) (ht : ∀ t, o'.task? t = o.task? t) : o'.Traced U trail := by
  have hbranches : o'.branches = o.branches := List.ext_getElem? fun n => ht (.branch n)
  refine ⟨fun {t} => ht t ▸ h.leads, fun {t} _ _ _ _ _ _ hjoin => ?_⟩
  have hdoes := h.joining ((ht t).symm.trans hjoin)
  unfold Does at hdoes ⊢
  rwa [hbranches]

theorem setTask (h : o.Traced U trail) {more : List Entry} {state : TaskState t.Result}
    (hleads : ((trail t).write more).Leads U state)
    (hjoins : ∀ run policy group bs next tasks,
      state = .active (.perform (.join run policy group bs) next) (.branches tasks) →
        List.Forall₂ (o.Does trail) tasks bs) :
    (o.setTask t state).Traced U (Function.update trail t ((trail t).write more)) := by
  have hdoes {n : Nat} {b : Branch} (hn : o.Does trail n b) :
      (o.setTask t state).Does (Function.update trail t ((trail t).write more)) n b := by
    refine ⟨by rw [setTask_branches_length]; exact hn.1, ?_⟩
    by_cases hnt : TaskId.branch n = t
    · subst hnt
      rw [Function.update_self]
      exact hn.2
    · rw [Function.update_of_ne hnt]
      exact hn.2
  constructor
  · intro u state' hu
    by_cases hut : u = t
    · subst hut
      obtain rfl := o.eq_of_task?_setTask state hu
      rwa [Function.update_self]
    · rw [Function.update_of_ne hut]
      exact h.leads ((o.task?_setTask_of_ne state hut).symm.trans hu)
  · intro u run policy group bs next tasks hu
    by_cases hut : u = t
    · subst hut
      exact (hjoins _ _ _ _ _ _ (o.eq_of_task?_setTask state hu).symm).imp fun _ _ => hdoes
    · exact (h.joining ((o.task?_setTask_of_ne state hut).symm.trans hu)).imp fun _ _ => hdoes

/-- A task goes on without writing anything. -/
theorem goes (h : o.Traced U trail) {state : TaskState t.Result} (hleads : (trail t).Leads U state)
    (hjoins : ∀ run policy group bs next tasks,
      state = .active (.perform (.join run policy group bs) next) (.branches tasks) →
        List.Forall₂ (o.Does trail) tasks bs) : (o.setTask t state).Traced U trail := by
  have hset := h.setTask (show ((trail t).write []).Leads U state by rwa [Trail.write_nil]) hjoins
  rwa [Trail.write_nil, Function.update_eq_self] at hset

end Traced

def joined (o : Outline) (trail : (t : TaskId) → Trail t) (bs : List Branch) : (t : TaskId) → Trail t
  | .branch n =>
    if n < o.branches.length then trail (.branch n)
    else (bs[n - o.branches.length]?).elim (trail (.branch n)) fun b => .new b.program
  | .main => trail .main
  | .submission n => trail (.submission n)

theorem joined_of_some (bs : List Branch) (h : (o.task? t).isSome) :
    o.joined trail bs t = trail t := by
  cases t with
  | branch n =>
      obtain ⟨state, hstate⟩ := Option.isSome_iff_exists.mp h
      exact if_pos (List.getElem?_eq_some_iff.mp hstate).1
  | _ => rfl

theorem joined_born {bs : List Branch} {i : Nat} {b : Branch} (hb : bs[i]? = some b) :
    o.joined trail bs (.branch (o.branches.length + i)) = .new b.program := by
  simp only [joined, Nat.add_sub_cancel_left, hb, Option.elim_some]
  exact if_neg (Nat.not_lt.mpr (Nat.le_add_right _ _))

/-- A task that is there after the branches of a join have started was there before, or it is one of
them. -/
theorem spawn_cases (trail : (t : TaskId) → Trail t) {bs : List Branch} {state : TaskState t.Result}
    (ht : (o.spawn (bs.map Branch.program)).task? t = some state) : o.task? t = some state ∨
      o.task? t = none ∧ ∃ p, state = .active p .fresh ∧ o.joined trail bs t = .new p := by
  rcases task?_of_spawn ht with hold | ⟨i, b, hb, rfl, hstate⟩
  · exact Or.inl hold
  · refine Or.inr ⟨?_, b.program, eq_of_heq hstate, joined_born hb⟩
    exact List.getElem?_eq_none (Nat.le_add_right _ _)

namespace Traced

theorem spawn (h : o.Traced U trail) (bs : List Branch) :
    (o.spawn (bs.map Branch.program)).Traced U (o.joined trail bs) := by
  refine ⟨fun {t state} ht => ?_, fun {t run policy group bs' next tasks} ht => ?_⟩
  · rcases spawn_cases trail ht with hs | ⟨-, p, rfl, hnew⟩
    · rw [joined_of_some bs (Option.isSome_of_eq_some hs)]
      exact h.leads hs
    · rw [hnew]
      exact Trail.Leads.new p .fresh
  · rcases spawn_cases trail ht with hs | ⟨-, p, hstate, -⟩
    · refine (h.joining hs).imp fun n b hn => ⟨?_, ?_⟩
      · simp only [Outline.spawn, List.length_append]
        exact Nat.lt_add_right _ hn.1
      · rw [joined_of_some bs (by simpa [task?] using hn.1)]
        exact hn.2
    · cases hstate

theorem start (h : o.Traced U trail) {run : Nat} {policy : JoinPolicy} {group : Token}
    {bs : List Branch} {next : Except Failure (List BranchOutcome) → Program t.Result} {w : Wait}
    (active : o.task? t = some (.active (.perform (.join run policy group bs) next) w)) :
    ((o.spawn (bs.map Branch.program)).setTask t (.active (.perform (.join run policy group bs) next)
      (.branches (List.range' o.branches.length bs.length)))).Traced U (o.joined trail bs) := by
  refine (h.spawn bs).goes ?_ ?_
  · rw [joined_of_some bs (Option.isSome_of_eq_some active)]
    exact (h.leads active).wait _
  · rintro run' policy' group' bs' next' tasks hstate
    cases hstate
    refine List.forall₂_iff_get.mpr ⟨List.length_range', fun i hi hi' => ?_⟩
    rw [List.get_eq_getElem, List.get_eq_getElem, List.getElem_range', Nat.one_mul]
    refine ⟨?_, congrArg Trail.origin (joined_born (List.getElem?_eq_getElem hi'))⟩
    simp only [Outline.spawn, List.length_append, List.length_map]
    exact Nat.add_lt_add_left hi' _

theorem begins (h : o.Traced U trail) {p : Program t.Result} (ht : ∀ n, t ≠ .branch n)
    (hnew : o'.task? t = some (.active p .fresh))
    (hothers : ∀ u, u ≠ t → o'.task? u = o.task? u) (hbranches : o'.branches = o.branches) :
    o'.Traced U (Function.update trail t (.new p)) := by
  refine ⟨fun {u state} hu => ?_, fun {u run policy group bs next tasks} hu => ?_⟩
  · by_cases hut : u = t
    · subst hut
      obtain rfl := Option.some.inj (hu.symm.trans hnew)
      rw [Function.update_self]
      exact Trail.Leads.new p .fresh
    · rw [Function.update_of_ne hut]
      exact h.leads ((hothers u hut).symm.trans hu)
  · by_cases hut : u = t
    · subst hut
      cases hu.symm.trans hnew
    · refine (h.joining ((hothers u hut).symm.trans hu)).imp fun n b hn => ?_
      rw [Does, hbranches, Function.update_of_ne (ht n).symm]
      exact hn

theorem exists_courses (h : o.Traced U trail) {tasks : List Nat} {bs : List Branch}
    {outcomes : List BranchOutcome} (hdoes : List.Forall₂ (o.Does trail) tasks bs)
    (all : List.Forall₂ (fun n outcome => ∃ r k, o.branchResult? n = some (r, k) ∧
      outcome = .ofExcept r) tasks outcomes) :
    ∃ courses : List (List Entry × Except Failure Json),
      outcomes = courses.map (fun c => .ofExcept c.2) ∧
        List.Forall₂ (fun (b : Branch) c => b.program.Course U .branch c.1 c.2) bs courses := by
  induction hdoes generalizing outcomes with
  | nil =>
      cases all
      exact ⟨[], rfl, .nil⟩
  | @cons n b tasks bs hn _ ih =>
      obtain _ | ⟨⟨r, k, hr, rfl⟩, hall⟩ := all
      obtain ⟨courses, rfl, hcourses⟩ := ih hall
      have hcourse : (trail (.branch n)).Leads U (.ended r k) :=
        h.leads (branchResult?_eq_some.mp hr)
      exact ⟨((trail (.branch n)).entries, r) :: courses, rfl, .cons (hn.2 ▸ hcourse) hcourses⟩

end Traced

/-! ## Moves -/

def handledBy (t : TaskId) (log : List Occurrence) : List Failure :=
  (deedsOf t log).flatMap fun d => d.effect.entries.filterMap Entry.handled?

/-- The trails of tasks go on in a move. What a task notes there is in its trail afterwards, and tasks
that begin have a trail of their own. -/
structure Prolongs (o : Outline) (log : List Occurrence) (o' : Outline)
    (trail trail' : (t : TaskId) → Trail t) : Prop where
  kept {t : TaskId} : (o.task? t).isSome → ¬ Restarted t log →
    (trail' t).origin = (trail t).origin ∧ (trail' t).handled = (trail t).handled ++ handledBy t log
  begun {t : TaskId} {p : Program t.Result} {w : Wait} : o.task? t = none ∨ Restarted t log →
    o'.task? t = some (.active p w) → trail' t = .new p

/-- In a move without deeds of tasks the trails stay as they are. -/
theorem Prolongs.still (hdeeds : ∀ t, deedsOf t log = []) (hlog : .errand ∉ log)
    (htasks : ∀ t, (o'.task? t).isSome → (o.task? t).isSome) : o.Prolongs log o' trail trail := by
  refine ⟨fun {t} _ _ => ⟨rfl, ?_⟩, fun {t p w} hnew ht => ?_⟩
  · rw [handledBy, hdeeds t]
    exact (List.append_nil _).symm
  · have hsome := htasks t (Option.isSome_of_eq_some ht)
    rcases hnew with hnone | ⟨-, hm⟩
    · rw [hnone] at hsome
      cases hsome
    · exact absurd hm hlog

theorem Prolongs.answer {e : Effect} {a : e.Answer} {before after : Machine} {more : List Entry}
    (hmore : more.filterMap Entry.handled? = e.entries.filterMap Entry.handled?)
    (htasks : ∀ u, (o'.task? u).isSome = (o.task? u).isSome) :
    o.Prolongs [.poll ⟨t, e, some a, before, after⟩] o' trail
      (Function.update trail t ((trail t).write more)) := by
  refine ⟨fun {u} _ _ => ?_, fun {u p w} hnew hu => ?_⟩
  · by_cases hut : u = t
    · subst hut
      rw [Function.update_self]
      exact ⟨rfl, by simp [handledBy, deedsOf, hmore]⟩
    · rw [Function.update_of_ne hut]
      exact ⟨rfl, by simp [handledBy, deedsOf, Ne.symm hut]⟩
  · rcases hnew with hnone | ⟨-, hm⟩
    · have hsome := htasks u
      rw [hu, hnone] at hsome
      cases hsome
    · simp at hm

theorem Prolongs.start {bs : List Branch} (hdeeds : ∀ t, deedsOf t log = []) (hlog : .errand ∉ log)
    (ht : (o.task? t).isSome)
    (htasks : ∀ u, u ≠ t → o'.task? u = (o.spawn (bs.map Branch.program)).task? u) :
    o.Prolongs log o' trail (o.joined trail bs) := by
  refine ⟨fun {u} hu _ => ?_, fun {u p w} hnew hu => ?_⟩
  · rw [joined_of_some bs hu, handledBy, hdeeds u]
    exact ⟨rfl, (List.append_nil _).symm⟩
  · have hnone := hnew.resolve_right fun hr => hlog hr.2
    have hut : u ≠ t := by
      rintro rfl
      rw [hnone] at ht
      cases ht
    rcases spawn_cases trail ((htasks u hut).symm.trans hu) with hs | ⟨-, q, hstate, hjoined⟩
    · cases hnone.symm.trans hs
    · cases hstate
      exact hjoined

theorem Prolongs.begins {p : Program t.Result} (hdeeds : ∀ u, u ≠ t → deedsOf u log = [])
    (hlog : (o.task? t).isSome → Restarted t log)
    (hnew : o'.task? t = some (.active p .fresh)) (hothers : ∀ u, u ≠ t → o'.task? u = o.task? u)
    (hrestarted : ∀ u, u ≠ t → ¬ Restarted u log) :
    o.Prolongs log o' trail (Function.update trail t (.new p)) := by
  refine ⟨fun {u} hu hr => ?_, fun {u q w} hbegun hu => ?_⟩
  · by_cases hut : u = t
    · subst hut
      exact absurd (hlog hu) hr
    · rw [Function.update_of_ne hut, handledBy, hdeeds u hut]
      exact ⟨rfl, (List.append_nil _).symm⟩
  · by_cases hut : u = t
    · subst hut
      cases hu.symm.trans hnew
      rw [Function.update_self]
    · have hnone := hbegun.resolve_right (hrestarted u hut)
      cases (hothers u hut).symm.trans hu |>.symm.trans hnone

section

variable (hquiet : ∀ {e : Effect} {b : e.Answer}, U .branch e b → ∀ f, .handled f ∉ e.entries)
include hquiet

theorem Traced.answer (h : o.Traced U trail) {e : Effect} {next : e.Answer → Program t.Result}
    {w : Wait} {a : e.Answer} (active : o.task? t = some (.active (.perform e next) w))
    (polls : o.Polls w o₁ e (.answered a))
    (expected : U t.role e a ∨ ∃ run group bs, e = .join run .waitAll group bs) :
    ∃ more, ((trail t).write more).Leads U (.active (next a) .fresh) ∧
      more.filterMap Entry.handled? = e.entries.filterMap Entry.handled? := by
  rcases expected with ha | ⟨run, group, bs, rfl⟩
  · exact ⟨_, (h.leads active).deed ha, rfl⟩
  · simp only [Polls] at polls
    split at polls
    · cases polls with
      | failed fast => cases fast
      | completed _ all =>
          obtain ⟨courses, rfl, hcourses⟩ := h.exists_courses (h.joining active) all
          have hbranches (i : Nat) (b : Branch) (c : List Entry × Except Failure Json)
              (hb : bs[i]? = some b) (hc : courses[i]? = some c) :
              b.program.Course U .branch c.1 c.2 := by
            obtain ⟨hi, rfl⟩ := List.getElem?_eq_some_iff.mp hb
            obtain ⟨hi', rfl⟩ := List.getElem?_eq_some_iff.mp hc
            exact hcourses.get hi hi'
          refine ⟨courses.flatMap Prod.fst, ?_, ?_⟩
          · exact (h.leads active).join hcourses.length_eq.symm hbranches
          · rw [List.filterMap_flatMap]
            refine List.flatMap_eq_nil_iff.mpr fun c hc => ?_
            obtain ⟨i, hi⟩ := List.getElem?_of_mem hc
            have hlt : i < bs.length := hcourses.length_eq ▸ (List.getElem?_eq_some_iff.mp hi).1
            exact (hbranches i _ c (List.getElem?_eq_getElem hlt) hi).unhandled hquiet rfl
    · obtain ⟨-, ⟨ha, rfl⟩ | ⟨-, hturn⟩⟩ := polls
      · cases ha
        have hnone : ([] : List (List Entry × Except Failure Json)).length = 0 := rfl
        exact ⟨[], (h.leads active).join hnone (by simp), rfl⟩
      · cases hturn

/-- A move in which all answers are expected prolongs the trails of the tasks. -/
theorem Traced.advances (h : o.Traced U trail) (adv : o.Advances config log o')
    (hlog : AsExpected U log) :
    ∃ trail', o'.Traced U trail' ∧ o.Prolongs log o' trail trail' := by
  cases adv with
  | pick t idle =>
      exact ⟨trail, h.of_tasks fun _ => rfl, .still (fun _ => rfl) List.not_mem_nil fun _ => id⟩
  | cancel tokens idle =>
      exact ⟨trail, h.of_tasks fun _ => rfl, .still (fun _ => rfl) List.not_mem_nil fun _ => id⟩
  | stop running inactive =>
      exact ⟨trail, h.of_tasks fun _ => rfl, .still (fun _ => rfl) List.not_mem_nil fun _ => id⟩
  | @finish t a w running active order =>
      refine ⟨trail, (h.goes ((h.leads active).finish order) (by simp)).of_tasks fun _ => rfl,
        .still (fun _ => rfl) (by simp) fun u hu => ?_⟩
      exact (o.isSome_setTask t u _).symm.trans hu
  | @answer t e next w a before after running active start polls =>
      obtain ⟨more, hleads, hmore⟩ := h.answer hquiet active polls
        (hlog _ _ _ _ _ (List.mem_singleton_self _))
      have htraced : ((after.outline o.main).setTask t (.active (next a) .fresh)).Traced U _ :=
        (h.of_tasks polls.task?_answered).setTask hleads (by simp)
      refine ⟨_, htraced, .answer hmore fun u => ?_⟩
      rw [isSome_setTask, polls.task?_answered]
  | @wait t e next w w' before after running active start polls =>
      have hdelays := polls.delays
      generalize after.outline o.main = o₁ at polls hdelays ⊢
      cases hdelays with
      | @starts run policy group bs first some =>
          exact ⟨o.joined trail bs, (h.start active).of_tasks fun _ => rfl,
            .start (fun _ => rfl) (by simp) (Option.isSome_of_eq_some active)
              fun u hu => task?_setTask_of_ne _ _ hu⟩
      | keeps later =>
          subst later
          rw [setTask_same _ _ active]
          exact ⟨trail, h.of_tasks fun _ => rfl, .still (fun _ => rfl) (by simp) fun _ => id⟩
      | other ne_join =>
          have htraced : (o₁.setTask t (.active (.perform e next) w')).Traced U trail := by
            refine (h.of_tasks (polls.task?_of_ne_join ne_join)).goes ((h.leads active).wait w') ?_
            rintro run policy group bs next' tasks hstate
            cases hstate
            exact absurd rfl (ne_join _ _ _ _)
          refine ⟨trail, htraced.of_tasks fun _ => rfl, .still (fun _ => rfl) (by simp)
            fun u hu => ?_⟩
          rw [← polls.task?_of_ne_join ne_join]
          exact (isSome_setTask _ u _).symm.trans hu
  | submit flow inputs token idle =>
      have hothers (u : TaskId) := o.task?_submit_of_ne (u := u)
        (.active (Execution.submitted config flow inputs token) .fresh)
      refine ⟨_, h.begins (by simp) (o.task?_submit_self _) hothers rfl,
        .begins (fun _ _ => rfl) (fun hsome => ?_) (o.task?_submit_self _) hothers
          fun _ _ => restarted_nil _⟩
      simp [task?] at hsome
  | @errand p idle ended errand =>
      have hothers (u : TaskId) := o.task?_main_of_ne (u := u) (.active p .fresh)
      exact ⟨_, h.begins (by simp) rfl hothers rfl,
        .begins (fun u hu => by simp [deedsOf, hu]) (fun _ => ⟨rfl, List.mem_singleton_self _⟩) rfl
          hothers fun u hu hr => hu hr.1⟩

end

end Outline
end FlowEngine
