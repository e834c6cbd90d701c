import FlowEngine.Proofs.Program.Alone
import FlowEngine.Proofs.Run.Joins
import Mathlib.Data.List.Nodup

/-!
# What tasks write and come to

A part of a session is read from its end to its beginning. When nothing is disturbed in it, each
task that has ended in it did from every moment on what its program does alone, where the entries
of the branches of a join are taken to be written when the join starts. So what all tasks wrote is,
up to order, what the programs write that there were at the beginning.
-/
namespace FlowEngine

def written (log : List Occurrence) : List Entry :=
  log.flatMap fun
    | .poll ⟨_, e, some _, _, _⟩ => e.entries
    | _ => []

theorem written_append (log more : List Occurrence) :
    written (log ++ more) = written log ++ written more :=
  List.flatMap_append

def Undisturbed (reply : Request → Outcome) (log : List Occurrence) : Prop :=
  ∀ t e a before after, .poll ⟨t, e, some a, before, after⟩ ∈ log →
    e.Undisturbed reply a ∨ ∃ run group bs, e = .join run .waitAll group bs

namespace Outline

variable {reply : Request → Outcome} {final o o' : Outline} {config : Config}
  {log more : List Occurrence} {t : TaskId}

/-! ## The tasks of an outline -/

def crew (o : Outline) : List TaskId :=
  .main :: ((List.range o.submissions.length).map .submission ++
    (List.range o.branches.length).map .branch)

theorem nodup_crew (o : Outline) : o.crew.Nodup := by
  have hsubmissions : ((List.range o.submissions.length).map TaskId.submission).Nodup :=
    List.nodup_range.map fun _ _ => TaskId.submission.inj
  have hbranches : ((List.range o.branches.length).map TaskId.branch).Nodup :=
    List.nodup_range.map fun _ _ => TaskId.branch.inj
  refine List.nodup_cons.mpr ⟨by simp, List.nodup_append'.mpr ⟨hsubmissions, hbranches, ?_⟩⟩
  intro u hu hu'
  obtain ⟨n, -, rfl⟩ := List.mem_map.mp hu
  obtain ⟨m, -, h⟩ := List.mem_map.mp hu'
  cases h

theorem mem_crew (h : (o.task? t).isSome) : t ∈ o.crew := by
  cases t with
  | main => exact List.mem_cons_self
  | branch n =>
      obtain ⟨state, hstate⟩ := Option.isSome_iff_exists.mp h
      have hn : n < o.branches.length := (List.getElem?_eq_some_iff.mp hstate).1
      simp [crew, hn]
  | submission n =>
      obtain ⟨state, hstate⟩ := Option.isSome_iff_exists.mp h
      have hn : n < o.submissions.length := (List.getElem?_eq_some_iff.mp hstate).1
      simp [crew, hn]

theorem crew_setTask (o : Outline) (t : TaskId) (state : TaskState t.Result) :
    (o.setTask t state).crew = o.crew := by
  cases t <;> simp [crew, setTask]

theorem crew_of_tasks (h : ∀ t, o'.task? t = o.task? t) : o'.crew = o.crew := by
  have hsubmissions : o'.submissions = o.submissions :=
    List.ext_getElem? fun n => h (.submission n)
  have hbranches : o'.branches = o.branches := List.ext_getElem? fun n => h (.branch n)
  rw [crew, hsubmissions, hbranches, crew]

theorem crew_spawn (o : Outline) (programs : List (Program (Except Failure Json))) :
    (o.spawn programs).crew =
      o.crew ++ (List.range' o.branches.length programs.length).map .branch := by
  have hrange : List.range (o.branches.length + programs.length) =
      List.range o.branches.length ++ List.range' o.branches.length programs.length := by
    rw [List.range_eq_range', List.range_eq_range', ← List.range'_append_1, Nat.zero_add]
  simp only [crew, spawn, List.length_append, List.length_map, hrange, List.map_append,
    List.cons_append, List.append_assoc]

theorem flatMap_update_perm {l : List TaskId} (hl : l.Nodup) (ht : t ∈ l)
    (entries : TaskId → List Entry) (more : List Entry) :
    (l.flatMap (Function.update entries t (more ++ entries t))).Perm (more ++ l.flatMap entries) := by
  obtain ⟨l₁, l₂, rfl⟩ := List.append_of_mem ht
  rw [List.nodup_middle, List.nodup_cons, List.mem_append] at hl
  have hsame {k : List TaskId} (hk : t ∉ k) :
      k.flatMap (Function.update entries t (more ++ entries t)) = k.flatMap entries :=
    List.flatMap_congr fun u hu => Function.update_of_ne (ne_of_mem_of_not_mem hu hk) _ _
  rw [List.flatMap_append, List.flatMap_append, List.flatMap_cons, List.flatMap_cons,
    hsame fun h => hl.1 (Or.inl h), hsame fun h => hl.1 (Or.inr h), Function.update_self,
    List.append_assoc]
  exact List.perm_append_comm_assoc _ _ _

/-! ## What is left to do -/

/-- What a task has still to write before it comes to a result, when branches come to the results
that they have in a later outline. -/
inductive Rest (reply : Request → Outcome) (final : Outline) {α : Type} :
    TaskState α → List Entry → α → Prop where
  | ended (a : α) (order : Nat) : Rest reply final (.ended a order) [] a
  | alone {p : Program α} {w : Wait} {entries : List Entry} {a : α}
      (begins : ∀ run policy group bs next, p = .perform (.join run policy group bs) next →
        ∀ tasks, w ≠ .branches tasks)
      (h : p.Alone reply entries a) : Rest reply final (.active p w) entries a
  | joining {run : Nat} {group : Token} {bs : List Branch}
      {next : Except Failure (List BranchOutcome) → Program α} {tasks : List Nat}
      {results : List (Except Failure Json)} {entries : List Entry} {a : α}
      (branches : List.Forall₂ (fun n r => ∃ k, final.branchResult? n = some (r, k)) tasks results)
      (rest : (next (.ok (results.map .ofExcept))).Alone reply entries a) :
      Rest reply final (.active (.perform (.join run .waitAll group bs) next) (.branches tasks))
        entries a

theorem Rest.of_fresh {α : Type} {p : Program α} {entries : List Entry} {a : α}
    (h : Rest reply final (.active p .fresh) entries a) : p.Alone reply entries a := by
  cases h with
  | alone _ h => exact h

/-- From an outline on, each task that has ended later writes its entries, and together they are
those of the log. -/
structure Unwound (reply : Request → Outcome) (final : Outline) (log : List Occurrence)
    (o : Outline) (entries : TaskId → List Entry) : Prop where
  rest {t : TaskId} {state : TaskState t.Result} {a : t.Result} {k : Nat} :
    o.task? t = some state → final.task? t = some (.ended a k) → Rest reply final state (entries t) a
  perm : final.submissions.length ≤ o.submissions.length →
    (o.crew.flatMap entries).Perm (written log)

theorem unwound_final (reply : Request → Outcome) (o : Outline) :
    Unwound reply o [] o fun _ => [] where
  rest ht ht' := by
    rw [ht] at ht'
    cases ht'
    exact .ended _ _
  perm _ := by simp [written]

theorem results_of_outcomes {tasks : List Nat} {outcomes : List BranchOutcome}
    (h : List.Forall₂ (fun n outcome => ∃ r k, o.branchResult? n = some (r, k) ∧
      outcome = .ofExcept r) tasks outcomes)
    (hkept : ∀ n r k, o.branchResult? n = some (r, k) → final.branchResult? n = some (r, k)) :
    ∃ results : List (Except Failure Json), outcomes = results.map .ofExcept ∧
      List.Forall₂ (fun n r => ∃ k, final.branchResult? n = some (r, k)) tasks results := by
  induction h with
  | nil => exact ⟨[], rfl, .nil⟩
  | cons head _ ih =>
      obtain ⟨r, k, hr, rfl⟩ := head
      obtain ⟨results, rfl, hresults⟩ := ih
      exact ⟨r :: results, rfl, .cons ⟨k, hkept _ _ _ hr⟩ hresults⟩

theorem Advances.submissions_le (h : o.Advances config more o') :
    o.submissions.length ≤ o'.submissions.length := by
  have hset (o : Outline) (t : TaskId) (state : TaskState t.Result) :
      (o.setTask t state).submissions.length = o.submissions.length := by
    cases t <;> simp [setTask]
  cases h with
  | finish running active order => exact Nat.le_of_eq (hset _ _ _).symm
  | answer running active start polls =>
      rw [hset]
      exact Nat.le_of_eq (congrArg List.length polls.tasks.2.2.1).symm
  | wait running active start polls =>
      refine Nat.le_of_eq (Eq.trans ?_ (hset _ _ _).symm)
      rw [polls.tasks.2.2.1]
  | submit => simp
  | _ => exact Nat.le_refl _

theorem submissions_setTask (o : Outline) (t : TaskId) (state : TaskState t.Result) :
    (o.setTask t state).submissions.length = o.submissions.length := by
  cases t <;> simp [setTask]

variable {entries : TaskId → List Entry}

theorem Unwound.of_running {running : Option TaskId}
    (h : Unwound reply final log { o with running } entries) : Unwound reply final log o entries :=
  ⟨h.rest, h.perm⟩

/-- What comes before a move in which one task writes something first. -/
theorem Unwound.writes {first : List Entry} (h : Unwound reply final log o' entries)
    (ht : (o.task? t).isSome)
    (htasks : ∀ u state, u ≠ t → o.task? u = some state → o'.task? u = some state)
    (hself : ∀ state a k, o.task? t = some state → final.task? t = some (.ended a k) →
      Rest reply final state (first ++ entries t) a)
    (hperm : final.submissions.length ≤ o.submissions.length →
      (first ++ o.crew.flatMap entries).Perm (written (more ++ log))) :
    Unwound reply final (more ++ log) o (Function.update entries t (first ++ entries t)) where
  rest {u state a k} hu hended := by
    by_cases hut : u = t
    · subst hut
      rw [Function.update_self]
      exact hself state a k hu hended
    · rw [Function.update_of_ne hut]
      exact h.rest (htasks u state hut hu) hended
  perm hle := (flatMap_update_perm o.nodup_crew (mem_crew ht) entries first).trans (hperm hle)

/-- What comes before the end of a task. -/
theorem Unwound.finish {a : t.Result} {w : Wait} {order : Nat}
    (h : Unwound reply final log (o.setTask t (.ended a order)) entries)
    (active : o.task? t = some (.active (.pure a) w)) :
    Unwound reply final ([.ended t] ++ log) o (Function.update entries t ([] ++ entries t)) := by
  have hsome := Option.isSome_of_eq_some active
  refine h.writes hsome (fun u state hut hu => (o.task?_setTask_of_ne _ hut).trans hu)
    (fun state b k ht hended => ?_) fun hle => ?_
  · rw [active] at ht
    cases ht
    have hrest := h.rest (o.task?_setTask_self _ hsome) hended
    generalize entries t = es at hrest
    cases hrest
    exact .alone nofun (.pure a)
  · have hperm := h.perm (o.submissions_setTask t _ ▸ hle)
    rwa [crew_setTask] at hperm

/-- What comes before the answer to an effect. -/
theorem Unwound.answer {o₁ : Outline} {e : Effect} {next : e.Answer → Program t.Result} {w : Wait}
    {a : e.Answer} {before after : Machine}
    (h : Unwound reply final log (o₁.setTask t (.active (next a) .fresh)) entries)
    (active : o.task? t = some (.active (.perform e next) w)) (polls : o.Polls w o₁ e (.answered a))
    (hquiet : e.Undisturbed reply a ∨ ∃ run group bs, e = .join run .waitAll group bs)
    (hkept : ∀ n r k, o.branchResult? n = some (r, k) → final.branchResult? n = some (r, k)) :
    Unwound reply final ([.poll ⟨t, e, some a, before, after⟩] ++ log) o
      (Function.update entries t (e.entries ++ entries t)) := by
  have hsome := Option.isSome_of_eq_some active
  have htask (u : TaskId) : o₁.task? u = o.task? u := polls.task?_answered u
  refine h.writes hsome (fun u state hut hu => ?_) (fun state b k ht hended => ?_) fun hle => ?_
  · rw [o₁.task?_setTask_of_ne _ hut, htask, hu]
  · rw [active] at ht
    cases ht
    have hrest := (h.rest (o₁.task?_setTask_self _ (by rw [htask]; exact hsome)) hended).of_fresh
    rcases hquiet with hundisturbed | ⟨run, group, bs, rfl⟩
    · refine .alone ?_ (.deed hundisturbed hrest)
      rintro run policy group bs next' ⟨⟩
      exact hundisturbed.elim
    · simp only [Polls] at polls
      split at polls
      · cases polls with
        | failed fast first => cases fast
        | completed quiet all =>
            obtain ⟨results, rfl, hresults⟩ := results_of_outcomes all hkept
            exact .joining hresults hrest
      · rename_i hw
        obtain ⟨-, ⟨ha, rfl⟩ | ⟨-, hturn⟩⟩ := polls
        · cases ha
          exact .alone (fun _ _ _ _ _ _ => hw) (@Program.Alone.join _ _ _ _ _ _ [] _ _ rfl (by simp) hrest)
        · cases hturn
  · have hperm := h.perm (o₁.submissions_setTask t _ ▸ polls.tasks.2.2.1 ▸ hle)
    rw [crew_setTask, crew_of_tasks htask] at hperm
    rw [written_append]
    simpa [written] using hperm.append_left e.entries

theorem Rest.waits {α : Type} {e : Effect} {next : e.Answer → Program α} {w w' : Wait}
    {later : List Entry} {a : α} (h : Rest reply final (.active (.perform e next) w') later a)
    (he : ∀ run policy group bs, e ≠ .join run policy group bs) :
    Rest reply final (.active (.perform e next) w) later a := by
  cases h with
  | alone begins h =>
      refine .alone ?_ h
      rintro run policy group bs next' ⟨⟩
      exact absurd rfl (he run policy group bs)
  | joining => exact absurd rfl (he _ _ _ _)

/-- What comes before a turn in which a task goes on waiting. -/
theorem Unwound.waits {o₁ : Outline} {e : Effect} {next : e.Answer → Program t.Result} {w w' : Wait}
    {before after : Machine}
    (h : Unwound reply final log (o₁.setTask t (.active (.perform e next) w')) entries)
    (active : o.task? t = some (.active (.perform e next) w))
    (htask : ∀ u, o₁.task? u = o.task? u)
    (hw : w' = w ∨ ∀ run policy group bs, e ≠ .join run policy group bs) :
    Unwound reply final ([.poll ⟨t, e, none, before, after⟩] ++ log) o
      (Function.update entries t ([] ++ entries t)) := by
  have hsome := Option.isSome_of_eq_some active
  refine h.writes hsome (fun u state hut hu => ?_) (fun state b k ht hended => ?_) fun hle => ?_
  · rw [o₁.task?_setTask_of_ne _ hut, htask, hu]
  · rw [active] at ht
    cases ht
    have hrest := h.rest (o₁.task?_setTask_self _ (by rw [htask]; exact hsome)) hended
    rcases hw with rfl | hw
    · exact hrest
    · exact hrest.waits hw
  · have hsubs : o₁.submissions = o.submissions := List.ext_getElem? fun n => htask (.submission n)
    have hperm := h.perm (by rwa [submissions_setTask, hsubs])
    rw [crew_setTask, crew_of_tasks htask] at hperm
    simpa [written] using hperm

/-- Branches that have just started do alone what they do until they end. -/
theorem Unwound.branch (h : Unwound reply final log o entries) {n k : Nat} {b : Branch}
    {r : Except Failure Json} (hb : o.task? (.branch n) = some (.active b.program .fresh))
    (hr : final.branchResult? n = some (r, k)) : b.program.Alone reply (entries (.branch n)) r :=
  (h.rest hb (branchResult?_eq_some.mp hr)).of_fresh

/-- A join whose branches have just started does alone what it and its branches do. -/
theorem Unwound.join {run first : Nat} {group : Token} {bs : List Branch}
    {next : Except Failure (List BranchOutcome) → Program t.Result}
    {results : List (Except Failure Json)} {later : List Entry} {a : t.Result}
    (h : Unwound reply final log o entries)
    (hstart : ∀ i b, bs[i]? = some b → o.task? (.branch (first + i)) = some (.active b.program .fresh))
    (hresults : List.Forall₂ (fun n r => ∃ k, final.branchResult? n = some (r, k))
      (List.range' first bs.length) results)
    (hrest : (next (.ok (results.map .ofExcept))).Alone reply later a) :
    (Program.perform (.join run .waitAll group bs) next).Alone reply
      (((List.range' first bs.length).flatMap fun n => entries (.branch n)) ++ later) a := by
  have hlength : results.length = bs.length := by
    rw [← hresults.length_eq, List.length_range']
  let courses := ((List.range' first bs.length).map fun n => entries (.branch n)).zip results
  have hfst : courses.map Prod.fst = (List.range' first bs.length).map fun n => entries (.branch n) :=
    List.map_fst_zip (by simp [hlength])
  have hsnd : courses.map Prod.snd = results := List.map_snd_zip (by simp [hlength])
  have hbranches (i : Nat) (b : Branch) (c : List Entry × Except Failure Json) (hb : bs[i]? = some b)
      (hc : courses[i]? = some c) : b.program.Alone reply c.1 c.2 := by
    have hi := (List.getElem?_eq_some_iff.mp hb).1
    obtain ⟨hc₁, hc₂⟩ := List.getElem?_zip_eq_some.mp hc
    obtain ⟨hi', hr⟩ := List.getElem?_eq_some_iff.mp hc₂
    obtain ⟨k, hk⟩ := hresults.get (by rwa [List.length_range']) hi'
    rw [List.get_eq_getElem, List.getElem_range', Nat.one_mul] at hk
    rw [List.getElem?_map, List.getElem?_range' hi, Nat.one_mul] at hc₁
    rw [← Option.some.inj hc₁, ← hr]
    exact h.branch (hstart i b hb) hk
  have hjoin : (Program.perform (.join run .waitAll group bs) next).Alone reply
      (courses.flatMap Prod.fst ++ later) a := by
    refine .join (by simp [courses, hlength]) hbranches ?_
    rw [← hsnd, List.map_map] at hrest
    exact hrest
  rwa [List.flatMap_def, hfst, ← List.flatMap_def] at hjoin

/-- What comes before the turn in which a join starts its branches. -/
theorem Unwound.start {run : Nat} {policy : JoinPolicy} {group : Token} {bs : List Branch}
    {next : Except Failure (List BranchOutcome) → Program t.Result} {w : Wait}
    {before after : Machine} (h : Unwound reply final log ((o.spawn (bs.map Branch.program)).setTask t
      (.active (.perform (.join run policy group bs) next)
        (.branches (List.range' o.branches.length bs.length)))) entries)
    (active : o.task? t = some (.active (.perform (.join run policy group bs) next) w))
    (hw : ∀ tasks, w ≠ .branches tasks) :
    Unwound reply final ([.poll ⟨t, .join run policy group bs, none, before, after⟩] ++ log) o
      (Function.update entries t
        (((List.range' o.branches.length bs.length).flatMap fun n => entries (.branch n)) ++
          entries t)) := by
  have hsome := Option.isSome_of_eq_some active
  have htask {u : TaskId} {state : TaskState u.Result} (hu : o.task? u = some state) :
      (o.spawn (bs.map Branch.program)).task? u = some state := task?_spawn_of_some hu
  refine h.writes hsome (fun u state hut hu => ?_) (fun state b k ht hended => ?_) fun hle => ?_
  · rw [task?_setTask_of_ne _ _ hut, htask hu]
  · rw [active] at ht
    cases ht
    have hrest := h.rest (task?_setTask_self _ _ (Option.isSome_of_eq_some (htask active))) hended
    generalize entries t = later at hrest
    cases hrest with
    | alone begins h => exact absurd rfl (begins _ _ _ _ _ rfl _)
    | joining hresults hrest =>
        refine .alone (fun _ _ _ _ _ _ => hw) (h.join (fun i b hb => ?_) hresults hrest)
        have hne : TaskId.branch (o.branches.length + i) ≠ t := by
          rintro rfl
          have := (List.getElem?_eq_some_iff.mp active).1
          omega
        exact (task?_setTask_of_ne _ _ hne).trans (task?_spawn hb)
  · have hperm := h.perm (by rw [submissions_setTask]; exact hle)
    rw [crew_setTask, crew_spawn, List.flatMap_append, List.length_map, List.flatMap_map] at hperm
    have hwritten : written [.poll ⟨t, .join run policy group bs, none, before, after⟩] = [] := by
      simp [written]
    rw [written_append, hwritten]
    exact List.perm_append_comm.trans hperm

/-- Before a move in which nothing is disturbed, each task has to write what it writes in the move
and what it has to write afterwards. -/
theorem Unwound.before (h : Unwound reply final log o' entries) (adv : o.Advances config more o')
    (hquiet : Undisturbed reply more) (hno : .errand ∉ more)
    (hkept : ∀ n r k, o.branchResult? n = some (r, k) → final.branchResult? n = some (r, k))
    (hle : o'.submissions.length ≤ final.submissions.length) :
    ∃ entries, Unwound reply final (more ++ log) o entries := by
  cases adv with
  | pick t idle => exact ⟨entries, h.of_running⟩
  | cancel tokens idle => exact ⟨entries, h.rest, h.perm⟩
  | stop running inactive => exact ⟨entries, h.of_running⟩
  | finish running active order => exact ⟨_, h.of_running.finish active⟩
  | answer running active start polls =>
      exact ⟨_, h.answer active polls (hquiet _ _ _ _ _ (List.mem_singleton_self _)) hkept⟩
  | @wait t e next w w' before after running active start polls =>
      have hdelays := polls.delays
      generalize hafter : after.outline o.main = o₁ at h polls hdelays
      cases hdelays with
      | starts first some => exact ⟨_, h.of_running.start active first⟩
      | keeps later =>
          subst later
          exact ⟨_, h.of_running.waits active (fun u => rfl) (Or.inl rfl)⟩
      | other ne_join =>
          exact ⟨_, h.of_running.waits active (polls.task?_of_ne_join ne_join) (Or.inr ne_join)⟩
  | submit flow inputs token idle =>
      refine ⟨entries, fun {t state a k} ht hended => h.rest ?_ hended, fun hle' => ?_⟩
      · exact task?_submit_of_some ht _
      · simp only [List.length_append, List.length_singleton] at hle
        omega
  | errand idle ended errand => exact absurd (List.mem_singleton_self _) hno

end Outline

theorem System.Reaches.submissions_le {config : Config} {log : List Occurrence}
    {s s' : System RunResult} (h : s.Reaches config log s') :
    s.outline.submissions.length ≤ s'.outline.submissions.length := by
  induction h with
  | refl => exact Nat.le_refl _
  | move _ move ih => exact Nat.le_trans ih move.advances.submissions_le

/-- In an undisturbed part of a session each task does what its program does alone, and what all of
them write is what is written in the log, up to order. -/
theorem System.Reaches.unwound {reply : Request → Outcome} {config : Config} {log : List Occurrence}
    {s s' : System RunResult} (h : s.Reaches config log s') (hquiet : Undisturbed reply log)
    (hno : .errand ∉ log) :
    ∃ entries, Outline.Unwound reply s'.outline log s.outline entries := by
  suffices hgoal : ∀ {later final}, s'.Reaches config later final → ∀ entries,
      Outline.Unwound reply final.outline later s'.outline entries →
      ∃ entries, Outline.Unwound reply final.outline (log ++ later) s.outline entries by
    obtain ⟨entries, hentries⟩ := hgoal .refl _ (Outline.unwound_final reply s'.outline)
    rw [List.append_nil] at hentries
    exact ⟨entries, hentries⟩
  induction h with
  | refl => exact fun _ entries h => ⟨entries, h⟩
  | @move log more t u before move ih =>
      intro later final hlater entries h
      have hquiet' : Undisturbed reply more := fun _ _ _ _ _ hm =>
        hquiet _ _ _ _ _ (List.mem_append_right _ hm)
      have hkept (n : Nat) (r : Except Failure Json) (k : Nat)
          (hr : t.outline.branchResult? n = some (r, k)) : final.outline.branchResult? n = some (r, k) := by
        rw [Outline.branchResult?_eq_some, task?_outline] at hr ⊢
        exact ((Reaches.single move).trans hlater).branch_ended hr
      obtain ⟨entries', h'⟩ := h.before move.advances hquiet'
        (fun hm => hno (List.mem_append_right _ hm)) hkept hlater.submissions_le
      rw [List.append_assoc]
      exact ih (fun _ _ _ _ _ hm => hquiet _ _ _ _ _ (List.mem_append_left _ hm))
        (fun hm => hno (List.mem_append_left _ hm)) ((Reaches.single move).trans hlater) entries' h'

end FlowEngine
