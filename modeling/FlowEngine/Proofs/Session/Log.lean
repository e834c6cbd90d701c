import FlowEngine.Proofs.Machine.Advance
import FlowEngine.Proofs.Program.History

/-!
# Logs of sessions

A log splits into parts wherever one likes, and each part is the log of a part of
the session. What a task did in a part of a session leads from the program that it
had come to at the beginning to the one that it has come to at the end.
-/
namespace FlowEngine

def Restarted (t : TaskId) (log : List Occurrence) : Prop := t = .main ∧ .errand ∈ log

@[simp] theorem restarted_nil (t : TaskId) : ¬ Restarted t [] := by
  simp [Restarted]

theorem restarted_append {t : TaskId} {l k : List Occurrence} :
    Restarted t (l ++ k) ↔ Restarted t l ∨ Restarted t k := by
  simp only [Restarted, List.mem_append]
  tauto

theorem deedsOf_append {t : TaskId} {l k : List Occurrence} (h : ¬ Restarted t l) :
    deedsOf t (l ++ k) = deedsOf t l ++ deedsOf t k := by
  induction l with
  | nil => rfl
  | cons x rest ih =>
      have hrest : ¬ Restarted t rest := fun hr => h ⟨hr.1, List.mem_cons_of_mem _ hr.2⟩
      rw [List.cons_append]
      cases x with
      | errand =>
          have ht : t ≠ .main := fun ht => h ⟨ht, by simp⟩
          simp only [deedsOf, if_neg ht, ih hrest]
      | ended u => simp only [deedsOf, ih hrest]
      | poll x =>
          obtain ⟨u, e, a, before, after⟩ := x
          cases a with
          | none => simp only [deedsOf, ih hrest]
          | some a =>
              simp only [deedsOf, ih hrest]
              split <;> rfl

theorem deedsOf_append_of_restarted {t : TaskId} {l k : List Occurrence} (h : Restarted t l) :
    deedsOf t (l ++ k) = deedsOf t l := by
  obtain ⟨rfl, hm⟩ := h
  induction l with
  | nil => cases hm
  | cons x rest ih =>
      rw [List.cons_append]
      cases x with
      | errand => simp only [deedsOf, if_true]
      | ended u =>
          have hrest : Occurrence.errand ∈ rest := by simpa using hm
          simp only [deedsOf, ih hrest]
      | poll x =>
          have hrest : Occurrence.errand ∈ rest := by simpa using hm
          obtain ⟨u, e, a, before, after⟩ := x
          cases a with
          | none => simp only [deedsOf, ih hrest]
          | some a => simp only [deedsOf, ih hrest]

theorem deedsOf_split {t : TaskId} {log : List Occurrence} {ds rest : List Deed} {d : Deed}
    (h : deedsOf t log = ds ++ d :: rest) : ∃ l before after k,
      log = l ++ .poll ⟨t, d.effect, some d.answer, before, after⟩ :: k ∧ ¬ Restarted t l ∧
        deedsOf t l = ds ∧ deedsOf t k = rest := by
  induction log generalizing ds with
  | nil => simp [deedsOf] at h
  | cons x log ih =>
      have later (hx : ¬ Restarted t [x]) {ds' : List Deed} (hds : ds = deedsOf t [x] ++ ds')
          (h' : deedsOf t log = ds' ++ d :: rest) : ∃ l before after k,
            x :: log = l ++ .poll ⟨t, d.effect, some d.answer, before, after⟩ :: k ∧
              ¬ Restarted t l ∧ deedsOf t l = ds ∧ deedsOf t k = rest := by
        obtain ⟨l, before, after, k, rfl, hl, hds', hk⟩ := ih h'
        refine ⟨x :: l, before, after, k, rfl, fun hr => ?_, ?_, hk⟩
        · exact (restarted_append.mp (show Restarted t ([x] ++ l) from hr)).elim hx hl
        · rw [← List.singleton_append, deedsOf_append hx, hds', hds]
      cases x with
      | ended u => exact later (fun hr => absurd hr.2 (by simp)) rfl h
      | errand =>
          by_cases ht : t = .main
          · simp [deedsOf, ht] at h
          · simp only [deedsOf, if_neg ht] at h
            exact later (fun hr => ht hr.1) (by simp [deedsOf]) h
      | poll x =>
          obtain ⟨u, e, a, before, after⟩ := x
          have hx : ¬ Restarted t [.poll ⟨u, e, a, before, after⟩] := fun hr => absurd hr.2 (by simp)
          cases a with
          | none => exact later hx rfl h
          | some a =>
              by_cases hut : u = t
              · subst hut
                simp only [deedsOf, if_true] at h
                cases ds with
                | nil =>
                    obtain ⟨rfl, rfl⟩ := List.cons_eq_cons.mp h
                    exact ⟨[], before, after, log, rfl, restarted_nil _, rfl, rfl⟩
                | cons d' ds =>
                    obtain ⟨rfl, htail⟩ := List.cons_eq_cons.mp h
                    exact later hx (by simp [deedsOf]) htail
              · simp only [deedsOf, if_neg hut] at h
                exact later hx (by simp [deedsOf, hut]) h

theorem mem_of_deed {t : TaskId} {log : List Occurrence} {e : Effect} {a : e.Answer}
    (h : (⟨e, a⟩ : Deed) ∈ deedsOf t log) :
    ∃ before after, .poll ⟨t, e, some a, before, after⟩ ∈ log := by
  obtain ⟨ds, rest, hds⟩ := List.append_of_mem h
  obtain ⟨l, before, after, k, rfl, -⟩ := deedsOf_split hds
  exact ⟨before, after, by simp⟩

namespace Outline

variable {o o₁ o' : Outline}

/-- A poll leaves the tasks that exist as they are; only a join adds some. -/
theorem Polls.tasks {w : Wait} {e : Effect} {turn : Turn e.Answer} (h : o.Polls w o₁ e turn) :
    o₁.main = o.main ∧ o₁.running = o.running ∧ o₁.submissions = o.submissions ∧
      (o₁.branches = o.branches ∨ ∃ run policy group bs, e = .join run policy group bs ∧
        (∀ tasks, w ≠ .branches tasks) ∧ o₁ = o.spawn (bs.map Branch.program)) := by
  cases h.alters with
  | spawned first => exact ⟨rfl, rfl, rfl, Or.inr ⟨_, _, _, _, rfl, first, rfl⟩⟩
  | _ => exact ⟨rfl, rfl, rfl, Or.inl rfl⟩

theorem task?_spawn_of_some {programs : List (Program (Except Failure Json))} {t : TaskId}
    {state : TaskState t.Result} (h : o.task? t = some state) :
    (o.spawn programs).task? t = some state := by
  cases t with
  | branch number =>
      simp only [task?] at h
      have hlt := (List.getElem?_eq_some_iff.mp h).1
      simp only [task?, spawn, List.getElem?_append_left hlt, h]
  | _ => exact h

/-- After a join has started branches a task is what it was, or it is one of them. -/
theorem task?_of_spawn {bs : List Branch} {t : TaskId} {state : TaskState t.Result}
    (ht : (o.spawn (bs.map Branch.program)).task? t = some state) : o.task? t = some state ∨
      ∃ i b, bs[i]? = some b ∧ t = .branch (o.branches.length + i) ∧
        HEq state (TaskState.active b.program .fresh) := by
  cases t with
  | branch number =>
      by_cases hlt : number < o.branches.length
      · simp only [task?, spawn, List.getElem?_append_left hlt] at ht
        exact Or.inl ht
      · obtain ⟨i, rfl⟩ := Nat.exists_eq_add_of_le (Nat.le_of_not_lt hlt)
        simp only [task?, spawn] at ht
        rw [List.getElem?_append_right (Nat.le_add_right _ _), Nat.add_sub_cancel_left] at ht
        simp only [List.map_map, List.getElem?_map, Option.map_eq_some_iff] at ht
        obtain ⟨b, hb, rfl⟩ := ht
        exact Or.inr ⟨i, b, hb, rfl, HEq.rfl⟩
  | _ => exact Or.inl ht

theorem task?_submit_self (o : Outline) (state : TaskState RunResult) :
    ({ o with submissions := o.submissions ++ [state] } : Outline).task?
      (.submission o.submissions.length) = some state := by
  simp [task?]

theorem task?_submit_of_ne (o : Outline) (state : TaskState RunResult) {u : TaskId}
    (hu : u ≠ .submission o.submissions.length) :
    ({ o with submissions := o.submissions ++ [state] } : Outline).task? u = o.task? u := by
  cases u with
  | submission n =>
      have hne : n ≠ o.submissions.length := fun h => hu (congrArg _ h)
      simp only [task?]
      by_cases hlt : n < o.submissions.length
      · exact List.getElem?_append_left hlt
      · rw [List.getElem?_eq_none (by simp; omega), List.getElem?_eq_none (by omega)]
  | _ => rfl

theorem task?_submit_of_some {t : TaskId} {state : TaskState t.Result} (ht : o.task? t = some state)
    (new : TaskState RunResult) :
    ({ o with submissions := o.submissions ++ [new] } : Outline).task? t = some state := by
  rw [o.task?_submit_of_ne new, ht]
  rintro rfl
  exact Nat.lt_irrefl _ (List.getElem?_eq_some_iff.mp ht).1

theorem task?_submit {o : Outline} {p : Program RunResult} {t : TaskId} {state : TaskState t.Result}
    (ht : ({ o with submissions := o.submissions ++ [.active p .fresh] } : Outline).task? t =
      some state) :
    t ≠ .submission o.submissions.length ∧ o.task? t = some state ∨
      t = .submission o.submissions.length ∧ HEq state (TaskState.active p .fresh) := by
  by_cases hnew : t = .submission o.submissions.length
  · subst hnew
    rw [task?_submit_self] at ht
    cases ht
    exact Or.inr ⟨rfl, HEq.rfl⟩
  · rw [o.task?_submit_of_ne _ hnew] at ht
    exact Or.inl ⟨hnew, ht⟩

theorem task?_main_of_ne (o : Outline) (state : TaskState RunResult) {u : TaskId} (hu : u ≠ .main) :
    ({ o with main := state } : Outline).task? u = o.task? u := by
  cases u with
  | main => exact absurd rfl hu
  | _ => rfl

theorem task?_of_branches (hm : o₁.main = o.main)
    (hb : o₁.branches = o.branches) (hs : o₁.submissions = o.submissions) (t : TaskId) :
    o₁.task? t = o.task? t := by
  cases t with
  | main => simp only [Outline.task?, hm]
  | branch number => simp only [Outline.task?, hb]
  | submission number => simp only [Outline.task?, hs]

theorem Polls.task? {w : Wait} {e : Effect} {turn : Turn e.Answer} (h : o.Polls w o₁ e turn)
    {t : TaskId} {state : TaskState t.Result} (ht : o.task? t = some state) :
    o₁.task? t = some state := by
  obtain ⟨hm, -, hs, hb | ⟨_, _, _, bs, -, -, rfl⟩⟩ := h.tasks
  · rwa [task?_of_branches hm hb hs]
  · exact task?_spawn_of_some ht

/-- A poll adds only branches of the join that is polled. -/
theorem Polls.task?_or_born {w : Wait} {e : Effect} {turn : Turn e.Answer}
    (h : o.Polls w o₁ e turn) (t : TaskId) :
    o₁.task? t = o.task? t ∨ o.task? t = none ∧ ∃ n, t = .branch n := by
  obtain ⟨hm, -, hs, hb | ⟨_, _, _, bs, -, -, rfl⟩⟩ := h.tasks
  · exact Or.inl (task?_of_branches hm hb hs t)
  · cases ht : o.task? t with
    | some state => exact Or.inl (task?_spawn_of_some ht)
    | none =>
        cases t with
        | branch n => exact Or.inr ⟨rfl, n, rfl⟩
        | _ => exact Or.inl ht

theorem Polls.born {w : Wait} {e : Effect} {turn : Turn e.Answer} {n : Nat}
    {state : TaskState (Except Failure Json)} (h : o.Polls w o₁ e turn)
    (hnone : o.task? (.branch n) = none) (hn : o₁.task? (.branch n) = some state) :
    ∃ run policy group bs b, e = .join run policy group bs ∧ b ∈ bs ∧
      state = .active b.program .fresh := by
  obtain ⟨hm, -, hs, hb | ⟨run, policy, group, bs, he, -, rfl⟩⟩ := h.tasks
  · rw [task?_of_branches hm hb hs, hnone] at hn
    cases hn
  · rcases task?_of_spawn hn with hold | ⟨i, b, hb, -, hstate⟩
    · rw [hnone] at hold
      cases hold
    · exact ⟨run, policy, group, bs, b, he, List.mem_of_getElem? hb, eq_of_heq hstate⟩

end Outline

/-! ## Tasks along a session -/

namespace Outline

theorem Polls.task?_of_ne_join {o o₁ : Outline} {w : Wait} {e : Effect} {turn : Turn e.Answer}
    (h : o.Polls w o₁ e turn) (hj : ∀ run policy group bs, e ≠ .join run policy group bs)
    (t : TaskId) : o₁.task? t = o.task? t := by
  obtain ⟨hm, -, hs, hb | ⟨_, _, _, _, he, -⟩⟩ := h.tasks
  · exact task?_of_branches hm hb hs t
  · exact absurd he (hj _ _ _ _)

theorem Polls.task?_answered {o o₁ : Outline} {w : Wait} {e : Effect} {a : e.Answer}
    (h : o.Polls w o₁ e (.answered a)) (t : TaskId) : o₁.task? t = o.task? t := by
  obtain ⟨hm, -, hs, hb | ⟨run, policy, group, bs, rfl, -⟩⟩ := h.tasks
  · exact task?_of_branches hm hb hs t
  · simp only [Polls] at h
    split at h
    · cases h <;> rfl
    · rcases h with ⟨rfl, ⟨-, rfl⟩ | ⟨-, hwait⟩⟩
      · simp [spawn]
      · cases hwait

variable {o o' : Outline} {config : Config} {log : List Occurrence}

theorem isSome_setTask (t u : TaskId) (state : TaskState t.Result) :
    ((o.setTask t state).task? u).isSome = (o.task? u).isSome := by
  by_cases hut : u = t
  · subst hut
    cases u <;> simp [setTask, task?]
  · rw [o.task?_setTask_of_ne state hut]

theorem Advances.isSome_task? (h : o.Advances config log o') {t : TaskId}
    (ht : (o.task? t).isSome) : (o'.task? t).isSome := by
  obtain ⟨state, hstate⟩ := Option.isSome_iff_exists.mp ht
  cases h with
  | finish _ _ order => exact (isSome_setTask _ t _).trans ht
  | answer _ _ _ polls =>
      rw [isSome_setTask, polls.task? hstate]
      rfl
  | wait _ _ _ polls =>
      change ((setTask _ _ _).task? t).isSome
      rw [isSome_setTask, polls.task? hstate]
      rfl
  | submit flow inputs token _ =>
      rw [task?_submit_of_some hstate]
      rfl
  | errand _ _ _ =>
      cases t with
      | main => rfl
      | _ => exact ht
  | _ => exact ht

end Outline

/-! ## Parts of a session -/

namespace System

variable {config : Config} {s t u : System RunResult} {l k : List Occurrence}

theorem Moves.short (h : s.Moves config l t) : l = [] ∨ ∃ x, l = [x] := by
  have hadv := h.advances
  generalize s.outline = o, t.outline = o' at hadv
  cases hadv <;> simp

namespace Reaches

theorem trans (h₁ : s.Reaches config l t) (h₂ : t.Reaches config k u) :
    s.Reaches config (l ++ k) u := by
  induction h₂ with
  | refl => rwa [List.append_nil]
  | move _ move ih =>
      rw [← List.append_assoc]
      exact ih.move move

theorem single (h : s.Moves config l t) : s.Reaches config l t :=
  .move .refl h

theorem split (h : s.Reaches config (l ++ k) u) :
    ∃ t, s.Reaches config l t ∧ t.Reaches config k u := by
  generalize hlog : l ++ k = log at h
  induction h generalizing l k with
  | refl =>
      obtain ⟨rfl, rfl⟩ := List.append_eq_nil_iff.mp hlog
      exact ⟨s, .refl, .refl⟩
  | @move before more v w hbefore move ih =>
      rcases move.short with rfl | ⟨x, rfl⟩
      · obtain ⟨t, h₁, h₂⟩ := ih (hlog.trans (List.append_nil _))
        have := h₂.move move
        rw [List.append_nil] at this
        exact ⟨t, h₁, this⟩
      · rcases List.eq_nil_or_concat k with rfl | ⟨k', y, rfl⟩
        · rw [List.append_nil] at hlog
          subst hlog
          exact ⟨w, hbefore.move move, .refl⟩
        · rw [List.concat_eq_append, ← List.append_assoc] at hlog
          obtain ⟨hk, hx⟩ := List.append_inj' hlog rfl
          cases hx
          obtain ⟨t, h₁, h₂⟩ := ih hk
          rw [List.concat_eq_append]
          exact ⟨t, h₁, h₂.move move⟩

theorem moment {x : Occurrence} (h : s.Reaches config (l ++ x :: k) u) :
    ∃ t t', s.Reaches config l t ∧ t.Moves config [x] t' ∧ t'.Reaches config k u := by
  have hone {s u : System RunResult} (h : s.Reaches config [x] u) :
      ∃ t t', s.Reaches config [] t ∧ t.Moves config [x] t' ∧ t'.Reaches config [] u := by
    obtain ⟨log, hlog⟩ : ∃ log, [x] = log := ⟨_, rfl⟩
    rw [hlog] at h
    induction h with
    | refl => cases hlog
    | @move before more v w hbefore move ih =>
        rcases move.short with rfl | ⟨y, rfl⟩
        · obtain ⟨t, t', h₁, h₂, h₃⟩ := ih (hlog.trans (List.append_nil _))
          exact ⟨t, t', h₁, h₂, h₃.move move⟩
        · cases before with
          | nil =>
              cases hlog
              exact ⟨v, w, hbefore, move, .refl⟩
          | cons z rest =>
              have := congrArg List.length hlog
              simp at this
  obtain ⟨v, h₁, h₂⟩ := h.split
  obtain ⟨w, h₂, h₃⟩ := split (l := [x]) h₂
  obtain ⟨t, t', ht, hmove, ht'⟩ := hone h₂
  refine ⟨t, t', ?_, hmove, ?_⟩
  · simpa using h₁.trans ht
  · simpa using ht'.trans h₃

theorem moment_of_mem {x : Occurrence} (h : s.Reaches config l u) (hx : x ∈ l) :
    ∃ k t t', s.Reaches config k t ∧ t.Moves config [x] t' := by
  obtain ⟨k, rest, rfl⟩ := List.append_of_mem hx
  obtain ⟨t, t', ht, hmove, -⟩ := h.moment
  exact ⟨k, t, t', ht, hmove⟩

/-- What is cancelled stays so. -/
theorem cancelled (h : s.Reaches config l t) : s.machine.cancelled <:+ t.machine.cancelled := by
  induction h with
  | refl => exact List.suffix_rfl
  | move before move ih => exact ih.trans move.advances.cancelled

/-- A token that was cancelled stays so. -/
theorem isCancelled {token : Token} (h : s.Reaches config l t)
    (ht : s.machine.isCancelled token = true) : t.machine.isCancelled token = true :=
  Token.isCancelled_mono h.cancelled ht

end Reaches
end System

theorem Session.reaches {config : Config} {log more : List Occurrence} {s s' : System RunResult}
    (h : Session config log s) (hr : s.Reaches config more s') : Session config (log ++ more) s' := by
  obtain ⟨s₀, hs₀, hbefore⟩ := h
  exact ⟨s₀, hs₀, hbefore.trans hr⟩

/-! ## Programs along a session -/

namespace Outline.Advances

variable {o o' : Outline} {config : Config} {log : List Occurrence} {t : TaskId}

theorem follows (h : o.Advances config log o') {p : Program t.Result} {w : Wait}
    (ht : o.task? t = some (.active p w)) :
    ∃ q, p.Follows (deedsOf t log) q ∧
      ((∃ w', o'.task? t = some (.active q w')) ∨
        ∃ a k, q = .pure a ∧ o'.task? t = some (.ended a k)) := by
  have still (hd : deedsOf t log = []) (hs : o'.task? t = some (.active p w)) :
      ∃ q, p.Follows (deedsOf t log) q ∧
        ((∃ w', o'.task? t = some (.active q w')) ∨
          ∃ a k, q = .pure a ∧ o'.task? t = some (.ended a k)) :=
    ⟨p, by rw [hd]; exact .start p, Or.inl ⟨w, hs⟩⟩
  cases h with
  | @finish u a w' running active order =>
      by_cases htu : t = u
      · subst htu
        rw [ht] at active
        cases active
        refine ⟨_, .start _, Or.inr ⟨a, order, rfl, ?_⟩⟩
        exact o.task?_setTask_self _ (by rw [ht]; rfl)
      · exact still rfl ((o.task?_setTask_of_ne _ htu).trans ht)
  | @answer u e next w' a before after running active start polls =>
      have ho₁ := (polls.task?_answered t).trans ht
      by_cases htu : t = u
      · subst htu
        rw [ht] at active
        cases active
        refine ⟨next a, by simpa [deedsOf] using .deed (.start (next a)), Or.inl ⟨.fresh, ?_⟩⟩
        exact task?_setTask_self _ _ (by rw [ho₁]; rfl)
      · exact still (by simp [deedsOf, Ne.symm htu]) ((task?_setTask_of_ne _ _ htu).trans ho₁)
  | @wait u e next w₁ w₂ before after running active start polls =>
      have ho₁ := polls.task? ht
      by_cases htu : t = u
      · subst htu
        rw [ht] at active
        cases active
        refine ⟨_, .start _, Or.inl ⟨w₂, ?_⟩⟩
        exact task?_setTask_self _ _ (by rw [ho₁]; rfl)
      · exact still rfl ((task?_setTask_of_ne _ _ htu).trans ho₁)
  | submit flow inputs token idle =>
      exact still rfl (task?_submit_of_some ht _)
  | errand idle hended _ =>
      cases t with
      | main =>
          obtain ⟨result, order, hm⟩ := hended
          simp only [task?, hm] at ht
          cases ht
      | _ => exact still rfl ht
  | _ => exact still rfl ht

theorem not_restarted (h : o.Advances config log o') {p : Program t.Result} {w : Wait}
    (ht : o.task? t = some (.active p w)) : ¬ Restarted t log := by
  rintro ⟨rfl, hm⟩
  cases h with
  | errand idle hended _ =>
      obtain ⟨result, order, hmain⟩ := hended
      simp only [task?, hmain] at ht
      cases ht
  | _ => simp at hm

/-- A task that has ended does nothing more unless it is started again. -/
theorem ended (h : o.Advances config log o') {a : t.Result} {order : Nat}
    (ht : o.task? t = some (.ended a order)) :
    deedsOf t log = [] ∧ (o'.task? t = some (.ended a order) ∨ Restarted t log) := by
  cases h with
  | @finish u a w' running active order =>
      by_cases htu : t = u
      · subst htu
        rw [ht] at active
        cases active
      · exact ⟨rfl, Or.inl ((o.task?_setTask_of_ne _ htu).trans ht)⟩
  | @answer u e next w' a before after running active start polls =>
      by_cases htu : t = u
      · subst htu
        rw [ht] at active
        cases active
      · exact ⟨by simp [deedsOf, Ne.symm htu], Or.inl
          ((task?_setTask_of_ne _ _ htu).trans ((polls.task?_answered t).trans ht))⟩
  | @wait u e next w₁ w₂ before after running active start polls =>
      by_cases htu : t = u
      · subst htu
        rw [ht] at active
        cases active
      · exact ⟨rfl, Or.inl ((task?_setTask_of_ne _ _ htu).trans (polls.task? ht))⟩
  | submit flow inputs token idle =>
      exact ⟨rfl, Or.inl (task?_submit_of_some ht _)⟩
  | errand idle hended _ =>
      cases t with
      | main => exact ⟨rfl, Or.inr ⟨rfl, by simp⟩⟩
      | _ => exact ⟨rfl, Or.inl ht⟩
  | _ => exact ⟨rfl, Or.inl ht⟩

end Outline.Advances

namespace System

variable {config : Config} {s s' : System RunResult} {log : List Occurrence} {t : TaskId}

/-- The program of a task at the end of a part of a session. Its deeds lead there
also if the task has ended, and was started again, in the meantime. -/
theorem Reaches.follows (h : s.Reaches config log s') {p : Program t.Result} (ht : s.At t p) :
    ∃ q, p.Follows (deedsOf t log) q ∧ (s'.At t q ∧ ¬ Restarted t log ∨
      ∃ a, q = .pure a ∧ ((∃ k, s'.task? t = some (.ended a k)) ∨ Restarted t log)) := by
  induction h with
  | refl => exact ⟨p, .start p, Or.inl ⟨ht, restarted_nil t⟩⟩
  | @move before more v u hbefore move ih =>
      obtain ⟨q, hq, hnow⟩ := ih
      by_cases hr : Restarted t before
      · obtain ⟨-, hn⟩ | ⟨a, rfl, -⟩ := hnow
        · exact absurd hr hn
        · rw [deedsOf_append_of_restarted hr]
          exact ⟨_, hq, Or.inr ⟨a, rfl, Or.inr (restarted_append.mpr (Or.inl hr))⟩⟩
      · rw [deedsOf_append hr]
        obtain ⟨⟨w, hat⟩, -⟩ | ⟨a, rfl, ⟨k, hend⟩ | hr'⟩ := hnow
        · rw [← task?_outline] at hat
          obtain ⟨r, hr', hnow⟩ := move.advances.follows hat
          simp only [task?_outline] at hnow
          refine ⟨r, hq.append hr', ?_⟩
          obtain hw | ⟨a, k, rfl, hend⟩ := hnow
          · refine Or.inl ⟨hw, fun h => ?_⟩
            obtain h | h := restarted_append.mp h
            · exact hr h
            · exact move.advances.not_restarted hat h
          · exact Or.inr ⟨a, rfl, Or.inl ⟨_, hend⟩⟩
        · rw [← task?_outline] at hend
          obtain ⟨hd, hnow⟩ := move.advances.ended hend
          simp only [task?_outline] at hnow
          rw [hd, List.append_nil]
          refine ⟨_, hq, Or.inr ⟨a, rfl, ?_⟩⟩
          obtain hend | hr' := hnow
          · exact Or.inl ⟨k, hend⟩
          · exact Or.inr (restarted_append.mpr (Or.inr hr'))
        · exact absurd hr' hr

end System
end FlowEngine

/-!
## Where programs come from

Every task begins with a run, a wait for a run, or a branch, and whatever it comes to
is what is left of that. So a trait of all these programs holds throughout a session.
-/
namespace FlowEngine

inductive Begins (config : Config) : (t : TaskId) → Program t.Result → Prop where
  | errand {p : Program RunResult} (errand : System.Errand config p) : Begins config .main p
  | submission (number : Nat) (flow : Flow) (inputs : List (String × Json)) (token : Token) :
      Begins config (.submission number) (Execution.submitted config flow inputs token)
  | branch (number : Nat) (b : Branch) : Begins config (.branch number) b.program

namespace Outline

variable {o o' : Outline} {config : Config} {log : List Occurrence}

/-- What a task is at after a move is left of what it was at before, or it has just begun. -/
theorem Advances.origin (h : o.Advances config log o') {t : TaskId} {q : Program t.Result}
    {w' : Wait} (ht : o'.task? t = some (.active q w')) :
    (∃ p w, o.task? t = some (.active p w) ∧ p.Follows (deedsOf t log) q) ∨ Begins config t q := by
  cases hs : o.task? t with
  | some state =>
      cases state with
      | active p w =>
          obtain ⟨r, hr, ⟨w', hw⟩ | ⟨a, k, rfl, hend⟩⟩ := h.follows hs
          · rw [ht] at hw
            cases hw
            exact Or.inl ⟨p, w, rfl, hr⟩
          · rw [ht] at hend
            cases hend
      | ended a order =>
          rcases h.ended hs with ⟨-, hstill | ⟨rfl, hm⟩⟩
          · rw [ht] at hstill
            cases hstill
          · cases h with
            | errand idle ended errand =>
                cases ht
                exact Or.inr (.errand errand)
            | _ => simp at hm
  | none =>
      have stuck (hsame : (o'.task? t).isSome → (o.task? t).isSome) :
          (∃ p w, none = some (TaskState.active p w) ∧ p.Follows (deedsOf t log) q) ∨
            Begins config t q := by
        have := hsame (Option.isSome_of_eq_some ht)
        rw [hs] at this
        cases this
      cases h with
      | finish running active order => exact stuck fun hsome => (isSome_setTask _ _ _).symm.trans hsome
      | answer running active start polls =>
          refine stuck fun hsome => ?_
          rwa [isSome_setTask, polls.task?_answered] at hsome
      | @wait u e next w w₁ before after running active start polls =>
          by_cases htu : t = u
          · subst htu
            rw [hs] at active
            cases active
          · replace ht := (task?_setTask_of_ne _ _ htu).symm.trans ht
            obtain ⟨hm, -, hsub, hb | ⟨run, policy, group, bs, rfl, -, hspawn⟩⟩ := polls.tasks
            · rw [task?_of_branches hm hb hsub, hs] at ht
              cases ht
            · rcases task?_of_spawn (hspawn ▸ ht) with hold | ⟨i, b, -, rfl, hstate⟩
              · rw [hs] at hold
                cases hold
              · cases hstate
                exact Or.inr (.branch _ b)
      | submit flow inputs token idle =>
          rcases task?_submit ht with ⟨-, hold⟩ | ⟨rfl, hstate⟩
          · rw [hs] at hold
            cases hold
          · cases hstate
            exact Or.inr (.submission _ flow inputs token)
      | errand idle ended errand =>
          cases t with
          | main => cases hs
          | _ => exact stuck id
      | _ => exact stuck id

end Outline

namespace Session

variable {config : Config} {log : List Occurrence} {s : System RunResult} {t : TaskId}
  {p : Program t.Result}

/-- What holds of the programs that a task begins with, and of what is left of a program when it
held of the program, holds of all that the task comes to. -/
theorem comes_to {P : List Occurrence → Program t.Result → Prop}
    (begins : ∀ {log : List Occurrence} {p : Program t.Result}, Begins config t p → P log p)
    (follows : ∀ {log more : List Occurrence} {o o' : Outline} {p q : Program t.Result} {w : Wait},
      o.Advances config more o' → o.task? t = some (.active p w) → P log p →
        p.Follows (deedsOf t more) q → P (log ++ more) q)
    (h : Session config log s) (ht : s.At t p) : P log p := by
  obtain ⟨s₀, ⟨world, numbered⟩, hreaches⟩ := h
  induction hreaches generalizing p with
  | refl =>
      obtain ⟨w, ht⟩ := ht
      cases t <;> cases ht
  | move before move ih =>
      obtain ⟨w, ht⟩ := ht
      rw [← System.task?_outline] at ht
      obtain ⟨p', w', hp', hf⟩ | hbegins := move.advances.origin ht
      · exact follows move.advances hp' (ih ⟨w', (System.task?_outline t).symm.trans hp'⟩) hf
      · exact begins hbegins

/-- A trait of what tasks begin with is one of all that they come to. -/
theorem throughout {Q : Program.Trait}
    (hQ : ∀ {t : TaskId} {p : Program t.Result}, Begins config t p → p.Throughout Q)
    (h : Session config log s) (ht : s.At t p) : p.Throughout Q :=
  h.comes_to (P := fun _ p => p.Throughout Q) hQ (fun _ _ hp hf => hp.follow hf) ht

end Session
end FlowEngine
