import FlowEngine.Proofs.Session.Log

/-!
# Turns of tasks

A task that is running goes on until it has to wait: what it is about to do is the next
thing that happens in the session.
-/
namespace FlowEngine

namespace Outline

variable {o o' : Outline} {config : Config} {log : List Occurrence}

/-- How a task has come to where it is after a move: it was there before and did not have its turn,
it has got an answer, it has just been told to wait, or it has just begun. -/
inductive Progress (config : Config) (o : Outline) (log : List Occurrence) (o' : Outline) :
    (t : TaskId) → Program t.Result → Wait → Prop where
  | same {t : TaskId} {p : Program t.Result} {w : Wait} (before : o.task? t = some (.active p w))
      (idle : o.running ≠ some t) : Progress config o log o' t p w
  | answered {t : TaskId} {p : Program t.Result} (running : o'.running = some t) :
      Progress config o log o' t p .fresh
  | told {t : TaskId} {e : Effect} {next : e.Answer → Program t.Result} {w w' : Wait}
      {before after : Machine} (active : o.task? t = some (.active (.perform e next) w))
      (poll : log = [.poll ⟨t, e, none, before, after⟩])
      (polls : o.Polls w (after.outline o.main) e (.waiting w'))
      (result : o' =
        { (after.outline o.main).setTask t (.active (.perform e next) w') with running := none }) :
      Progress config o log o' t (.perform e next) w'
  | started {n : Nat} {u : TaskId} {run : Nat} {policy : JoinPolicy} {group : Token}
      {bs : List Branch} {next : Except Failure (List BranchOutcome) → Program u.Result} {w : Wait}
      {before after : Machine} {p : Program (Except Failure Json)}
      (active : o.task? u = some (.active (.perform (.join run policy group bs) next) w))
      (first : ∀ tasks, w ≠ .branches tasks)
      (poll : log = [.poll ⟨u, .join run policy group bs, none, before, after⟩])
      (new : o.branches.length ≤ n) (bound : n < o.branches.length + bs.length) :
      Progress config o log o' (.branch n) p .fresh
  | begun {p : Program RunResult} (begins : log = [.errand]) : Progress config o log o' .main p .fresh
  | submitted (number : Nat) (flow : Flow) (inputs : List (String × Json)) (token : Token) :
      Progress config o log o' (.submission number) (Execution.submitted config flow inputs token)
        .fresh

theorem Advances.progress (h : o.Advances config log o') {t : TaskId} {p : Program t.Result}
    {w' : Wait} (ht : o'.task? t = some (.active p w')) : Progress config o log o' t p w' := by
  have idle_of_none (idle : o.running = none) : o.running ≠ some t := by
    rw [idle]
    nofun
  have idle_of_ne {u : TaskId} (running : o.running = some u) (htu : t ≠ u) :
      o.running ≠ some t := by
    rw [running]
    exact fun he => htu (Option.some.inj he).symm
  cases h with
  | pick _ idle | cancel _ idle => exact .same ht (idle_of_none idle)
  | @stop u running inactive =>
      refine .same ht (idle_of_ne running ?_)
      rintro rfl
      exact inactive p w' ht
  | @finish u a w running active order =>
      by_cases htu : t = u
      · subst htu
        cases o.eq_of_task?_setTask _ ht
      · exact .same ((o.task?_setTask_of_ne _ htu).symm.trans ht) (idle_of_ne running htu)
  | @answer u e next w a before after running active start polls =>
      by_cases htu : t = u
      · subst htu
        cases eq_of_task?_setTask _ _ ht
        refine .answered ?_
        rw [setTask_running, polls.tasks.2.1, running]
      · rw [task?_setTask_of_ne _ _ htu, polls.task?_answered] at ht
        exact .same ht (idle_of_ne running htu)
  | @wait u e next w₁ w₂ before after running active start polls =>
      by_cases htu : t = u
      · subst htu
        cases eq_of_task?_setTask _ _ ht
        exact .told active rfl polls rfl
      · replace ht := (task?_setTask_of_ne _ _ htu).symm.trans ht
        obtain ⟨hm, -, hs, hb | ⟨run, policy, group, bs, rfl, hw, hspawn⟩⟩ := polls.tasks
        · exact .same ((task?_of_branches hm hb hs t).symm.trans ht) (idle_of_ne running htu)
        · rcases task?_of_spawn (hspawn ▸ ht) with hold | ⟨i, b, hb, rfl, hstate⟩
          · exact .same hold (idle_of_ne running htu)
          · cases hstate
            have hbound := (List.getElem?_eq_some_iff.mp hb).1
            exact .started active hw rfl (Nat.le_add_right _ _) (by omega)
  | submit flow inputs token idle =>
      rcases task?_submit ht with ⟨-, hold⟩ | ⟨rfl, hstate⟩
      · exact .same hold (idle_of_none idle)
      · cases hstate
        exact .submitted _ flow inputs token
  | errand idle ended errand =>
      cases t with
      | main =>
          cases ht
          exact .begun rfl
      | _ => exact .same ht (idle_of_none idle)

/-- What a task waits for after a move: what it waited for before, nothing yet, or what the poll
says that it just made. -/
theorem Advances.wait_cases (h : o.Advances config log o') {t : TaskId} {p : Program t.Result}
    {w' : Wait} (ht : o'.task? t = some (.active p w')) :
    o.task? t = some (.active p w') ∨ w' = .fresh ∨ ∃ e next w before after, p = .perform e next ∧
      o.task? t = some (.active p w) ∧ log = [.poll ⟨t, e, none, before, after⟩] ∧
      o.Polls w (after.outline o.main) e (.waiting w') ∧
      o' = { (after.outline o.main).setTask t (.active p w') with running := none } := by
  cases h.progress ht with
  | same before idle => exact Or.inl before
  | told active poll polls result =>
      exact Or.inr (Or.inr ⟨_, _, _, _, _, rfl, active, poll, polls, result⟩)
  | _ => exact Or.inr (Or.inl rfl)

theorem Advances.eq_singleton_of_mem (h : o.Advances config log o') {x : Occurrence}
    (hx : x ∈ log) : log = [x] := by
  cases h with
  | answer | wait | finish | errand => rw [List.mem_singleton.mp hx]
  | _ => cases hx

theorem Advances.active_of_poll {x : Poll} (h : o.Advances config [.poll x] o') :
    ∃ next w, o.task? x.task = some (.active (.perform x.effect next) w) := by
  cases h with
  | answer running active start polls => exact ⟨_, _, active⟩
  | wait running active start polls => exact ⟨_, _, active⟩

theorem Advances.running_of_poll {x : Poll} (h : o.Advances config [.poll x] o') :
    o.running = some x.task := by
  cases h with
  | answer running active start polls => exact running
  | wait running active start polls => exact running

/-- A task that gets no answer in a move is as before, or it has just been told to wait. -/
theorem Advances.unanswered (h : o.Advances config log o') {t : TaskId} {e : Effect}
    {next : e.Answer → Program t.Result} {w : Wait}
    (ht : o.task? t = some (.active (.perform e next) w)) (hd : deedsOf t log = []) :
    o'.task? t = some (.active (.perform e next) w) ∨ ∃ w' before after,
      log = [.poll ⟨t, e, none, before, after⟩] ∧ before.outline o.main = o ∧
        o.Polls w (after.outline o.main) e (.waiting w') ∧ o' =
          { (after.outline o.main).setTask t (.active (.perform e next) w') with running := none } := by
  cases h with
  | @finish u a w' running active order =>
      by_cases htu : t = u
      · subst htu
        rw [ht] at active
        cases active
      · exact Or.inl ((o.task?_setTask_of_ne _ htu).trans ht)
  | @answer u e' next' w' a before after running active start polls =>
      by_cases htu : t = u
      · subst htu
        simp [deedsOf] at hd
      · exact Or.inl ((task?_setTask_of_ne _ _ htu).trans (polls.task? ht))
  | @wait u e' next' w₁ w₂ before after running active start polls =>
      by_cases htu : t = u
      · subst htu
        rw [ht] at active
        cases active
        exact Or.inr ⟨w₂, before, after, rfl, start, polls, rfl⟩
      · exact Or.inl ((task?_setTask_of_ne _ _ htu).trans (polls.task? ht))
  | submit flow inputs token idle => exact Or.inl (task?_submit_of_some ht _)
  | errand idle ended errand =>
      cases t with
      | main =>
          obtain ⟨result, order, hm⟩ := ended
          rw [task?, hm] at ht
          cases ht
      | _ => exact Or.inl ht
  | _ => exact Or.inl ht

end Outline

/-- What holds of machines that nothing was run on and is kept by every move holds of every
session. -/
theorem Session.outline_induction {config : Config} {I : Outline → Prop}
    (initial : ∀ s, System.Initial config s → I s.outline)
    (step : ∀ o log o', I o → o.Advances config log o' → I o')
    {log : List Occurrence} {s : System RunResult} (h : Session config log s) : I s.outline := by
  obtain ⟨s₀, hs₀, hreaches⟩ := h
  induction hreaches with
  | refl => exact initial s₀ hs₀
  | move _ move ih => exact step _ _ _ ih move.advances

theorem Session.waits {config : Config} {log : List Occurrence} {s : System RunResult}
    (h : Session config log s) {t : TaskId} {e : Effect} {next : e.Answer → Program t.Result}
    {w : Wait} (ht : s.task? t = some (.active (.perform e next) w)) (hw : w ≠ .fresh) :
    Outline.Waits e := by
  let I (o : Outline) : Prop := ∀ (t : TaskId) e next w,
    o.task? t = some (.active (.perform e next) w) → w ≠ .fresh → Outline.Waits e
  have hI : I s.outline := by
    refine Session.outline_induction (I := I) ?_ ?_ h
    · rintro s ⟨world, numbered⟩ t e next w ht
      cases t <;> cases ht
    · intro o log o' hI adv t e next w ht hw
      rcases adv.wait_cases ht with hsame | hfresh | ⟨e', next', w', before, after, hp, -, -, polls, -⟩
      · exact hI _ _ _ _ hsame hw
      · exact absurd hfresh hw
      · cases hp
        exact polls.waits
  exact hI _ _ _ _ ((System.task?_outline t).trans ht) hw

/-- A part of a log ends with the last thing that a task does in it, so that no time is lost. -/
def Prompt (t : TaskId) (log : List Occurrence) : Prop :=
  log = [] ∨ ∃ l e answer before after, log = l ++ [.poll ⟨t, e, some answer, before, after⟩]

namespace System

variable {config : Config} {log : List Occurrence} {s s' : System RunResult} {t : TaskId}
  {e : Effect} {next : e.Answer → Program t.Result}

theorem Moves.of_running {w : Wait} (h : s.Moves config log s')
    (running : s.machine.running = some t) (hw : s.task? t = some (.active (.perform e next) w)) :
    ∃ before after turn, log = [.poll ⟨t, e, turn.answer?, before, after⟩] ∧
      before.outline s.main = s.outline ∧ s.outline.Polls w (after.outline s.main) e turn := by
  rw [← task?_outline] at hw
  have hrunning : s.outline.running = some t := running
  have hadv := h.advances
  have hmain : s.outline.main = s.main := rfl
  rw [← hmain]
  generalize s.outline = o, s'.outline = o' at hadv hw hrunning ⊢
  cases hadv with
  | @answer u e' next' w' a before after running' active start polls =>
      obtain rfl : u = t := Option.some.inj (running'.symm.trans hrunning)
      rw [hw] at active
      cases active
      exact ⟨before, after, .answered a, rfl, start, polls⟩
  | @wait u e' next' w₁ w₂ before after running' active start polls =>
      obtain rfl : u = t := Option.some.inj (running'.symm.trans hrunning)
      rw [hw] at active
      cases active
      exact ⟨before, after, .waiting w₂, rfl, start, polls⟩
  | @finish u a w' running' active order =>
      obtain rfl : u = t := Option.some.inj (running'.symm.trans hrunning)
      rw [hw] at active
      cases active
  | @stop u running' inactive =>
      obtain rfl : u = t := Option.some.inj (running'.symm.trans hrunning)
      exact absurd hw (inactive _ _)
  | pick _ idle | cancel _ idle | submit _ _ _ idle | errand idle _ _ =>
      rw [idle] at hrunning
      cases hrunning

/-- Nobody else has a turn while a task is running. -/
theorem Reaches.eq_of_running (h : s.Reaches config [] s') (running : s.machine.running = some t)
    (hat : s.At t (.perform e next)) : s' = s := by
  obtain ⟨w, hw⟩ := hat
  obtain ⟨l, hl⟩ : ∃ l, [] = l := ⟨_, rfl⟩
  rw [hl] at h
  induction h with
  | refl => rfl
  | move _ move ih =>
      obtain ⟨h₁, h₂⟩ := List.append_eq_nil_iff.mp hl.symm
      obtain rfl := ih h₁.symm
      obtain ⟨before, after, turn, rfl, -⟩ := move.of_running running hw
      cases h₂

/-- Nothing happens before the running task does what it is about to do. -/
theorem Reaches.of_running (h : s.Reaches config log s') (running : s.machine.running = some t)
    (hat : s.At t (.perform e next)) : log = [] ∨
    ∃ before after w turn later, log = .poll ⟨t, e, turn.answer?, before, after⟩ :: later ∧
      before.outline s.main = s.outline ∧ s.outline.Polls w (after.outline s.main) e turn := by
  have hstill {u : System RunResult} (h : s.Reaches config [] u) : u = s :=
    h.eq_of_running running hat
  obtain ⟨w, hw⟩ := hat
  cases log with
  | nil => exact Or.inl rfl
  | cons x later =>
      obtain ⟨u, v, hu, move, -⟩ := Reaches.moment (l := []) h
      obtain rfl := hstill hu
      obtain ⟨before, after, turn, hx, hrest⟩ := move.of_running running hw
      obtain rfl := (List.cons.inj hx).1
      exact Or.inr ⟨before, after, w, turn, later, rfl, hrest⟩

theorem Moves.running_of_answer {a : e.Answer} {before after : Machine}
    (h : s.Moves config [.poll ⟨t, e, some a, before, after⟩] s') :
    s'.machine.running = some t := by
  have hadv := h.advances
  change s'.outline.running = some t
  generalize s.outline = o, s'.outline = o' at hadv
  cases hadv with
  | answer running active start polls => rw [Outline.setTask_running, polls.tasks.2.1, running]

/-- How far a task that gets an answer was, and what the answer says about the machine. -/
theorem Moves.polls_of_answer {a : e.Answer} {before after : Machine}
    (h : s.Moves config [.poll ⟨t, e, some a, before, after⟩] s') :
    before.outline s.main = s.outline ∧ ∃ next w, s.task? t = some (.active (.perform e next) w) ∧
      s.outline.Polls w (after.outline s.main) e (.answered a) := by
  have hadv := h.advances
  have hmain : s.outline.main = s.main := rfl
  rw [← hmain]
  simp only [← task?_outline]
  generalize s.outline = o, s'.outline = o' at hadv ⊢
  cases hadv with
  | answer running active start polls => exact ⟨start, _, _, active, polls⟩

theorem Moves.polls_of_wait {before after : Machine}
    (h : s.Moves config [.poll ⟨t, e, none, before, after⟩] s') :
    ∃ next w w', s.task? t = some (.active (.perform e next) w) ∧
      s'.task? t = some (.active (.perform e next) w') ∧
      s.outline.Polls w (after.outline s.main) e (.waiting w') := by
  have hadv := h.advances
  have hmain : s.outline.main = s.main := rfl
  rw [← hmain]
  simp only [← task?_outline]
  generalize s.outline = o, s'.outline = o' at hadv ⊢
  cases hadv with
  | wait running active start polls =>
      have hsome := Option.isSome_of_eq_some (polls.task? active)
      exact ⟨_, _, _, active, Outline.task?_setTask_self _ _ hsome, polls⟩

theorem Moves.goes_on {a : e.Answer} {before after : Machine}
    (h : s.Moves config [.poll ⟨t, e, some a, before, after⟩] s') (hat : s.At t (.perform e next)) :
    s'.task? t = some (.active (next a) .fresh) := by
  obtain ⟨w, hw⟩ := hat
  have hadv := h.advances
  rw [← task?_outline] at hw ⊢
  generalize s.outline = o, s'.outline = o' at hadv hw ⊢
  cases hadv with
  | answer running active start polls =>
      rw [hw] at active
      cases active
      exact Outline.task?_setTask_self _ _ (Option.isSome_of_eq_some (polls.task? hw))

/-- A task that gets no answer stays where it is. -/
theorem Reaches.stays (h : s.Reaches config log s') (hat : s.At t (.perform e next))
    (hd : deedsOf t log = []) : s'.At t (.perform e next) ∧ ¬ Restarted t log := by
  obtain ⟨q, hq, hnow⟩ := h.follows hat
  rw [hd, Program.Follows.nil_iff] at hq
  subst hq
  obtain hnow | ⟨a, ha, -⟩ := hnow
  · exact hnow
  · cases ha

/-- While a task gets no answer, it got none before. -/
theorem Reaches.unanswered {more : List Occurrence} (h : s.Reaches config log s')
    (hat : s.At t (.perform e next)) (hd : deedsOf t (log ++ more) = []) :
    deedsOf t log = [] ∧ deedsOf t more = [] := by
  by_cases hr : Restarted t log
  · rw [deedsOf_append_of_restarted hr] at hd
    exact absurd hr (h.stays hat hd).2
  · rwa [deedsOf_append hr, List.append_eq_nil_iff] at hd

/-- What a task does between two moments leads from where it is at the first to where it is at
the second. -/
theorem Reaches.follows_at (h : s.Reaches config log s') {p q : Program t.Result} (hat : s.At t p)
    (hat' : s'.At t q) (hr : ¬ Restarted t log) : p.Follows (deedsOf t log) q := by
  obtain ⟨w, hw⟩ := hat'
  obtain ⟨q', hq, ⟨⟨w', hw'⟩, -⟩ | ⟨a, -, ⟨n, hn⟩ | hr'⟩⟩ := h.follows hat
  · rw [hw] at hw'
    cases hw'
    exact hq
  · rw [hw] at hn
    cases hn
  · exact absurd hr' hr

/-- What a task is polled for between two moments it does there, unless it still waits for it at
the second. -/
theorem Reaches.deed_of_poll (h : s.Reaches config log s') {e' : Effect}
    {next : e'.Answer → Program t.Result} {answer : Option e.Answer} {m m' : Machine}
    (hat : s'.At t (.perform e' next)) (hr : ¬ Restarted t log)
    (hm : .poll ⟨t, e, answer, m, m'⟩ ∈ log) : e = e' ∨ ∃ a, ⟨e, a⟩ ∈ deedsOf t log := by
  obtain ⟨l, r, rfl⟩ := List.append_of_mem hm
  obtain ⟨hl, hr⟩ := not_or.mp fun h => hr (restarted_append.mpr h)
  rw [deedsOf_append hl]
  cases answer with
  | some a =>
      refine Or.inr ⟨a, List.mem_append_right _ ?_⟩
      simp [deedsOf]
  | none =>
      obtain ⟨u, v, -, move, hv⟩ := h.moment
      obtain ⟨next', w, active⟩ := move.advances.active_of_poll
      rw [task?_outline] at active
      obtain ⟨hwaits, -⟩ := (Reaches.single move).stays ⟨w, active⟩ rfl
      have hfollows := hv.follows_at hwaits hat fun h => hr ⟨h.1, List.mem_cons_of_mem _ h.2⟩
      obtain ⟨-, hsame⟩ | ⟨a, rest, hd, -⟩ := hfollows.cons_of_perform
      · cases hsame
        exact Or.inl rfl
      · refine Or.inr ⟨a, List.mem_append_right _ ?_⟩
        simp [deedsOf, hd]

/-- A task that has come to the first part of a program is still at it, or it has got to the end of
that part at some moment: at once, or with the last answer that it got there. -/
theorem Reaches.cut {α : Type} {p : Program α} {k : α → Program t.Result}
    (h : s.Reaches config log s') (hat : s.At t (p.bind k)) :
    (∃ e next, p.Follows (deedsOf t log) (.perform e next) ∧
        s'.At t ((Program.perform e next).bind k) ∧ ¬ Restarted t log) ∨
      ∃ a log₁ log₂ u, log = log₁ ++ log₂ ∧ s.Reaches config log₁ u ∧ ¬ Restarted t log₁ ∧
        p.Follows (deedsOf t log₁) (.pure a) ∧ u.Reaches config log₂ s' ∧ u.At t (k a) ∧
        (u = s ∧ log₁ = [] ∧ p = .pure a ∨
          u.machine.running = some t ∧ u.task? t = some (.active (k a) .fresh) ∧
            ∃ l e answer m m', log₁ = l ++ [.poll ⟨t, e, some answer, m, m'⟩]) := by
  have hcut {d₁ d₂ : List Deed} {a : α} (hdeeds : deedsOf t log = d₁ ++ d₂)
      (hend : p.Follows d₁ (.pure a)) :
      ∃ a log₁ log₂ u, log = log₁ ++ log₂ ∧ s.Reaches config log₁ u ∧ ¬ Restarted t log₁ ∧
        p.Follows (deedsOf t log₁) (.pure a) ∧ u.Reaches config log₂ s' ∧ u.At t (k a) ∧
        (u = s ∧ log₁ = [] ∧ p = .pure a ∨
          u.machine.running = some t ∧ u.task? t = some (.active (k a) .fresh) ∧
            ∃ l e answer m m', log₁ = l ++ [.poll ⟨t, e, some answer, m, m'⟩]) := by
    rcases List.eq_nil_or_concat d₁ with rfl | ⟨d₃, ⟨e, answer⟩, rfl⟩
    · obtain rfl := Program.Follows.nil_iff.mp hend
      exact ⟨a, [], log, s, rfl, .refl, restarted_nil t, .start _, h, hat, Or.inl ⟨rfl, rfl, rfl⟩⟩
    · rw [List.concat_eq_append] at hend hdeeds
      rw [List.append_assoc, List.singleton_append] at hdeeds
      obtain ⟨l, m, m', log₂, rfl, hrestarted, hd₃, -⟩ := deedsOf_split hdeeds
      obtain ⟨v, u, hv, move, hu⟩ := h.moment
      obtain ⟨p', hp', hlast⟩ := Program.Follows.append_iff.mp hend
      cases p' with
      | pure b => exact absurd (Program.Follows.pure_iff.mp hlast).1 (by simp)
      | perform e' next =>
          obtain ⟨answer', hsame, hlast⟩ := Program.Follows.perform_cons_iff.mp hlast
          cases hsame
          have hnext : next answer = .pure a := (Program.Follows.nil_iff.mp hlast).symm
          obtain ⟨q, hq, ⟨hat', -⟩ | ⟨b, rfl, -⟩⟩ := hv.follows hat
          · rw [hd₃] at hq
            rw [hq.unique (hp'.bind k), Program.bind_perform] at hat'
            have hgoes := move.goes_on hat'
            rw [hnext, Program.bind_pure_left] at hgoes
            refine ⟨a, l ++ [.poll ⟨t, e, some answer, m, m'⟩], log₂, u, by simp,
              hv.trans (.single move), fun hr => ?_, ?_, hu, ⟨_, hgoes⟩,
              Or.inr ⟨move.running_of_answer, hgoes, l, e, answer, m, m', rfl⟩⟩
            · rcases restarted_append.mp hr with hr | hr
              · exact hrestarted hr
              · simp [Restarted] at hr
            · rw [deedsOf_append hrestarted, hd₃]
              simpa [deedsOf] using hend
          · rw [hd₃] at hq
            cases hq.unique (hp'.bind k)
  obtain ⟨q, hq, hnow⟩ := h.follows hat
  rcases hq.bind_cases with ⟨p', hp', rfl⟩ | ⟨d₁, d₂, a, hdeeds, hend, -⟩
  · cases p' with
    | pure a => exact Or.inr (hcut (List.append_nil _).symm hp')
    | perform e next =>
        rcases hnow with ⟨hat', hrestarted⟩ | ⟨b, hpure, -⟩
        · exact Or.inl ⟨e, next, hp', hat', hrestarted⟩
        · cases hpure
  · exact Or.inr (hcut hdeeds hend)

/-- A task has its turn and comes to a program. -/
structure ComesTo (s : System RunResult) (t : TaskId) (p : Program t.Result) : Prop where
  running : s.machine.running = some t
  active : s.task? t = some (.active p .fresh)

theorem ComesTo.at {p : Program t.Result} (h : s.ComesTo t p) : s.At t p :=
  ⟨_, h.active⟩

/-- A task that is to do something has not done it yet, or it has done it and goes on at once. -/
theorem Reaches.perform (h : s.Reaches config log s') (hat : s.At t (.perform e next)) :
    (deedsOf t log = [] ∧ s'.At t (.perform e next)) ∨
      ∃ a m m' l log₂ w u, log = (l ++ [.poll ⟨t, e, some a, m, m'⟩]) ++ log₂ ∧
        s.Reaches config l w ∧ deedsOf t l = [] ∧
        w.Moves config [.poll ⟨t, e, some a, m, m'⟩] u ∧
        deedsOf t (l ++ [.poll ⟨t, e, some a, m, m'⟩]) = [⟨e, a⟩] ∧
        ¬ Restarted t (l ++ [.poll ⟨t, e, some a, m, m'⟩]) ∧ u.ComesTo t (next a) ∧
        u.Reaches config log₂ s' := by
  cases hdeeds : deedsOf t log with
  | nil => exact Or.inl ⟨rfl, (h.stays hat hdeeds).1⟩
  | cons d rest =>
      obtain ⟨q, hq, -⟩ := h.follows hat
      rw [hdeeds] at hq
      obtain ⟨a, hd, -⟩ := Program.Follows.perform_cons_iff.mp hq
      subst hd
      obtain ⟨l, m, m', log₂, rfl, -, hl, -⟩ := deedsOf_split (hdeeds.trans (List.nil_append _).symm)
      obtain ⟨w, u, hw, move, hu⟩ := h.moment
      obtain ⟨hwat, hrestarted⟩ := hw.stays hat hl
      refine Or.inr ⟨a, m, m', l, log₂, w, u, by simp, hw, hl, move, ?_, fun hr => ?_,
        ⟨move.running_of_answer, move.goes_on hwat⟩, hu⟩
      · rw [deedsOf_append hrestarted, hl]
        simp [deedsOf]
      · exact (restarted_append.mp hr).elim hrestarted fun h => absurd h.2 (by simp)

/-- A task that comes to the first part of a program is still at it, or it has got to the end of
that part and goes on at once. -/
theorem Reaches.through {α : Type} {p : Program α} {k : α → Program t.Result}
    (h : s.Reaches config log s') (hat : s.ComesTo t (p.bind k)) :
    (∃ e next, p.Follows (deedsOf t log) (.perform e next) ∧
        s'.At t ((Program.perform e next).bind k) ∧ ¬ Restarted t log) ∨
      ∃ a log₁ log₂ u, log = log₁ ++ log₂ ∧ s.Reaches config log₁ u ∧ Prompt t log₁ ∧
        p.Follows (deedsOf t log₁) (.pure a) ∧ u.ComesTo t (k a) ∧ u.Reaches config log₂ s' := by
  rcases h.cut hat.at with hinside |
    ⟨a, log₁, log₂, u, rfl, hu, -, hp, hu', -, ⟨rfl, rfl, rfl⟩ | ⟨running, active, hlast⟩⟩
  · exact Or.inl hinside
  · exact Or.inr ⟨a, [], log₂, u, rfl, hu, Or.inl rfl, hp, hat, hu'⟩
  · exact Or.inr ⟨a, log₁, log₂, u, rfl, hu, Or.inr hlast, hp, ⟨running, active⟩, hu'⟩

theorem Moves.store_of_answer {a : e.Answer} {before after : Machine}
    (h : s.Moves config [.poll ⟨t, e, some a, before, after⟩] s') :
    s'.machine.world.store = after.world.store := by
  have hadv := h.advances
  change s'.outline.store = after.world.store
  generalize s.outline = o, s'.outline = o' at hadv
  cases hadv with
  | answer running active start polls =>
      rw [Outline.setTask_store]
      rfl

end System
end FlowEngine
