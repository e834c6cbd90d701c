import FlowEngine.Proofs.Run.Draining

/-!
# Closed runs

A run that was closed stays empty: no task that still does something belongs to it.
-/
namespace FlowEngine

def closings (log : List Occurrence) : List Nat :=
  log.filterMap fun
    | .poll ⟨_, .closeRun run _ _, some _, _, _⟩ => some run
    | _ => none

theorem closings_append (log more : List Occurrence) :
    closings (log ++ more) = closings log ++ closings more :=
  List.filterMap_append

theorem mem_closings {run : Nat} {log : List Occurrence} :
    run ∈ closings log ↔ ∃ t ending outputs result before after,
      .poll ⟨t, .closeRun run ending outputs, some result, before, after⟩ ∈ log := by
  constructor
  · intro h
    obtain ⟨x, hx, h⟩ := List.mem_filterMap.mp h
    split at h
    · cases h
      exact ⟨_, _, _, _, _, _, hx⟩
    · cases h
  · rintro ⟨t, ending, outputs, result, before, after, h⟩
    exact List.mem_filterMap.mpr ⟨_, h, rfl⟩

namespace Residence

variable {o o' : Outline} {place place' : TaskId → Residence} {config : Config}
  {log more : List Occurrence}

def Member (o : Outline) (place : TaskId → Residence) (run : Nat) : Prop :=
  ∃ t p w home, o.task? t = some (.active p w) ∧ (place t).home? = some home ∧ home.run = run

theorem join_of_new (adv : o.Advances config more o') {n : Nat}
    (hnone : o.task? (.branch n) = none) (hsome : (o'.task? (.branch n)).isSome) :
    ∃ t run policy group bs next w tasks before after,
      more = [.poll ⟨t, .join run policy group bs, none, before, after⟩] ∧
      o.task? t = some (.active (.perform (.join run policy group bs) next) w) ∧
      o'.task? t = some (.active (.perform (.join run policy group bs) next) (.branches tasks)) ∧
      n ∈ tasks := by
  have absurd_of (h : (o.task? (.branch n)).isSome) {p : Prop} : p := by
    rw [hnone] at h
    cases h
  cases adv with
  | @wait t e next w w' before after running active start polls =>
      have hsome' : ((after.outline o.main).task? (.branch n)).isSome :=
        (Outline.isSome_setTask _ _ _).symm.trans hsome
      obtain ⟨-, -, -, hb | ⟨run, policy, group, bs, rfl, hw, hspawn⟩⟩ := polls.tasks
      · refine absurd_of ?_
        rwa [Outline.task?, hb] at hsome'
      · obtain ⟨-, -, rfl⟩ := polls.starts hw
        refine ⟨t, run, policy, group, bs, next, w, List.range' o.branches.length bs.length, before,
          after, rfl, active, ?_, ?_⟩
        · exact Outline.task?_setTask_self _ _ (Option.isSome_of_eq_some (polls.task? active))
        · obtain ⟨state, hstate⟩ := Option.isSome_iff_exists.mp hsome'
          rcases Outline.task?_of_spawn (hspawn ▸ hstate) with hold | ⟨i, b, hb, hn, -⟩
          · rw [hnone] at hold
            cases hold
          · cases hn
            exact List.mem_range'.mpr
              ⟨i, (List.getElem?_eq_some_iff.mp hb).1, by rw [Nat.one_mul]⟩
  | answer running active start polls =>
      refine absurd_of ?_
      rwa [Outline.isSome_setTask, polls.task?_answered] at hsome
  | finish running active order => exact absurd_of ((Outline.isSome_setTask _ _ _).symm.trans hsome)
  | _ => exact absurd_of hsome

theorem opened_of_advances {t : TaskId} {flow : String} {parent : Token} {run : Nat} {token : Token}
    {before after : Machine}
    (adv : o.Advances config [.poll ⟨t, .openRun flow parent, some (run, token), before, after⟩] o') :
    o.runs.length ≤ run := by
  cases adv with
  | answer running active start polls =>
      obtain ⟨⟨n, h⟩, -⟩ := polls
      cases h
      exact Nat.le_refl _

/-- Who was not there before a move owns no run after it. -/
theorem not_owner_of_entered {t : TaskId} {home : Home}
    (moved : o.Moved discipline more o' place place')
    (hs : o.task? t = none) (hsome : (o'.task? t).isSome) (hhome : (place' t).home? = some home) :
    home.owner ≠ true := by
  rcases moved.entered hs hsome with ⟨-, hroot⟩ | ⟨b, hborn⟩
  · rw [hroot] at hhome
    cases hhome
  · rw [hborn] at hhome
    cases b with
    | steps ctx scope body collect =>
        cases hhome
        nofun
    | timed observed delay result => cases hhome

/-- A task that is in a run after a move was in it before, or has just opened it. -/
theorem home_or_opens {t : TaskId} {p : Program t.Result} {w : Wait} {home : Home}
    (adv : o.Advances config more o') (moved : o.Moved discipline more o' place place')
    (hs : o.task? t = some (.active p w)) (hhome : (place' t).home? = some home) :
    (place t).home? = some home ∨ ∃ flow parent m m',
      more = [.poll ⟨t, .openRun flow parent, some (home.run, home.base), m, m'⟩] := by
  rcases moved.stays_or_moves adv hs with hstay | ⟨e, a, m, m', rfl, hmove⟩
  · exact Or.inl (hstay ▸ hhome)
  · cases e with
    | openRun flow parent =>
        cases hplace : place t with
        | outside =>
            rw [hplace] at hmove
            obtain ⟨run, token⟩ := a
            rw [show place' t = .inside ⟨run, token, true⟩ from hmove] at hhome
            cases hhome
            exact Or.inr ⟨flow, parent, m, m', rfl⟩
        | drained home' =>
            rw [hplace] at hmove
            rw [show place' t = .inside home' from hmove] at hhome
            exact Or.inl hhome
        | _ =>
            rw [hplace] at hmove
            rw [show place' t = place t from hmove.trans hplace.symm, hplace] at hhome
            exact Or.inl hhome
    | closeRun run ending outputs =>
        cases hplace : place t with
        | drained home' =>
            rw [hplace] at hmove
            rw [show place' t = .closed from hmove] at hhome
            cases hhome
        | _ =>
            rw [hplace] at hmove
            rw [show place' t = place t from hmove.trans hplace.symm, hplace] at hhome
            exact Or.inl hhome
    | _ => exact Or.inl ((home?_of_moves hmove (by simp) (by simp)).symm.trans hhome)

/-- Who belongs to a run after a move did so before, was started by somebody who did, or has just
opened the run. -/
inductive Hails (o : Outline) (place : TaskId → Residence) (more : List Occurrence) (t : TaskId)
    (home : Home) : Prop where
  | stayed {p : Program t.Result} {w : Wait} (active : o.task? t = some (.active p w))
      (same : (place t).home? = some home)
  | started {u : TaskId} {p : Program u.Result} {w : Wait} {above : Home}
      (active : o.task? u = some (.active p w)) (home? : (place u).home? = some above)
      (run : above.run = home.run) (below : above.base.covers home.base = true)
  | opened {flow : String} {parent : Token} {before after : Machine}
      (opens : more = [.poll ⟨t, .openRun flow parent, some (home.run, home.base), before, after⟩])
      (new : o.runs.length ≤ home.run)

theorem hails_of_advances (adv : o.Advances config more o') (hh' : Holds o' place')
    (moved : o.Moved discipline more o' place place') {t : TaskId} {p : Program t.Result} {w : Wait}
    {home : Home} (ht : o'.task? t = some (.active p w)) (hhome : (place' t).home? = some home) :
    Hails o place more t home := by
  cases hs : o.task? t with
  | none =>
      rcases moved.entered hs (Option.isSome_of_eq_some ht) with ⟨-, hroot⟩ | ⟨b, hborn⟩
      · rw [hroot] at hhome
        cases hhome
      · cases t with
        | branch n =>
            obtain ⟨u, run, policy, group, bs, next, w', tasks, before, after, rfl, hu, hu', hn⟩ :=
              join_of_new adv hs (Option.isSome_of_eq_some ht)
            obtain ⟨hbranch, -, above, huhome, hrun, hcovers⟩ := hh'.joined hu' hn
            have hsame : place' u = place u := by
              rcases moved.stays_or_moves adv hu with h | ⟨e, a, b, c, h, -⟩
              · exact h
              · cases h
            cases hbranch.2.symm.trans hhome
            exact .started hu (hsame ▸ huhome) hrun hcovers
        | _ =>
            have hsome : (o'.task? _).isSome := Option.isSome_of_eq_some ht
            exact absurd (hh'.rooted (by simp) hhome) (not_owner_of_entered moved hs hsome hhome)
  | some state =>
      cases state with
      | ended a order =>
          rcases adv.ended hs with ⟨-, hstill | hr⟩
          · rw [hstill] at ht
            cases ht
          · rw [moved.restarted hr] at hhome
            cases hhome
      | active q w' =>
          rcases home_or_opens adv moved hs hhome with hold | ⟨flow, parent, before, after, rfl⟩
          · exact .stayed hs hold
          · exact .opened rfl (opened_of_advances adv)

/-- A run that has members had some before, or it was just opened. -/
theorem member_of_advances (adv : o.Advances config more o') (hh' : Holds o' place')
    (moved : o.Moved discipline more o' place place') {run : Nat} (h : Member o' place' run) :
    Member o place run ∨ o.runs.length ≤ run := by
  obtain ⟨t, p, w, home, ht, hhome, rfl⟩ := h
  cases hails_of_advances adv hh' moved ht hhome with
  | stayed active same => exact Or.inl ⟨t, _, _, home, active, same, rfl⟩
  | started active home? run below => exact Or.inl ⟨_, _, _, _, active, home?, run⟩
  | opened opens new => exact Or.inr new

def Closed (log : List Occurrence) (o : Outline) (place : TaskId → Residence) : Prop :=
  ∀ run ∈ closings log, run < o.runs.length ∧ ¬ Member o place run

/-- The only way to get a run is to open one. -/
theorem runs_of_advances (adv : o.Advances config more o') :
    o'.runs.length = o.runs.length ∨ o'.runs.length = o.runs.length + 1 ∧
      ∃ t flow parent token before after next w,
        more = [.poll ⟨t, .openRun flow parent, some (o.runs.length, token), before, after⟩] ∧
        o.task? t = some (.active (.perform (.openRun flow parent) next) w) := by
  have hpolls {w : Wait} {e : Effect} {turn : Turn e.Answer} {o₁ : Outline}
      (polls : o.Polls w o₁ e turn) : o₁.runs.length = o.runs.length ∨
        o₁.runs.length = o.runs.length + 1 ∧ ∃ flow parent, e = .openRun flow parent := by
    cases e with
    | openRun flow parent =>
        obtain ⟨-, rfl⟩ := polls
        exact Or.inr ⟨by simp, flow, parent, rfl⟩
    | join run policy group bs =>
        simp only [Outline.Polls] at polls
        split at polls
        · cases polls <;> exact Or.inl (by simp)
        · obtain ⟨rfl, -⟩ := polls
          exact Or.inl rfl
    | settle run token => cases polls <;> exact Or.inl (by simp)
    | _ => exact Or.inl (polls.calm (by simp) (by simp) (by simp)).2.2.1.symm
  cases adv with
  | finish running active order => exact Or.inl (congrArg List.length (o.setTask_runs _))
  | @answer t e next w a before after running active start polls =>
      rw [Outline.setTask_runs]
      refine (hpolls polls).imp_right ?_
      rintro ⟨hlength, flow, parent, rfl⟩
      obtain ⟨⟨n, ha⟩, -⟩ := polls
      cases ha
      exact ⟨hlength, t, flow, parent, _, before, after, next, w, rfl, active⟩
  | @wait t e next w w' before after running active start polls =>
      have hruns := congrArg List.length
        (Outline.setTask_runs (after.outline o.main) (t := t) (.active (.perform e next) w'))
      rcases hpolls polls with hlength | ⟨-, flow, parent, rfl⟩
      · exact Or.inl (hruns.trans hlength)
      · obtain ⟨⟨n, ha⟩, -⟩ := polls
        cases ha
  | _ => exact Or.inl rfl

/-- When its owner closes a run, the branches of the run have ended. -/
theorem not_member_of_closing (adv : o.Advances config more o') (hh : Holds o place)
    (hallows : ∀ {t : TaskId} {e : Effect} {next : e.Answer → Program t.Result} {w : Wait},
      o.task? t = some (.active (.perform e next) w) → protocol.allows (place t) e)
    (moved : o.Moved discipline more o' place place')
    (hh' : Holds o' place') {run : Nat} (hrun : run ∈ closings more) :
    run < o.runs.length ∧ ¬ Member o' place' run := by
  cases adv with
  | @answer t e next w a before after running active start polls =>
      cases e with
      | closeRun run' ending outputs =>
          obtain rfl : run = run' := by simpa [closings] using hrun
          replace hallows := hallows active
          cases hplace : place t with
          | drained home =>
              rw [hplace] at hallows
              obtain ⟨rfl, howner⟩ := hallows
              have hhome : (place t).home? = some home := by rw [hplace]; rfl
              refine ⟨hh.opened hhome, ?_⟩
              rintro ⟨v, p, w', home', hv, hvhome, hrun'⟩
              have hmove := moved.moves (Option.isSome_of_eq_some active)
              rw [hplace] at hmove
              have hvt : v ≠ t := by
                rintro rfl
                rw [show place' v = .closed from hmove] at hvhome
                cases hvhome
              have hv' : o.task? v = some (.active p w') := by
                rw [← polls.task?_answered v, ← hv]
                exact (Outline.task?_setTask_of_ne _ _ hvt).symm
              rw [moved.stays (Option.isSome_of_eq_some hv') hvt] at hvhome
              cases v with
              | branch n =>
                  obtain ⟨run'', base, hb⟩ := hh.housed (List.getElem?_eq_some_iff.mp hv').1
                  cases hb.2.symm.trans hvhome
                  have hended := (hh.drained hplace).2 n base (by rwa [← hrun'])
                  exact not_ended_of_active hv' hended
              | _ => exact hvt (hh.owner hvhome hhome (hh.rooted (by simp) hvhome) howner hrun')
          | _ =>
              rw [hplace] at hallows
              exact hallows.elim
      | _ =>
          obtain ⟨_, _, _, _, _, _, hm⟩ := mem_closings.mp hrun
          cases List.mem_singleton.mp hm
  | _ => simp [closings] at hrun

theorem Closed.step (h : Closed log o place) (adv : o.Advances config more o') (hh : Holds o place)
    (hallows : ∀ {t : TaskId} {e : Effect} {next : e.Answer → Program t.Result} {w : Wait},
      o.task? t = some (.active (.perform e next) w) → protocol.allows (place t) e)
    (hh' : Holds o' place')
    (moved : o.Moved discipline more o' place place') : Closed (log ++ more) o' place' := by
  intro run hrun
  rw [closings_append, List.mem_append] at hrun
  have hle : o.runs.length ≤ o'.runs.length := by
    rcases runs_of_advances adv with h | ⟨h, -⟩ <;> omega
  rcases hrun with hrun | hrun
  · obtain ⟨hlt, hempty⟩ := h run hrun
    refine ⟨Nat.lt_of_lt_of_le hlt hle, fun hmember => ?_⟩
    rcases member_of_advances adv hh' moved hmember with hm | hge
    · exact hempty hm
    · omega
  · obtain ⟨hlt, hempty⟩ := not_member_of_closing adv hh hallows moved hh' hrun
    exact ⟨Nat.lt_of_lt_of_le hlt hle, hempty⟩

theorem holds_initial {s : System RunResult} (h : System.Initial config s) :
    Holds s.outline fun _ => .outside := by
  obtain ⟨world, numbered⟩ := h
  have hno {n run : Nat} {base : Token} :
      ¬ BranchOf (System.outline ⟨.new config world, .ended default 0⟩)
        (fun _ => .outside) n run base := by
    rintro ⟨-, hb⟩
    cases hb
  constructor
  · rintro t home ⟨⟩
  · intro n hn
    exact absurd hn (Nat.not_lt_zero n)
  · rintro t home - ⟨⟩
  · rintro t u home home' ⟨⟩
  · intro t run policy group bs next tasks n ht
    cases t <;> cases ht
  · intro t run token next tasks count n ht
    cases t <;> cases ht
  · intro run n hn
    cases hn
  · exact fun hb => absurd hb hno
  · rintro t home ⟨⟩

end Residence
end FlowEngine
