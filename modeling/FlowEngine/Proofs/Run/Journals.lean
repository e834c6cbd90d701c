import FlowEngine.Proofs.Program.Alone
import FlowEngine.Proofs.Run.Branches

/-!
# Journals of runs

The journal of a run that is open holds what the tasks of the session have written down for
it, in that order, and nothing else. It begins as an empty journal when the run is opened.
-/
namespace FlowEngine

namespace Journal

def write (j : Journal) (entries : List Entry) : Journal := entries.foldl add j

@[simp] theorem write_nil (j : Journal) : j.write [] = j := rfl

@[simp] theorem write_cons (j : Journal) (entry : Entry) (entries : List Entry) :
    j.write (entry :: entries) = (j.add entry).write entries := rfl

theorem write_append (j : Journal) (entries more : List Entry) :
    j.write (entries ++ more) = (j.write entries).write more :=
  List.foldl_append

end Journal

def Effect.entriesFor (run : Nat) (e : Effect) : List Entry :=
  if e.run? = some run then e.entries else []

def entriesOf (run : Nat) (log : List Occurrence) : List Entry :=
  log.flatMap fun
    | .poll ⟨_, e, some _, _, _⟩ => e.entriesFor run
    | _ => []

theorem entriesOf_append (run : Nat) (log more : List Occurrence) :
    entriesOf run (log ++ more) = entriesOf run log ++ entriesOf run more :=
  List.flatMap_append

theorem mem_entriesOf {run : Nat} {entry : Entry} {log : List Occurrence} :
    entry ∈ entriesOf run log ↔ ∃ t before after,
      .poll ⟨t, .note run entry, some (), before, after⟩ ∈ log := by
  constructor
  · intro h
    obtain ⟨x, hx, hentry⟩ := List.mem_flatMap.mp h
    split at hentry
    · rename_i t e a before after
      cases e with
      | note number other =>
          by_cases hnumber : number = run
          · subst hnumber
            obtain rfl : entry = other := by
              simpa [Effect.entriesFor, Effect.run?, Effect.entries] using hentry
            exact ⟨t, before, after, hx⟩
          · simp [Effect.entriesFor, Effect.run?, hnumber] at hentry
      | _ => simp [Effect.entriesFor, Effect.entries] at hentry
    · cases hentry
  · rintro ⟨t, before, after, hx⟩
    refine List.mem_flatMap.mpr ⟨_, hx, ?_⟩
    simp [Effect.entriesFor, Effect.run?, Effect.entries]

theorem entriesOf_append_of_mem {run : Nat} {entry : Entry} {l log : List Occurrence}
    (h : entry ∈ entriesOf run l) (hl : l ⊆ log) : entry ∈ entriesOf run log := by
  obtain ⟨t, before, after, hm⟩ := mem_entriesOf.mp h
  exact mem_entriesOf.mpr ⟨t, before, after, hl hm⟩

namespace Outline

variable {o o₁ o' : Outline} {run : Nat} {config : Config} {log : List Occurrence}

def journal? (o : Outline) (run : Nat) : Option Journal := o.runs[run]?.map RunOutline.journal

theorem journal?_modifyRun (o : Outline) (run other : Nat) {f : RunOutline → RunOutline}
    {g : Journal → Journal} (h : ∀ r, (f r).journal = g r.journal) :
    (o.modifyRun run f).journal? other =
      (o.journal? other).map fun j => if run = other then g j else j := by
  simp only [journal?, modifyRun, List.getElem?_modify]
  cases o.runs[other]? with
  | none => rfl
  | some r =>
      by_cases hr : run = other
      · simp [hr, h]
      · simp [hr]

theorem journal?_modifyRun_of_eq (o : Outline) (run other : Nat) {f : RunOutline → RunOutline}
    (h : ∀ r, (f r).journal = r.journal) :
    (o.modifyRun run f).journal? other = o.journal? other := by
  rw [o.journal?_modifyRun run other (show ∀ r, (f r).journal = id r.journal from h)]
  simp

theorem journal?_open (o : Outline) (flow : String) (run : Nat) :
    Outline.journal? { o with runs := o.runs ++ [⟨.empty, [], .start flow⟩] } run = o.journal? run ∨
      o.journal? run = none ∧ Outline.journal? { o with
        runs := o.runs ++ [⟨.empty, [], .start flow⟩] } run = some (.start flow) := by
  rcases o.run_open ⟨.empty, [], .start flow⟩ run with h | ⟨hnone, h⟩
  · exact Or.inl (congrArg _ h)
  · refine Or.inr ⟨?_, ?_⟩
    · rw [journal?, hnone, Option.map_none]
    · rw [journal?, h, Option.map_some]

/-- Between its beginning and its end a journal gets what is written for its run. -/
theorem Polls.journal? {w : Wait} {e : Effect} {turn : Turn e.Answer} (h : o.Polls w o₁ e turn)
    (hc : ∀ ending outputs, e ≠ .closeRun run ending outputs) :
    o₁.journal? run = (o.journal? run).map (·.write (e.entriesFor run)) ∨
      o.journal? run = none ∧ ∃ flow, o₁.journal? run = some (.start flow) := by
  have kept (he : e.entries = []) (hsame : o₁.journal? run = o.journal? run) :
      o₁.journal? run = (o.journal? run).map (·.write (e.entriesFor run)) ∨
        o.journal? run = none ∧ ∃ flow, o₁.journal? run = some (.start flow) := by
    refine Or.inl ?_
    rw [hsame, Effect.entriesFor, he, ite_self]
    exact Option.map_id'.symm
  cases h.alters with
  | @noted other entry turn =>
      refine Or.inl ?_
      rw [o.journal?_modifyRun other run (g := (·.add entry)) fun _ => rfl]
      congr 1
      funext j
      by_cases hr : other = run
      · simp [Effect.entriesFor, Effect.run?, Effect.entries, hr]
      · simp [Effect.entriesFor, Effect.run?, hr]
  | still silent =>
      refine kept ?_ rfl
      cases e with
      | note other entry => exact absurd rfl (silent other entry)
      | _ => rfl
  | failed left => exact kept rfl (journal?_modifyRun_of_eq _ _ _ fun _ => rfl)
  | settled left => exact kept rfl (journal?_modifyRun_of_eq _ _ _ fun _ => rfl)
  | begun begins => exact kept rfl (journal?_modifyRun_of_eq _ _ _ fun _ => rfl)
  | released slot => exact kept rfl (journal?_modifyRun_of_eq _ _ _ fun _ => rfl)
  | @opened flow parent turn =>
      exact (o.journal?_open flow run).elim (kept rfl) fun h => Or.inr ⟨h.1, flow, h.2⟩
  | @closed other ending outputs turn journal =>
      have hne : other ≠ run := fun h => hc ending outputs (h ▸ rfl)
      refine kept rfl ?_
      rw [o.journal?_modifyRun other run (g := fun _ => journal) fun _ => rfl]
      simp [hne]
  | _ => exact kept rfl rfl

@[simp] theorem journal?_setTask (o : Outline) {t : TaskId} (state : TaskState t.Result) :
    (o.setTask t state).journal? run = o.journal? run := by
  rw [journal?, setTask_runs]
  rfl

theorem Advances.journal? (h : o.Advances config log o') : run ∈ closings log ∨
    o'.journal? run = (o.journal? run).map (·.write (entriesOf run log)) ∨
      o.journal? run = none ∧ ∃ flow, o'.journal? run = some (.start flow) := by
  have still (hlog : entriesOf run log = []) (hsame : o'.journal? run = o.journal? run) :
      o'.journal? run = (o.journal? run).map (·.write (entriesOf run log)) := by
    rw [hsame, hlog]
    exact Option.map_id'.symm
  cases h with
  | finish running active order => exact Or.inr (Or.inl (still rfl (o.journal?_setTask _)))
  | @answer t e next w a before after running active start polls =>
      rw [journal?_setTask]
      by_cases hc : ∃ ending outputs, e = .closeRun run ending outputs
      · obtain ⟨ending, outputs, rfl⟩ := hc
        exact Or.inl (by simp [closings])
      · have hentries : entriesOf run [.poll ⟨t, e, some a, before, after⟩] = e.entriesFor run := by
          simp [entriesOf]
        rw [hentries]
        exact Or.inr (polls.journal? fun ending outputs h => hc ⟨ending, outputs, h⟩)
  | @wait t e next w w' before after running active start polls =>
      have hsame : ({ (after.outline o.main).setTask t (.active (.perform e next) w') with
          running := none } : Outline).journal? run = (after.outline o.main).journal? run :=
        journal?_setTask _ _
      rw [hsame]
      refine Or.inr ?_
      have hentries : e.entriesFor run = [] := by
        cases e with
        | note => exact polls.waits.elim
        | _ => simp [Effect.entriesFor, Effect.entries]
      have hopen (ending : Ending) (outputs : List (String × Json)) :
          e ≠ .closeRun run ending outputs := by
        rintro rfl
        exact polls.waits.elim
      have hpolls := polls.journal? hopen
      rwa [hentries] at hpolls
  | _ => exact Or.inr (Or.inl (still rfl rfl))

theorem Advances.journal?_of_opens {t : TaskId} {flow : String} {parent token : Token}
    {before after : Machine}
    (h : o.Advances config [.poll ⟨t, .openRun flow parent, some (run, token), before, after⟩] o') :
    run = o.runs.length ∧ o'.journal? run = some (.start flow) := by
  cases h with
  | @answer _ _ next _ _ _ _ running active start polls =>
      obtain ⟨⟨n, hturn⟩, hruns⟩ := polls
      obtain ⟨rfl, -⟩ := Prod.mk.inj (Turn.answered.inj hturn)
      refine ⟨rfl, ?_⟩
      rw [journal?_setTask, hruns]
      simp only [Outline.journal?, List.getElem?_concat_length, Option.map_some]

end Outline

variable {config : Config} {log : List Occurrence} {s s' : System RunResult} {run : Nat}

/-- While a run is not closed, its journal grows by what is written down for it. -/
theorem System.Reaches.journal? (h : s.Reaches config log s') {j : Journal}
    (hj : s.outline.journal? run = some j) (hopen : run ∉ closings log) :
    s'.outline.journal? run = some (j.write (entriesOf run log)) := by
  induction h with
  | refl => exact hj
  | @move log more _ _ before move ih =>
      rw [closings_append, List.mem_append, not_or] at hopen
      have hnow := ih hopen.1
      rcases move.advances.journal? with hclosed | hgrown | ⟨hnone, -⟩
      · exact absurd hclosed hopen.2
      · rw [hgrown, hnow, entriesOf_append, Journal.write_append]
        rfl
      · rw [hnow] at hnone
        cases hnone

end FlowEngine

/-!
## The status of a run

A run is running from the moment it is opened until it is closed: nothing but its end
changes the status in its journal. So the ending that a run is closed with decides the
status of its result.
-/
namespace FlowEngine

namespace Journal

theorem add_status (j : Journal) (entry : Entry) : (j.add entry).run.status = j.run.status := by
  cases entry <;> rfl

theorem write_status (j : Journal) (entries : List Entry) :
    (j.write entries).run.status = j.run.status := by
  induction entries generalizing j with
  | nil => rfl
  | cons entry rest ih => exact (ih _).trans (j.add_status entry)

theorem finish_status {j : Journal} (h : j.run.status = .running) (ending : Ending) :
    (j.finish ending).run.status = j.finalStatus ending := by
  unfold finish Run.finish
  rw [if_pos h]
  rfl

end Journal

namespace Outline

variable {o o' : Outline} {run : Nat}

def status? (o : Outline) (run : Nat) : Option RunStatus :=
  o.runs[run]?.map fun r => r.journal.run.status

theorem status?_eq (o : Outline) (run : Nat) :
    o.status? run = (o.journal? run).map fun j => j.run.status := by
  rw [status?, journal?, Option.map_map]
  rfl

/-- A run keeps its status unless it is closed; a new run is running. -/
theorem Advances.status? {config : Config} {log : List Occurrence} (h : o.Advances config log o') :
    run ∈ closings log ∨ o'.status? run = o.status? run ∨ o'.status? run = some .running := by
  rw [status?_eq, status?_eq]
  rcases h.journal? with hclosed | hgrown | ⟨-, flow, hnew⟩
  · exact Or.inl hclosed
  · refine Or.inr (Or.inl ?_)
    rw [hgrown, Option.map_map]
    exact congrArg (Option.map · _) (funext fun j => j.write_status _)
  · refine Or.inr (Or.inr ?_)
    rw [hnew]
    rfl

end Outline

variable {config : Config} {log : List Occurrence} {s s' : System RunResult} {run : Nat}

theorem Session.running_of_open (h : Session config log s) (hopen : run ∉ closings log)
    (hrun : run < s.outline.runs.length) : s.outline.status? run = some .running := by
  suffices hgoal : run ∈ closings log ∨ s.outline.status? run = none ∨
      s.outline.status? run = some .running by
    rcases hgoal with hclosed | hnone | hrunning
    · exact absurd hclosed hopen
    · rw [Outline.status?, List.getElem?_eq_getElem hrun] at hnone
      cases hnone
    · exact hrunning
  clear hopen hrun
  obtain ⟨s₀, ⟨world, numbered⟩, hreaches⟩ := h
  induction hreaches with
  | refl => exact Or.inr (Or.inl rfl)
  | move before move ih =>
      rw [closings_append, List.mem_append]
      rcases move.advances.status? with hclosed | hsame | hrunning
      · exact Or.inl (Or.inr hclosed)
      · rw [hsame]
        exact ih.imp_left Or.inl
      · exact Or.inr (Or.inr hrunning)

theorem Session.status_of_closes (h : Session config log s) {t : TaskId} {ending : Ending}
    {outputs : List (String × Json)} {result : RunResult} {m m' : Machine}
    (move : s.Moves config [.poll ⟨t, .closeRun run ending outputs, some result, m, m'⟩] s') :
    ∃ journal : Journal, result = (journal.finish ending).result run ending outputs ∧
      result.status = journal.finalStatus ending := by
  obtain ⟨place, hhoused⟩ := Residence.housed_of_session h
  have hopen : run ∉ closings log := fun hclosed => hhoused.run_ne_of_closed hclosed move rfl
  obtain ⟨next, w, active⟩ := move.advances.active_of_poll
  obtain ⟨home, hhome, rfl⟩ := Residence.home_of_allows (hhoused.obedient.active active).1 rfl
  have hlt := hhoused.holds.opened hhome
  have hstatus := h.running_of_open hopen hlt
  have hrun : s.outline.runs[home.run]? = some s.outline.runs[home.run] :=
    List.getElem?_eq_getElem hlt
  obtain ⟨-, next, w, -, polls⟩ := move.polls_of_answer
  simp only [Outline.Polls, hrun] at polls
  obtain ⟨hresult, -⟩ := polls
  cases hresult
  rw [Outline.status?, hrun] at hstatus
  exact ⟨_, rfl, Journal.finish_status (Option.some.inj hstatus) ending⟩

end FlowEngine
