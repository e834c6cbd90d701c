import FlowEngine.Proofs.Run.Outliving
import FlowEngine.Proofs.Run.Spans

/-!
# The journals of a run

The records of a run, its events and its spans are written by the same steps. When the run is
closed they agree, whatever its branches did at the same time and whichever of them were left
behind.
-/
namespace FlowEngine

namespace Books

variable {config : Config} {run : Nat} {log more : List Occurrence} {o o' : Outline}
  {place place' : TaskId → Books} {t : TaskId}

theorem owed_of_not_owes {u : Books} (h : ¬ u.Owes) : u.owed run = [] := by
  cases u with
  | settled spans => rfl
  | owing number id status spans => exact absurd trivial h

structure Told (run : Nat) (log : List Occurrence) (o : Outline) (place : TaskId → Books) :
    Prop where
  ends : (entriesOf run log).filterMap Entry.ended? = Mark.ends ((marksOf run log).map Prod.snd) ++
    o.running.elim [] fun t => (place t).owed run
  unclosed {t : TaskId} : (o.task? t).isSome →
    Unclosed ((place t).openIn run) (marksBy t (marksOf run log))
  absent {t : TaskId} : o.task? t = none → marksBy t (marksOf run log) = []

theorem Holds.not_owes (hh : Holds o place) (hob : o.Obedient discipline place)
    (adv : o.Advances config more o')
    (hno : ∀ t e a before after, more ≠ [.poll ⟨t, e, some a, before, after⟩]) (t : TaskId) :
    ¬ (place t).Owes := by
  intro ht
  obtain ⟨running, p, w, active⟩ := hh t ht
  cases adv with
  | pick u idle | cancel tokens idle | submit flow inputs token idle | errand idle ended errand =>
      exact hh.idle idle t ht
  | stop running' inactive =>
      cases running.symm.trans running'
      exact inactive p w active
  | finish running' active' order =>
      cases running.symm.trans running'
      have hfinal : place t = settled [] := (hob.active active' : discipline.final (place t))
      rw [hfinal] at ht
      exact ht
  | answer running' active' start polls => exact hno _ _ _ _ _ rfl
  | wait running' active' start polls =>
      cases running.symm.trans running'
      exact ht.not_waits (hob.active active').1 polls

section Quiet

variable (adv : o.Advances config more o')
  (hno : ∀ t e a before after, more ≠ [.poll ⟨t, e, some a, before, after⟩])
include adv hno

/-- In a move without an answer nothing is written down. -/
theorem unwritten_of_quiet (run : Nat) : marksOf run more = [] ∧ entriesOf run more = [] := by
  simp only [List.eq_nil_iff_forall_not_mem]
  constructor
  · rintro ⟨t, mark⟩ hm
    obtain ⟨e, a, before, after, hx, -⟩ := mem_marksOf hm
    exact hno _ _ _ _ _ (adv.eq_singleton_of_mem hx)
  · intro entry hm
    obtain ⟨t, before, after, hx⟩ := mem_entriesOf.mp hm
    exact hno _ _ _ _ _ (adv.eq_singleton_of_mem hx)

/-- In a move without an answer every task keeps its books. -/
theorem kept_of_quiet (hob : o.Obedient discipline place)
    (moved : o.Moved discipline more o' place place') {state : TaskState t.Result}
    (ht : o.task? t = some state) : place' t = place t := by
  cases state with
  | active p w =>
      rcases moved.stays_or_moves adv ht with hstay | ⟨e, a, before, after, hlog, -⟩
      · exact hstay
      · exact absurd hlog (hno _ _ _ _ _)
  | ended a order =>
      rcases moved.of_ended adv ht with hstay | hroot
      · exact hstay
      · exact hroot.trans (hob.ended ht : place t = settled []).symm

end Quiet

/-- Who was not there before a move begins with no spans. -/
theorem settled_of_entered (moved : o.Moved discipline more o' place place')
    (ht : o.task? t = none) (ht' : (o'.task? t).isSome) : place' t = settled [] := by
  rcases moved.entered ht ht' with ⟨-, hroot⟩ | ⟨b, hborn⟩
  · exact hroot
  · exact hborn

/-- In a move without an answer nobody opens or ends a span. -/
theorem Told.quiet (hk : Told run log o place) (adv : o.Advances config more o')
    (hob : o.Obedient discipline place) (hh : Holds o place) (hh' : Holds o' place')
    (moved : o.Moved discipline more o' place place')
    (hno : ∀ t e a before after, more ≠ [.poll ⟨t, e, some a, before, after⟩]) :
    Told run (log ++ more) o' place' := by
  have howes := hh.not_owes hob adv hno
  have howes' (t : TaskId) : ¬ (place' t).Owes := by
    intro ht
    obtain ⟨-, p, w, active⟩ := hh' t ht
    cases hs : o.task? t with
    | none =>
        rw [settled_of_entered moved hs (Option.isSome_of_eq_some active)] at ht
        exact ht
    | some state =>
        rw [kept_of_quiet adv hno hob moved hs] at ht
        exact howes t ht
  have hnone (o : Outline) {place : TaskId → Books} (h : ∀ t, ¬ (place t).Owes) :
      (o.running.elim [] fun t => (place t).owed run) = [] := by
    cases o.running with
    | none => rfl
    | some t => exact owed_of_not_owes (h t)
  obtain ⟨hmarks, hentries⟩ := unwritten_of_quiet adv hno run
  constructor
  · rw [entriesOf_append, marksOf_append, hentries, hmarks, List.append_nil, List.append_nil, hk.ends,
      hnone o howes, hnone o' howes']
  · intro t ht'
    rw [marksOf_append, hmarks, List.append_nil]
    cases hs : o.task? t with
    | none =>
        rw [settled_of_entered moved hs ht', hk.absent hs]
        exact .nil
    | some state =>
        rw [kept_of_quiet adv hno hob moved hs]
        exact hk.unclosed (Option.isSome_of_eq_some hs)
  · intro t ht'
    rw [marksOf_append, hmarks, List.append_nil]
    refine hk.absent (Option.not_isSome_iff_eq_none.mp fun hs => ?_)
    have := adv.isSome_task? hs
    rw [ht'] at this
    cases this

/-- A task that gets an answer may open or end a span, and it keeps its books. -/
theorem Told.answer {e : Effect} {a : e.Answer} {before after : Machine}
    (hk : Told run log o place)
    (adv : o.Advances config [.poll ⟨t, e, some a, before, after⟩] o')
    (hob : o.Obedient discipline place)
    (moved : o.Moved discipline [.poll ⟨t, e, some a, before, after⟩] o' place place') :
    Told run (log ++ [.poll ⟨t, e, some a, before, after⟩]) o' place' := by
  obtain ⟨next, w, active⟩ := adv.active_of_poll
  have hallows : protocol.allows (place t) e := (hob.active active).1
  have hmove : protocol.moves (place t) e a (place' t) := moved.moves (Option.isSome_of_eq_some active)
  have hmarks : marksOf run [.poll ⟨t, e, some a, before, after⟩] = (e.mark? run).toList.map (t, ·) := by
    simp [marksOf]
  have hentries : entriesOf run [.poll ⟨t, e, some a, before, after⟩] = e.entriesFor run := by
    simp [entriesOf]
  have hmine : marksBy t ((e.mark? run).toList.map (t, ·)) = (e.mark? run).toList := by
    cases e.mark? run <;> simp [marksBy]
  have hothers {u : TaskId} (hu : u ≠ t) : marksBy u ((e.mark? run).toList.map (t, ·)) = [] := by
    cases e.mark? run <;> simp [marksBy, Ne.symm hu]
  obtain ⟨running, running', htasks⟩ : o.running = some t ∧ o'.running = some t ∧
      ∀ u, (o'.task? u).isSome = (o.task? u).isSome := by
    cases adv with
    | answer running active start polls =>
        refine ⟨running, ?_, fun u => ?_⟩
        · rw [Outline.setTask_running, polls.tasks.2.1]
          exact running
        · rw [Outline.isSome_setTask, polls.task?_answered]
  constructor
  · have hstep : (place t).owed run ++ (e.entriesFor run).filterMap Entry.ended? =
        Mark.ends (e.mark? run).toList ++ (place' t).owed run := owed_step hallows hmove
    rw [entriesOf_append, List.filterMap_append, marksOf_append, List.map_append, Mark.ends_append,
      hk.ends, running, running', hentries, hmarks, List.append_assoc, Option.elim_some, hstep,
      ← List.append_assoc]
    simp [Function.comp_def]
  · intro u hu
    rw [htasks] at hu
    rw [marksOf_append, marksBy_append, hmarks]
    by_cases hut : u = t
    · subst hut
      rw [hmine]
      exact unclosed_step (hk.unclosed hu) hallows hmove
    · rw [hothers hut, List.append_nil, moved.stays hu hut]
      exact hk.unclosed hu
  · intro u hu
    have hu' : o.task? u = none := by
      rw [← Option.not_isSome_iff_eq_none, ← htasks, hu]
      simp
    have hut : u ≠ t := by
      rintro rfl
      rw [active] at hu'
      cases hu'
    rw [marksOf_append, marksBy_append, hmarks, hothers hut, List.append_nil]
    exact hk.absent hu'

theorem Told.step (hk : Told run log o place) (adv : o.Advances config more o')
    (hob : o.Obedient discipline place) (hh : Holds o place) (hh' : Holds o' place')
    (moved : o.Moved discipline more o' place place') : Told run (log ++ more) o' place' := by
  by_cases hanswer : ∃ t e a before after, more = [.poll ⟨t, e, some a, before, after⟩]
  · obtain ⟨t, e, a, before, after, rfl⟩ := hanswer
    exact hk.answer adv hob moved
  · exact hk.quiet adv hob hh hh' moved fun t e a before after h => hanswer ⟨t, e, a, before, after, h⟩

theorem told_of_session {s : System RunResult} (h : Session config log s) (run : Nat) :
    ∃ place, s.outline.Obedient discipline place ∧ Holds s.outline place ∧
      Told run log s.outline place := by
  obtain ⟨s₀, hs₀, hr⟩ := h
  have hinitial : Told run [] s₀.outline fun _ => discipline.root := by
    obtain ⟨world, numbered⟩ := hs₀
    exact ⟨rfl, fun _ => .nil, fun _ => rfl⟩
  obtain ⟨place, hob, hh, hk, -⟩ := (sound config).along (K := Told run)
    (fun adv hob hh _ hh' moved hk => hk.step adv hob hh hh' moved) hr
    ((sound config).obedient_initial hs₀) (holds_initial hs₀) hinitial
  exact ⟨place, hob, hh, hk⟩

end Books

/-! ## When a run is closed -/

namespace Session.Lives

variable {config : Config} {flow : Flow} {earlier during : List Occurrence} {u v : System RunResult}
  {t : TaskId} {ctx : Context} {inputs : List (String × Json)} {ending : Ending}
  {outputs : List (String × Json)} {result : RunResult}

/-- Before a run is opened nothing is written down for it. -/
theorem blank (h : Session.Lives config flow earlier during u v t ctx inputs ending outputs result) :
    marksOf ctx.run earlier = [] ∧ entriesOf ctx.run earlier = [] := by
  simp only [List.eq_nil_iff_forall_not_mem]
  constructor
  · rintro ⟨t, mark⟩ hm
    obtain ⟨e, a, m, m', hx, hmark⟩ := mem_marksOf hm
    exact h.commences.fresh hx (Effect.run?_of_mark? hmark)
  · intro entry hm
    obtain ⟨t, m, m', hx⟩ := mem_entriesOf.mp hm
    exact h.commences.fresh hx rfl

theorem worker_of_mark (h : Session.Lives config flow earlier during u v t ctx inputs ending outputs result)
    {t' : TaskId} {mark : Mark} (hm : (t', mark) ∈ marksOf ctx.run during) :
    t' = t ∨ ∃ n, t' = .branch n ∧ (ctx.run, n) ∈ startings during := by
  obtain ⟨e, a, m, m', hx, hmark⟩ := mem_marksOf hm
  obtain ⟨l, k, rfl⟩ := List.append_of_mem hx
  obtain ⟨s, s', hl, move, -⟩ := h.reaches.moment
  refine (h.worker hl move (Effect.run?_of_mark? hmark)).imp_right fun ⟨n, hn, hstarted⟩ => ⟨n, hn, ?_⟩
  rw [startings_append]
  exact List.mem_append_left _ hstarted

/-- When a run is closed, the ends of its spans are those of the steps that were written down, and
each task has ended every span that it started. -/
theorem told (h : Session.Lives config flow earlier during u v t ctx inputs ending outputs result) :
    (entriesOf ctx.run during).filterMap Entry.ended? =
        Mark.ends ((marksOf ctx.run during).map Prod.snd) ∧
      ∀ task, Balanced (marksBy task (marksOf ctx.run during)) := by
  have hsession := h.session.reaches h.reaches
  obtain ⟨place, hob, -, hk⟩ := Books.told_of_session hsession ctx.run
  obtain ⟨home, hhoused⟩ := Residence.housed_of_session hsession
  obtain ⟨m, m', v', hclose⟩ := h.closes
  obtain ⟨next, w, active⟩ := hclose.advances.active_of_poll
  have hallows : Books.protocol.allows (place t) (.closeRun ctx.run ending outputs) :=
    (hob.active active).1
  have hplace : place t = .settled [] := by
    cases hp : place t with
    | settled spans =>
        rw [hp] at hallows
        exact congrArg Books.settled hallows
    | owing number id status spans =>
        rw [hp] at hallows
        exact hallows.elim
  have hmarks : marksOf ctx.run (earlier ++ during) = marksOf ctx.run during := by
    rw [marksOf_append, h.blank.1, List.nil_append]
  have hentries : entriesOf ctx.run (earlier ++ during) = entriesOf ctx.run during := by
    rw [entriesOf_append, h.blank.2, List.nil_append]
  constructor
  · have hends := hk.ends
    have hrunning : v.outline.running = some t := hclose.advances.running_of_poll
    rw [hmarks, hentries, hrunning, Option.elim_some, hplace] at hends
    exact hends.trans (List.append_nil _)
  · intro task
    have hclosed (hsome : (v.outline.task? task).isSome) (hp : place task = .settled []) :
        Balanced (marksBy task (marksOf ctx.run during)) := by
      have hunclosed := hk.unclosed hsome
      rw [hmarks, hp] at hunclosed
      exact hunclosed
    cases hword : marksBy task (marksOf ctx.run during) with
    | nil => exact .nil
    | cons mark rest =>
        rw [← hword]
        have hmem : (task, mark) ∈ marksOf ctx.run during := by
          have hm : mark ∈ marksBy task (marksOf ctx.run during) := hword ▸ List.mem_cons_self
          obtain ⟨x, hx, rfl⟩ := List.mem_map.mp hm
          obtain ⟨hx, htask⟩ := List.mem_filter.mp hx
          rwa [← of_decide_eq_true htask]
        rcases h.worker_of_mark hmem with rfl | ⟨n, rfl, hstarted⟩
        · exact hclosed (Option.isSome_of_eq_some active) hplace
        · have hended : v.outline.Ended n := by
            apply hhoused.ended_of_closes hclose
            rw [startings_append]
            exact List.mem_append_right _ hstarted
          obtain ⟨⟨r, order⟩, hresult⟩ := Option.isSome_iff_exists.mp hended
          have htask := Outline.branchResult?_eq_some.mp hresult
          exact hclosed (Option.isSome_of_eq_some htask) (hob.ended htask)

/-- What a recording sink has kept of a run when the run is closed. -/
theorem trace (h : Session.Lives config flow earlier during u v t ctx inputs ending outputs result)
    (hsink : v.machine.world.sink = .recording) : ∃ r, v.machine.runs[ctx.run]? = some r ∧
      r.spans.map SpanMark.mark = (marksOf ctx.run during).map Prod.snd := by
  obtain ⟨l, s, parent, m, m', -, hs, hmove⟩ := h.opening
  have hrun : ctx.run = s.machine.trace.runs.length := by
    rw [hmove.advances.journal?_of_opens.1]
    simp [System.outline, Machine.outline, Machine.trace]
  have hopened : u.machine.trace.runs[ctx.run]? = some [] := by
    obtain ⟨-, next, w, polls⟩ := hmove.polls_of_poll
    rw [Machine.trace_of_shared polls.shared, Machine.trace_poll]
    change (s.machine.trace.runs ++ [[]])[ctx.run]? = some []
    rw [hrun, List.getElem?_concat_length]
  have hrecording : u.machine.trace.sink = .recording := h.reaches.sink.symm.trans hsink
  have htrace := h.reaches.trace hrecording hopened
  simp only [Machine.trace, List.getElem?_map, Array.getElem?_toList, List.nil_append] at htrace
  obtain ⟨r, hr, hspans⟩ := Option.map_eq_some_iff.mp htrace
  exact ⟨r, hr, hspans⟩

end Session.Lives

/-! ## What agrees -/

def Event.isStep : Event → Bool
  | stepCompleted _ | stepFailed _ _ => true
  | _ => false

/-- The records of a run, its events and the marks of its spans say the same. -/
structure RunResult.Matches (result : RunResult) (marks : List Mark) : Prop where
  events : result.events.filter Event.isStep = result.records.map StepRecord.event
  completed : ∀ r ∈ result.records, r.event = .stepCompleted r.stepId ↔ r.status = .completed
  ends : Mark.ends marks =
    (result.records.filter fun r => r.status ≠ .skipped).map fun r => (r.stepId, r.status)

theorem StepRecord.isStep_event (r : StepRecord) : r.event.isStep = true := by
  unfold event
  split <;> rfl

theorem StepRecord.event_eq_iff (r : StepRecord) :
    r.event = .stepCompleted r.stepId ↔ r.error = none := by
  unfold event
  split <;> simp_all

theorem Entry.ended_of_records (entries : List Entry) : entries.filterMap Entry.ended? =
    ((entries.filterMap Entry.record?).filter fun r => r.status ≠ .skipped).map
      fun r => (r.stepId, r.status) := by
  induction entries with
  | nil => rfl
  | cons entry rest ih =>
      cases entry with
      | record r =>
          by_cases hr : r.status = .skipped <;>
            simp [Entry.ended?, Entry.record?, hr, ih]
      | _ => simpa [List.filterMap_cons, Entry.ended?, Entry.record?] using ih

theorem Entry.steps_of_events (entries : List Entry) :
    (entries.filterMap Entry.event?).filter Event.isStep =
      (entries.filterMap Entry.record?).map StepRecord.event := by
  induction entries with
  | nil => rfl
  | cons entry rest ih =>
      cases entry with
      | record r => simp [Entry.event?, Entry.record?, r.isStep_event, ih]
      | _ => simp [List.filterMap_cons, Entry.event?, Entry.record?, Event.isStep, ih]

theorem Journal.result_matches {flow : String} {entries : List Entry} {marks : List Mark}
    (hproper : ∀ entry ∈ entries, entry.Proper) (hends : entries.filterMap Entry.ended? = Mark.ends marks)
    (number : Nat) (ending : Ending) (outputs : List (String × Json)) :
    ((((start flow).write entries).finish ending).result number ending outputs).Matches marks := by
  have hrunning : ((start flow).write entries).run.status = .running :=
    (start flow).write_status entries
  have hrecords : ((start flow).write entries).records = entries.filterMap Entry.record? :=
    (start flow).write_records entries
  have hevents := ((start flow).write entries).finish_events hrunning ending
  rw [write_events] at hevents
  constructor
  · simp only [result, finish_records, hrecords, hevents]
    simp [start, Event.isStep, Entry.steps_of_events]
  · simp only [result, finish_records, hrecords]
    intro r hr
    obtain ⟨entry, hentry, hrecord⟩ := List.mem_filterMap.mp hr
    cases entry with
    | record r' =>
        cases hrecord
        exact r.event_eq_iff.trans (hproper _ hentry).2
    | _ => cases hrecord
  · simp only [result, finish_records, hrecords]
    rw [← hends, Entry.ended_of_records]

/-- The events of the steps of a run, its records and the ends of its spans agree, and each task
that works for the run has ended the spans that it started before the run is closed. Nothing is
added to the spans later. Without steps that fan out the spans are nested. -/
theorem journals_agree {config : Config} {flow : Flow} {before after : List Occurrence}
    {result : RunResult} (h : Session.Gives config flow before after result) :
    ∃ t during ending outputs m m' later,
      after = during ++
        .poll ⟨t, .closeRun result.number ending outputs, some result, m, m'⟩ :: later ∧
      marksOf result.number later = [] ∧ (m.world.sink = .recording →
        ∃ r, m.runs[result.number]? = some r ∧ result.Matches (r.spans.map SpanMark.mark) ∧
          r.spans.map SpanMark.mark = (marksOf result.number during).map Prod.snd ∧
          (∀ task, Balanced (marksBy task (marksOf result.number during))) ∧
          ((∀ n ∈ flow.nodes, n.action.policy? = none) → Balanced (r.spans.map SpanMark.mark))) := by
  obtain ⟨s, hsession⟩ := h.reached
  obtain ⟨t, l, parent, ctx, m₁, m₁', during, ending, outputs, m₂, later, u, v, inputs, rfl, hlives⟩ :=
    h.lives
  have hnumber : result.number = ctx.run := by
    rw [hlives.result_eq]
    rfl
  have hduring : marksOf ctx.run (l ++ .poll ⟨t, .openRun flow.name parent,
      some (ctx.run, ctx.token), m₁, m₁'⟩ :: during) = marksOf ctx.run during := by
    have hblank := hlives.blank.1
    rw [marksOf_append, List.append_eq_nil_iff] at hblank
    rw [← List.singleton_append, ← List.append_assoc, marksOf_append, hblank.2, List.nil_append]
  refine ⟨t, l ++ .poll ⟨t, .openRun flow.name parent, some (ctx.run, ctx.token), m₁, m₁'⟩ :: during,
    ending, outputs, v.machine, m₂, later, ?_, ?_, ?_⟩
  · rw [hnumber, List.append_assoc, List.cons_append]
  · rw [hnumber, List.eq_nil_iff_forall_not_mem]
    rintro ⟨task, mark⟩ hm
    obtain ⟨e, a, b, b', hx, hmark⟩ := mem_marksOf hm
    rw [← List.cons_append, ← List.append_assoc, ← List.append_assoc] at hsession
    exact hsession.over.silent hx (Effect.run?_of_mark? hmark)
  · rw [hnumber, hduring]
    intro hsink
    obtain ⟨r, hr, hspans⟩ := hlives.trace hsink
    obtain ⟨hends, hbalanced⟩ := hlives.told
    refine ⟨r, hr, ?_, hspans, hbalanced, fun hflow => ?_⟩
    · have hproper : ∀ entry ∈ entriesOf ctx.run during, entry.Proper := fun entry hentry =>
        (hlives.session.reaches hlives.reaches).proper entry
          (entriesOf_append_of_mem hentry (List.subset_append_right _ _))
      rw [hspans, hlives.result_eq]
      exact Journal.result_matches hproper hends ctx.run ending outputs
    · have hmine : marksBy t (marksOf ctx.run during) = (marksOf ctx.run during).map Prod.snd := by
        refine congrArg (List.map Prod.snd) (List.filter_eq_self.mpr ?_)
        rintro ⟨task, mark⟩ hm
        rcases hlives.worker_of_mark hm with rfl | ⟨n, -, hstarted⟩
        · exact decide_eq_true rfl
        · exact absurd hstarted (hlives.not_started hflow n)
      rw [hspans, ← hmine]
      exact hbalanced t

def Solo.recorded : Solo :=
  { Solo.interrupted with world := { Solo.interrupted.world with sink := .recording } }

def Occurrence.isUntraced : Occurrence → Bool
  | .poll x => x.before.world.sink ≠ .recording
  | _ => false

/-- Both steps of the transaction were started, and the spans of all three steps have ended. -/
theorem journals_agree_recorded : ∃ after result during t ending outputs m m' later r,
    Session.Gives Solo.recorded.config Solo.recorded.flow [.errand] after result ∧
      result.status = .cancelled ∧ result.records.length = 3 ∧
      after = during ++
        .poll ⟨t, .closeRun result.number ending outputs, some result, m, m'⟩ :: later ∧
      m.world.sink = .recording ∧ m.runs[result.number]? = some r ∧
      result.Matches (r.spans.map SpanMark.mark) ∧ Balanced (r.spans.map SpanMark.mark) := by
  have hrecording : (Solo.recorded.start.course 200).1.any Occurrence.isUntraced = false := by
    decide +kernel
  have hflow : ∀ n ∈ Solo.recorded.flow.nodes, n.action.policy? = none := by decide +kernel
  obtain ⟨result, hgives, hp⟩ := Solo.recorded.exists_gives 200 rfl
    (p := fun r => decide (r.status = .cancelled ∧ r.records.length = 3)) (by decide +kernel)
  obtain ⟨hstatus, hlength⟩ := of_decide_eq_true hp
  obtain ⟨t, during, ending, outputs, m, m', later, hafter, -, hagree⟩ := journals_agree hgives
  have hsink : m.world.sink = .recording := by
    have htraced := List.any_eq_false.mp hrecording _
      (hafter ▸ List.mem_append_right _ List.mem_cons_self)
    simpa [Occurrence.isUntraced] using htraced
  obtain ⟨r, hr, hmatches, -, -, hnested⟩ := hagree hsink
  exact ⟨_, result, during, t, ending, outputs, m, m', later, r, hgives, hstatus, hlength, hafter,
    hsink, hr, hmatches, hnested hflow⟩

end FlowEngine
