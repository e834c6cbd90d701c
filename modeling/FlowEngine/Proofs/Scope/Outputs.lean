import FlowEngine.Proofs.Execution.Tracking
import FlowEngine.Proofs.Run.Joins
import FlowEngine.Proofs.Run.Lifetime
import FlowEngine.Proofs.Scope.Frames

/-!
# Outputs of steps

The outputs of steps are kept in one binding of the flow scope. The output of a step that has completed
is found there from then on, as long as no step writes or shadows that binding. A path leads to it if
the id of the step is a single segment of the path.
-/
namespace FlowEngine

open Exec Execution

/-! ## Lines of a run -/

def Moment.outputOf? (id : String) : Moment → Option Json
  | .completed other output => if other = id then some output else none
  | .scope _ => none
  | .forked _ => none

def lastOutput? (id : String) (line : List Moment) : Option Json :=
  (line.filterMap (Moment.outputOf? id)).getLast?

theorem lastOutput?_concat (id : String) (line : List Moment) (m : Moment) :
    lastOutput? id (line ++ [m]) = (m.outputOf? id).or (lastOutput? id line) := by
  rw [lastOutput?, List.filterMap_append, List.getLast?_append]
  cases hm : m.outputOf? id <;> simp [hm, lastOutput?]

theorem lastOutput?_complete (u : Watched) (id : String) (output : Json) :
    lastOutput? id (u.complete id output).line = some output := by
  rw [Watched.complete, Watched.turn, lastOutput?_concat, lastOutput?_concat, Moment.outputOf?,
    Moment.outputOf?, if_pos rfl, Option.none_or, Option.some_or]

namespace Watch

variable {α β : Type} {Q : α → Watched → Prop}

/-- Where a watched program succeeds, it comes to a value and a line that satisfy `Q`. -/
def Concludes (Q : α → Watched → Prop) (w : Watch α) : Prop :=
  ∀ u, (w.on u).Ends fun p => ∀ a, p.1 = .ok a → Q a p.2

namespace Concludes

theorem throw (f : Failure) : (MonadExcept.throw f : Watch α).Concludes Q := fun _ _ => nofun

theorem bind {w : Watch β} {f : β → Watch α} (h : ∀ b, (f b).Concludes Q) :
    (w >>= f).Concludes Q := by
  intro u
  rw [on_bind]
  refine (Program.Ends.trivial (w.on u)).bind ?_
  rintro ⟨r, u'⟩ -
  cases r with
  | error f => exact nofun
  | ok b => exact h b u'

/-- When a step completes, the last thing that is recorded on the line is its output. -/
theorem node (ctx : Context) (id kind : String) (retry : Option RetryPolicy)
    (attempt : Watch Reached) : (node ctx id kind retry attempt).Concludes
      fun reached u => lastOutput? id u.line = some reached.output := by
  refine bind fun (cancelled : Bool) => ?_
  cases cancelled with
  | true => exact bind fun _ => throw _
  | false =>
      refine bind fun _ => bind fun p => bind fun _ => bind fun _ => ?_
      cases p.2 with
      | error f => exact throw f
      | ok reached =>
          rintro u _ ⟨⟩
          exact lastOutput?_complete u id reached.output

theorem step (n : Step) (ctx : Context) :
    (n.watch ctx).Concludes fun reached u => lastOutput? n.id u.line = some reached.output := by
  obtain ⟨id, action, retry, timeout⟩ := n
  rw [Step.watch]
  exact node ctx id _ retry _

end Concludes
end Watch

theorem upkeep_growing (line : List Moment) :
    Upkeep (fun _ => True) (fun _ _ => True) fun u => line <+: u.line where
  refl _ := trivial
  trans _ _ := trivial
  assign _ _ _ := trivial
  declare _ _ _ := trivial
  field _ _ _ := trivial
  push _ _ := trivial
  leave _ := trivial
  error := trivial
  turn h _ := h.trans (List.prefix_append _ _)
  complete _ _ h := h.trans ((List.prefix_append _ _).trans (List.prefix_append _ _))
  fork h _ := h.trans (List.prefix_append _ _)

/-- A step that completes makes a line longer, and its output is the last one of the step there. -/
theorem Step.exists_watched {n : Step} {ctx : Context} {u : Watched} {s : Scope} {d : List Deed}
    {reached : Reached} (h : ((n.run ctx).on u.scope).Follows d (.pure (.ok reached, s))) :
    ∃ u', ((n.watch ctx).on u).Follows d (.pure (.ok reached, u')) ∧ u'.scope = s ∧
      u.line <+: u'.line ∧ lastOutput? n.id u'.line = some reached.output := by
  obtain ⟨⟨_, u'⟩, hwatched, rfl, hscope, hline⟩ := ((upkeep_growing u.line).step n
    (fun _ _ _ _ => trivial) ctx u (List.prefix_refl _)).exists_of_follows h
  exact ⟨u', hwatched, hscope, hline,
    (Watch.Concludes.step n ctx u).of_follows hwatched reached rfl⟩

/-- The lines that come about in runs of a flow: those of its own steps, and those of the branches that
were made for joins, which go on from the line of the join. -/
inductive Line (config : Config) (flow : Flow) (inputs : List (String × Json))
    (opened : Nat × Token) : List Moment → Prop where
  | run {d : List Deed} {result : RunResult} {u : Watched}
      (follows : (watchOpened config flow inputs opened).Follows d (.pure (result, u))) :
      Line config flow inputs opened u.line
  | branch {before after : List Moment} {bs : List Branch} {ctx : Context} {s : Scope}
      {body : List Step} {collect : Option Expr} {d : List Deed} {r : Except Failure Json}
      {u : Watched} (outer : Line config flow inputs opened (before ++ .forked bs :: after))
      (made : .steps ctx s body collect ∈ bs)
      (follows : ((watchSequence body ctx .null).on
        (Watched.turn ⟨s, before ++ [.forked bs]⟩ s)).Follows d (.pure (r, u))) :
      Line config flow inputs opened u.line

/-! ## Changes that leave the outputs alone -/

namespace Scope

variable {s s' : Scope} {name other id : String} {v : Json}

theorem binds_bind_of_ne (h : other ≠ name) (v : Json) (f : Frame) :
    (f.bind name v).binds other = f.binds other := by
  rw [Frame.binds, Frame.bind, Fields.has_insert, decide_eq_false h, Bool.false_or, Frame.binds]

/-- A change leaves the outputs of steps alone. -/
structure Spares (s s' : Scope) : Prop where
  hides : s.hides stepName = false → s'.hides stepName = false
  flow : Fields.get? stepName s'.flow = Fields.get? stepName s.flow

theorem Spares.stepOutput?_eq (h : s.Spares s') (id : String) :
    s'.stepOutput? id = s.stepOutput? id := by
  rw [stepOutput?, h.flow, stepOutput?]

theorem hides_eq_any (name : String) (s : Scope) :
    s.hides name = (s.frames.map (Frame.binds name)).dropLast.any (· = true) := by
  simp [hides, frames, Function.comp_def]

theorem Writes.spares (h : s.Writes name v s') (hne : name ≠ stepName) : s.Spares s' where
  hides hs := by
    rw [hides_eq_any, h.map_frames (binds_bind_of_ne hne.symm v), ← hides_eq_any, hs]
  flow := by
    have hvalues := h.map_frames (g := fun f => Fields.get? stepName f.bindings)
      fun f => Fields.get?_insert_of_ne v f.bindings hne.symm
    simpa [frames] using congrArg List.getLast? hvalues

theorem spares_leave (s : Scope) : s.Spares s.leave where
  hides h := List.any_eq_false.mpr fun f hf => List.any_eq_false.mp h f (List.mem_of_mem_drop hf)
  flow := rfl

/-! ## What is found -/

theorem stepOutput?_recordOutput_self (id : String) (v : Json) (s : Scope) :
    (s.recordOutput id v).stepOutput? id = some v := by
  rw [stepOutput?, recordOutput, Fields.get?_insert_self]
  change (Fields.get? id _).bind _ = _
  rw [Fields.get?_insert_self]
  rfl

theorem stepOutput?_recordOutput_of_ne (hid : id ≠ other) (output : Json)
    (h : s.stepOutput? id = some v) : (s.recordOutput other output).stepOutput? id = some v := by
  obtain ⟨outputs, houtputs, h⟩ := Option.bind_eq_some_iff.mp h
  obtain ⟨entry, hentry, hv⟩ := Option.bind_eq_some_iff.mp h
  cases outputs with
  | obj fields =>
      have hfields : Fields.get? id (Fields.insert other (.obj [("output", output)]) fields) =
          some entry := (Fields.get?_insert_of_ne _ fields hid).trans hentry
      rw [stepOutput?, recordOutput, Fields.get?_insert_self, houtputs]
      change (Fields.get? id (Fields.insert other _ fields)).bind _ = _
      rw [hfields]
      exact hv
  | _ => cases hentry

def outputPath (id : String) : String := stepName ++ "." ++ id ++ ".output"

theorem split_outputPath (hid : '.' ∉ id.toList) : Text.split '.' (outputPath id).toList =
    [stepName.toList, id.toList, "output".toList] := by
  have hpath : (outputPath id).toList =
      stepName.toList ++ '.' :: (id.toList ++ '.' :: "output".toList) := by
    simp [outputPath]
  rw [hpath, Text.split_append (by decide), Text.split_append hid, Text.split_of_not_mem (by decide)]

/-- The path to an output that is recorded gives it, if the id is one segment of the path. -/
theorem evaluate_outputPath (hid : '.' ∉ id.toList) (hs : s.hides stepName = false)
    (h : s.stepOutput? id = some v) : Control.evaluate (.var (outputPath id)) s = .ok v := by
  obtain ⟨outputs, houtputs, h⟩ := Option.bind_eq_some_iff.mp h
  obtain ⟨entry, hentry, hv⟩ := Option.bind_eq_some_iff.mp h
  have hfound : s.lookup? (String.ofList stepName.toList) = some outputs := by
    rw [String.ofList_toList, lookup?_of_not_hides hs, houtputs]
  have hchild {value next : Json} {key : String} (hfield : value.field? key = some next) :
      child? key.toList value = some next := by
    cases value with
    | obj fields =>
        rw [child?, String.ofList_toList]
        exact hfield
    | _ => cases hfield
  rw [evaluate_var (split_outputPath hid) (by decide) hfound, follow, hchild hentry]
  dsimp only
  rw [follow, hchild hv]
  rfl

structure Shows (line : List Moment) (s : Scope) : Prop where
  hides : s.hides stepName = false
  outputs {id : String} {v : Json} : lastOutput? id line = some v → s.stepOutput? id = some v

namespace Shows

variable {line : List Moment} (h : s.Shows line)
include h

theorem spares (hs : s.Spares s') : s'.Shows line :=
  ⟨hs.hides h.hides, fun hv => (hs.stepOutput?_eq _).trans (h.outputs hv)⟩

/-- A moment at which no step completes changes nothing. -/
theorem concat {m : Moment} (hm : ∀ id, m.outputOf? id = none) : s.Shows (line ++ [m]) :=
  ⟨h.hides, fun {id v} hv => h.outputs (by rwa [lastOutput?_concat, hm, Option.none_or] at hv)⟩

theorem recordOutput (id : String) (output : Json) :
    (s.recordOutput id output).Shows (line ++ [.completed id output]) := by
  refine ⟨h.hides, fun {other v} hv => ?_⟩
  rw [lastOutput?_concat, Moment.outputOf?] at hv
  split at hv
  · rename_i heq
    subst heq
    cases hv
    exact stepOutput?_recordOutput_self ..
  · rename_i hne
    rw [Option.none_or] at hv
    exact stepOutput?_recordOutput_of_ne (Ne.symm hne) output (h.outputs hv)

end Shows
end Scope

/-! ## What holds all along a line -/

def Moment.Fits (line : List Moment) : Moment → Prop
  | .scope s => s.Shows line
  | .completed _ _ => True
  | .forked bs => ∀ ctx s body collect, .steps ctx s body collect ∈ bs →
      s.Shows line ∧ ∀ n ∈ Step.sequenceNodes body, n.Binds (· ≠ Scope.stepName)

def Addressable (line : List Moment) : Prop :=
  ∀ before m after, line = before ++ m :: after → m.Fits before

namespace Addressable

variable {line more : List Moment} {m : Moment}

theorem concat (h : Addressable line) (hm : m.Fits line) : Addressable (line ++ [m]) := by
  intro before m' after heq
  obtain rfl | ⟨after, last, rfl⟩ := after.eq_nil_or_concat
  · obtain ⟨rfl, hlast⟩ := List.append_inj' heq rfl
    cases hlast
    exact hm
  · rw [List.concat_eq_append, ← List.cons_append, ← List.append_assoc] at heq
    exact h before m' after (List.append_inj' heq rfl).1

theorem of_append (h : Addressable (line ++ more)) : Addressable line := by
  rintro before m after rfl
  exact h before m (after ++ more) (by simp)

end Addressable

structure Watched.Addressable (u : Watched) : Prop where
  shows : u.scope.Shows u.line
  line : FlowEngine.Addressable u.line

/-- As long as nothing else is bound to its name, the binding with the outputs of steps is kept up. -/
theorem outputs_upkeep : Upkeep (· ≠ Scope.stepName) Scope.Spares Watched.Addressable where
  refl s := ⟨id, rfl⟩
  trans h h' := ⟨h'.hides ∘ h.hides, h'.flow.trans h.flow⟩
  assign v s h := (s.writes_assign _ v).spares h
  declare v s h := (s.writes_declareLocal _ v).spares h
  field name v s := (s.writes_flow Target.stateName _).spares (by decide)
  push kind s := ⟨id, rfl⟩
  leave s := s.spares_leave
  error := by decide
  turn h hs := ⟨(h.shows.spares hs).concat fun _ => rfl, h.line.concat (h.shows.spares hs)⟩
  complete {u} id output h := by
    have hshows := h.shows.recordOutput id output
    have hfits : Moment.Fits u.line (.completed id output) := True.intro
    exact ⟨hshows.concat fun _ => rfl, (h.line.concat hfits).concat hshows⟩
  fork {u bs} h hbs := by
    refine ⟨h.shows.concat fun _ => rfl, h.line.concat fun ctx s body collect hb => ?_⟩
    obtain ⟨_, _, _, _, heq, hs, hbody⟩ := hbs _ hb
    cases heq
    exact ⟨h.shows.spares hs, hbody⟩

theorem Watched.addressable_start (inputs : List (String × Json)) :
    Watched.Addressable ⟨Scope.ofBindings inputs, []⟩ :=
  ⟨⟨rfl, fun hv => nomatch hv⟩, fun before m after h => by simp at h⟩

variable {config : Config} {flow : Flow} {inputs : List (String × Json)} {opened : Nat × Token}

theorem Line.addressable (hflow : ∀ n ∈ flow.nodes, n.Binds (· ≠ Scope.stepName))
    {line : List Moment} (h : Line config flow inputs opened line) : Addressable line := by
  induction h with
  | run follows =>
      have hstart := Watched.addressable_start inputs
      obtain ⟨-, -, haddressable⟩ :=
        (watchOpened_lockstep outputs_upkeep hflow hstart opened).ends.of_follows follows
      exact haddressable.line
  | @branch before after bs ctx s body collect d r u outer made follows ih =>
      obtain ⟨hs, hbody⟩ := ih before (.forked bs) after rfl ctx s body collect made
      have hwhole : Addressable ((before ++ [.forked bs]) ++ after) := by simpa using ih
      have hstart : Watched.Addressable ⟨s, before ++ [.forked bs]⟩ :=
        ⟨hs.concat fun _ => rfl, hwhole.of_append⟩
      have hbody := outputs_upkeep.sequence body hbody ctx .null _ (outputs_upkeep.turn hstart (outputs_upkeep.refl s))
      obtain ⟨-, -, -, haddressable⟩ := hbody.ends.of_follows follows
      exact haddressable.line

/-- A run that comes to a result does so at the end of a line, and its result has the outputs of the
steps that have completed on the line. -/
theorem Session.Lives.exists_line {earlier during : List Occurrence} {u v : System RunResult}
    {t : TaskId} {ctx : Context} {ending : Ending} {outputs : List (String × Json)}
    {result : RunResult}
    (h : Session.Lives config flow earlier during u v t ctx inputs ending outputs result)
    (hflow : ∀ n ∈ flow.nodes, n.Binds (· ≠ Scope.stepName)) : ∃ w : Watched,
      (watchOpened config flow inputs (ctx.run, ctx.token)).Follows
        (deedsOf t during ++ [⟨.closeRun ctx.run ending outputs, result⟩]) (.pure (result, w)) ∧
      ∀ id v, lastOutput? id w.line = some v → result.output? id = some v := by
  have hstart := Watched.addressable_start inputs
  obtain ⟨⟨_, w⟩, hfollows, rfl, haddressable⟩ :=
    (watchOpened_lockstep outputs_upkeep hflow hstart (ctx.run, ctx.token)).exists_of_follows h.closing
  refine ⟨w, hfollows, fun id v hv => ?_⟩
  obtain ⟨d, ending', hdeeds⟩ := watchOpened_follows hfollows
  obtain ⟨-, hlast⟩ := List.append_inj' hdeeds rfl
  obtain rfl : outputs = w.scope.flow := by
    cases hlast
    rfl
  have hscope := haddressable.shows.outputs hv
  rw [h.result_eq]
  exact hscope

/-- While no step binds a name to take the place of the outputs, the path to the output of a step gives
what the step gave when it last completed: at every moment of a run and of its branches, if the id of
the step has no dot. The result of the run has the output whatever the id. And a step that completes
has put its output at the end of a line that only grows. -/
theorem output_addressable (hnames : ∀ n ∈ flow.nodes, Scope.stepName ∉ n.action.boundNames) :
    (∀ (n : Step) ctx (u : Watched) d reached s,
      ((n.run ctx).on u.scope).Follows d (.pure (.ok reached, s)) →
      ∃ u', ((n.watch ctx).on u).Follows d (.pure (.ok reached, u')) ∧ u'.scope = s ∧
        u.line <+: u'.line ∧ lastOutput? n.id u'.line = some reached.output) ∧
    (∀ inputs opened line, Line config flow inputs opened line →
      ∀ before s after, line = before ++ .scope s :: after →
      ∀ id v, lastOutput? id before = some v → '.' ∉ id.toList →
        Control.evaluate (.var (Scope.outputPath id)) s = .ok v) ∧
    (∀ earlier during u v t ctx inputs ending outputs result,
      Session.Lives config flow earlier during u v t ctx inputs ending outputs result →
      ∃ w : Watched, (watchOpened config flow inputs (ctx.run, ctx.token)).Follows
          (deedsOf t during ++ [⟨.closeRun ctx.run ending outputs, result⟩]) (.pure (result, w)) ∧
        ∀ id v, lastOutput? id w.line = some v → result.output? id = some v) := by
  have hflow : ∀ n ∈ flow.nodes, n.Binds (· ≠ Scope.stepName) := by
    rintro n hn _ hname rfl
    exact hnames n hn hname
  refine ⟨fun _ _ _ _ _ _ h => Step.exists_watched h,
    fun inputs opened line hline before s after heq id v hv hid => ?_,
    fun _ _ _ _ _ _ _ _ _ _ h => h.exists_line hflow⟩
  have hs : s.Shows before := hline.addressable hflow before (.scope s) after heq
  exact Scope.evaluate_outputPath hid hs.hides (hs.outputs hv)

/-- A step gives a text, which its path gives at the end of the run. -/
theorem output_addressable_read : ∃ (config : Config) (flow : Flow) (before : List Moment) (s : Scope),
    (∀ n ∈ flow.nodes, Scope.stepName ∉ n.action.boundNames) ∧
      Line config flow [] (0, .root 0) (before ++ [.scope s]) ∧
      lastOutput? "pay" before = some (.str "paid") ∧
      Control.evaluate (.var "step.pay.output") s = .ok (.str "paid") := by
  let flow : Flow :=
    { name := "orders"
      description := none
      steps := [.mk "pay" (.script (.literal (.str "paid")) none) none none]
      onError := none }
  let ctx : Context := ⟨0, .root 0, none⟩
  let s := Scope.empty.recordOutput "pay" (.str "paid")
  let result : RunResult := default
  let before : List Moment := List.replicate 6 (.scope .empty) ++ [.completed "pay" (.str "paid")]
  have hnames : ∀ n ∈ flow.nodes, Scope.stepName ∉ n.action.boundNames := by decide
  have hfollows : (watchOpened {} flow [] (0, .root 0)).Follows
      [⟨.isCancelled ctx.token, false⟩, ⟨.startSpan ctx "pay", .ok ()⟩,
        ⟨.note 0 (.record ⟨"pay", "script", .completed, 1, none⟩), ()⟩,
        ⟨.endSpan ctx "pay" .completed, .ok ()⟩, ⟨.settle 0 none, .ok 0⟩, ⟨.settle 0 none, .ok 0⟩,
        ⟨.closeRun 0 .completed s.flow, result⟩]
      (.pure (result, ⟨s, before ++ [.scope s]⟩)) :=
    .deed (.deed (.deed (.deed (.deed (.deed (.deed (.start _)))))))
  have hline : Line {} flow [] (0, .root 0) (before ++ [.scope s]) := .run hfollows
  exact ⟨{}, flow, before, s, hnames, hline, rfl, (output_addressable hnames).2.1 _ _ _ hline before s
    [] rfl "pay" _ rfl (by decide)⟩

/-! ### Outputs that are not found -/

namespace Solo

def dotted : Solo where
  world := quietWorld []
  flow :=
    { name := "orders"
      description := none
      steps := [.mk "a.b" (.script (.literal (.str "new")) none) none none,
        .mk "read" (.script (.var "step.a.b.output") none) none none]
      onError := none }

def wiped : Solo where
  world := quietWorld []
  flow :=
    { name := "orders"
      description := none
      steps := [.mk "a" (.script (.literal (.str "new")) none) none none,
        .mk "wipe" (.assign "step" (.literal (.str "old")) false) none none,
        .mk "read" (.script (.var "step.a.output") none) none none]
      onError := none }

end Solo

def RunResult.misses (r : RunResult) (id : String) : Bool :=
  (r.records.any fun record => record.stepId == id && record.status == .completed) &&
    decide ((r.output? "read").bind Json.asText? ≠ some "new") && (r.output? "read").isSome

/-- The output of a step is not found by its path when the id has a dot, and neither by its path nor in
the result when a step has written another value to `step`. -/
theorem output_missed :
    (Solo.dotted.flow.validate = .ok () ∧ ∃ log result,
      Session.Gives Solo.dotted.config Solo.dotted.flow [.errand] log result ∧
        result.misses "a.b" = true) ∧
    (Solo.wiped.flow.validate = .ok () ∧ ∃ log result,
      Session.Gives Solo.wiped.config Solo.wiped.flow [.errand] log result ∧
        (result.misses "a" && (result.output? "a").isNone) = true) := by
  obtain ⟨result, hgives, hp⟩ := Solo.dotted.exists_gives 200 rfl (p := fun r => r.misses "a.b")
    (by decide +kernel)
  obtain ⟨result', hgives', hp'⟩ := Solo.wiped.exists_gives 200 rfl
    (p := fun r => r.misses "a" && (r.output? "a").isNone) (by decide +kernel)
  exact ⟨⟨by decide +kernel, _, result, hgives, hp⟩, by decide +kernel, _, result', hgives', hp'⟩

end FlowEngine
