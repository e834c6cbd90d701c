import FlowEngine.CommandLine
import FlowEngine.Proofs.Format.Steps
import FlowEngine.Proofs.Session.Tidy

/-!
# Tidy runs

The values in a flow or in bindings that are read from a text are tidy, and an engine with tidy flows
and a tidy world makes nothing else of them. So the outputs of a run are tidy.
-/
namespace FlowEngine

/-! ## Documents -/

namespace Yaml

theorem tidy_of_plain {text : String} {v : Json} (h : Plain.value? text = some v) : v.Tidy := by
  unfold Plain.value? at h
  split at h
  · cases h
    exact Json.tidy_null
  · split at h
    · cases h
      exact Json.tidy_bool _
    · split at h
      · split at h
        · cases h
          exact Json.tidy_num _
        · split at h
          · cases h
          · obtain ⟨x, -, rfl⟩ := Option.map_eq_some_iff.mp h
            exact Json.tidy_ofFloat x
      · split at h
        · cases h
          exact Json.tidy_null
        · split at h
          · cases h
            exact Json.tidy_str _
          · split at h
            · cases h
              exact Json.tidy_ofFloat _
            · cases h
              exact Json.tidy_str _

mutual
theorem tidy_of_toJson? : ∀ (node : Yaml) {v : Json}, node.toJson? = some v → v.Tidy
  | .scalar text plain, v, h => by
      rw [toJson?] at h
      split at h
      · exact tidy_of_plain h
      · cases h
        exact Json.tidy_str text
  | .seq items, v, h => by
      rw [toJson?] at h
      obtain ⟨vs, hvs, rfl⟩ := Option.map_eq_some_iff.mp h
      exact Json.tidy_arr.mpr (tidy_of_items items hvs)
  | .map entries, v, h => by
      rw [toJson?] at h
      obtain ⟨fs, hfs, rfl⟩ := Option.map_eq_some_iff.mp h
      exact Json.tidy_object (tidy_of_entries entries hfs)

theorem tidy_of_items : ∀ (items : List Yaml) {vs : List Json}, itemsToJson? items = some vs →
    ∀ v ∈ vs, v.Tidy
  | [], vs, h => by
      rw [itemsToJson?] at h
      cases h
      exact List.forall_mem_nil _
  | item :: rest, vs, h => by
      rw [itemsToJson?] at h
      obtain ⟨v, hv, h⟩ := Option.bind_eq_some_iff.mp h
      obtain ⟨more, hmore, h⟩ := Option.bind_eq_some_iff.mp h
      cases h
      exact List.forall_mem_cons.mpr ⟨tidy_of_toJson? item hv, tidy_of_items rest hmore⟩

theorem tidy_of_entries : ∀ (entries : List (Yaml × Yaml)) {fs : List (String × Json)},
    entriesToJson? entries = some fs → ∀ f ∈ fs, f.2.Tidy
  | [], fs, h => by
      rw [entriesToJson?] at h
      cases h
      exact List.forall_mem_nil _
  | (key, value) :: rest, fs, h => by
      rw [entriesToJson?] at h
      obtain ⟨k, -, h⟩ := Option.bind_eq_some_iff.mp h
      obtain ⟨name, -, h⟩ := Option.bind_eq_some_iff.mp h
      obtain ⟨v, hv, h⟩ := Option.bind_eq_some_iff.mp h
      obtain ⟨more, hmore, h⟩ := Option.bind_eq_some_iff.mp h
      cases h
      exact List.forall_mem_cons.mpr ⟨tidy_of_toJson? value hv, tidy_of_entries rest hmore⟩
end

theorem tidy_of_textToJson? {node : Yaml} {v : Json} (h : node.textToJson? = some v) : v.Tidy := by
  unfold textToJson? at h
  split at h
  · cases h
    exact Json.tidy_str _
  · exact tidy_of_toJson? _ h

theorem tidy_of_optionalTextToJson? {node : Yaml} {v : Json} (h : node.optionalTextToJson? = some v) :
    v.Tidy := by
  unfold optionalTextToJson? at h
  split at h
  · cases h
    exact Json.tidy_null
  · exact tidy_of_textToJson? h

theorem tidy_of_stepToJson? {node : Yaml} {v : Json} (h : node.stepToJson? = some v) : v.Tidy := by
  obtain ⟨fields, -, h⟩ := Option.bind_eq_some_iff.mp h
  obtain ⟨entries, hentries, h⟩ := Option.bind_eq_some_iff.mp h
  cases h
  refine Json.tidy_object fun f hf => ?_
  obtain ⟨⟨name, value⟩, -, hread⟩ := exists_of_mapM hentries hf
  dsimp only at hread
  split at hread
  · obtain ⟨w, hw, h⟩ := Option.bind_eq_some_iff.mp hread
    cases h
    exact tidy_of_textToJson? hw
  · obtain ⟨w, hw, h⟩ := Option.bind_eq_some_iff.mp hread
    cases h
    exact tidy_of_toJson? _ hw

theorem tidy_of_stepsToJson? {node : Yaml} {v : Json} (h : node.stepsToJson? = some v) : v.Tidy := by
  unfold stepsToJson? at h
  split at h
  · obtain ⟨vs, hvs, rfl⟩ := Option.map_eq_some_iff.mp h
    refine Json.tidy_arr.mpr fun w hw => ?_
    obtain ⟨step, -, hread⟩ := exists_of_mapM hvs hw
    exact tidy_of_stepToJson? hread
  · cases h
    exact Json.tidy_arr.mpr (List.forall_mem_nil _)
  · exact tidy_of_toJson? _ h

theorem tidy_of_optionalStepsToJson? {node : Yaml} {v : Json}
    (h : node.optionalStepsToJson? = some v) : v.Tidy := by
  unfold optionalStepsToJson? at h
  split at h
  · cases h
    exact Json.tidy_null
  · exact tidy_of_stepsToJson? h

theorem exists_of_filterMapM {α β : Type} {read : α → Option (Option β)} {items : List α} {xs : List β}
    (h : items.filterMapM read = some xs) {x : β} (hx : x ∈ xs) :
    ∃ item ∈ items, read item = some (some x) := by
  induction items generalizing xs with
  | nil =>
      cases h
      cases hx
  | cons item rest ih =>
      rw [List.filterMapM_cons] at h
      obtain ⟨o, ho, h⟩ := Option.bind_eq_some_iff.mp h
      cases o with
      | none =>
          obtain ⟨found, hmem, hread⟩ := ih h hx
          exact ⟨found, List.mem_cons_of_mem _ hmem, hread⟩
      | some y =>
          obtain ⟨ys, hys, h⟩ := Option.bind_eq_some_iff.mp h
          cases h
          rcases List.mem_cons.mp hx with rfl | hx
          · exact ⟨item, List.mem_cons_self, ho⟩
          · obtain ⟨found, hmem, hread⟩ := ih hys hx
            exact ⟨found, List.mem_cons_of_mem _ hmem, hread⟩

theorem tidy_of_recordToJson? {readers : List (String × (Yaml → Option Json))} {node : Yaml} {v : Json}
    (hreaders : ∀ r ∈ readers, ∀ node v, r.2 node = some v → v.Tidy)
    (h : recordToJson? readers node = some v) : v.Tidy := by
  obtain ⟨fields, -, h⟩ := Option.bind_eq_some_iff.mp h
  obtain ⟨entries, hentries, h⟩ := Option.bind_eq_some_iff.mp h
  cases h
  refine Json.tidy_object fun f hf => ?_
  obtain ⟨⟨name, value⟩, -, hread⟩ := exists_of_filterMapM hentries hf
  dsimp only at hread
  split at hread
  · rename_i read hlookup
    obtain ⟨w, hw, h⟩ := Option.bind_eq_some_iff.mp hread
    cases h
    obtain ⟨before, after, rfl, -⟩ := List.lookup_eq_some_iff.mp hlookup
    exact hreaders (name, read) (List.mem_append_right _ List.mem_cons_self) value w hw
  · cases hread

theorem tidy_of_flowToJson? {node : Yaml} {v : Json} (h : node.flowToJson? = some v) : v.Tidy := by
  refine tidy_of_recordToJson? ?_ h
  simp only [List.forall_mem_cons]
  exact ⟨fun _ _ => tidy_of_textToJson?, fun _ _ => tidy_of_optionalTextToJson?,
    fun _ _ => tidy_of_stepsToJson?, fun _ _ => tidy_of_optionalStepsToJson?, List.forall_mem_nil _⟩

end Yaml

/-! ## Steps and flows -/

theorem Json.Tidy.expr {v : Json} {key : String} {e : Expr} (hv : v.Tidy)
    (h : v.required key Expr.ofJson? = some e) : e.Tidy := by
  obtain ⟨w, hw, he⟩ := hv.required h
  exact Expr.tidy_of_ofJson? hw he

theorem Json.Tidy.exprs {v : Json} {key : String} {o : Option Expr} (hv : v.Tidy)
    (h : v.optional key Expr.ofJson? = some o) : ∀ e ∈ o.toList, e.Tidy := by
  intro e he
  obtain ⟨w, hw, hread⟩ := hv.optional h e (Option.mem_toList.mp he)
  exact Expr.tidy_of_ofJson? hw hread

theorem CallSpec.tidy_of_ofJson? {v : Json} {spec : CallSpec} (hv : v.Tidy)
    (h : CallSpec.ofJson? v = some spec) : ∀ e ∈ spec.inputs.map Prod.snd, e.Tidy := by
  obtain ⟨target, -, h⟩ := Option.bind_eq_some_iff.mp h
  obtain ⟨inputs, hinputs, h⟩ := Option.bind_eq_some_iff.mp h
  obtain ⟨bind, -, h⟩ := Option.bind_eq_some_iff.mp h
  obtain ⟨capture, -, h⟩ := Option.bind_eq_some_iff.mp h
  cases h
  intro e he
  obtain ⟨f, hf, rfl⟩ := List.mem_map.mp he
  rcases hv.withDefault hinputs with rfl | ⟨w, hw, hread⟩
  · cases hf
  · obtain ⟨fields, hfields, hread⟩ := Option.bind_eq_some_iff.mp hread
    obtain ⟨⟨k, given⟩, hgiven, hf⟩ := exists_of_mapM hread hf
    obtain ⟨read, hread, rfl⟩ := Option.map_eq_some_iff.mp hf
    exact Expr.tidy_of_ofJson? ((hw.asFields? hfields).each hgiven) hread

theorem RecordSpec.tidy_of_ofJson? {v : Json} {spec : RecordSpec} (hv : v.Tidy)
    (h : RecordSpec.ofJson? v = some spec) : ∀ e ∈ spec.payload.toList ++ spec.filter.toList, e.Tidy := by
  obtain ⟨record, -, h⟩ := Option.bind_eq_some_iff.mp h
  obtain ⟨payload, hpayload, h⟩ := Option.bind_eq_some_iff.mp h
  obtain ⟨filter, hfilter, h⟩ := Option.bind_eq_some_iff.mp h
  obtain ⟨bind, -, h⟩ := Option.bind_eq_some_iff.mp h
  obtain ⟨capture, -, h⟩ := Option.bind_eq_some_iff.mp h
  cases h
  exact List.forall_mem_append.mpr ⟨hv.exprs hpayload, hv.exprs hfilter⟩

namespace Step

variable {v : Json} {read : v.Within → Option Step}

theorem tidy_of_readAction {action : Action} (hv : v.Tidy) (h : readAction v read = some action) :
    ∀ e ∈ action.expressions, e.Tidy := by
  rw [readAction] at h
  obtain ⟨tag, -, h⟩ := Option.bind_eq_some_iff.mp h
  split at h
  iterate 3
    obtain ⟨spec, hspec, h⟩ := Option.bind_eq_some_iff.mp h
    cases h
    exact CallSpec.tidy_of_ofJson? hv hspec
  iterate 4
    obtain ⟨spec, hspec, h⟩ := Option.bind_eq_some_iff.mp h
    cases h
    exact RecordSpec.tidy_of_ofJson? hv hspec
  · obtain ⟨expr, hexpr, h⟩ := Option.bind_eq_some_iff.mp h
    obtain ⟨bind, -, h⟩ := Option.bind_eq_some_iff.mp h
    cases h
    exact List.forall_mem_singleton.mpr (hv.expr hexpr)
  · obtain ⟨target, -, h⟩ := Option.bind_eq_some_iff.mp h
    obtain ⟨value, hvalue, h⟩ := Option.bind_eq_some_iff.mp h
    obtain ⟨declare, -, h⟩ := Option.bind_eq_some_iff.mp h
    cases h
    exact List.forall_mem_singleton.mpr (hv.expr hvalue)
  · obtain ⟨items, hitems, h⟩ := Option.bind_eq_some_iff.mp h
    obtain ⟨branches, hbranches, h⟩ := Option.bind_eq_some_iff.mp h
    obtain ⟨otherwise, -, h⟩ := Option.bind_eq_some_iff.mp h
    cases h
    intro e he
    obtain ⟨b, hb, rfl⟩ := List.mem_map.mp he
    obtain ⟨part, hpart, hb⟩ := exists_of_mapM hbranches hb
    obtain ⟨condition, hcondition, hb⟩ := Option.bind_eq_some_iff.mp hb
    obtain ⟨inner, -, hb⟩ := Option.bind_eq_some_iff.mp hb
    obtain ⟨body, -, hb⟩ := Option.bind_eq_some_iff.mp hb
    cases hb
    exact (tidy_of_itemsOf? hv hitems part hpart).expr hcondition
  · obtain ⟨subject, hsubject, h⟩ := Option.bind_eq_some_iff.mp h
    obtain ⟨items, -, h⟩ := Option.bind_eq_some_iff.mp h
    obtain ⟨arms, -, h⟩ := Option.bind_eq_some_iff.mp h
    obtain ⟨otherwise, -, h⟩ := Option.bind_eq_some_iff.mp h
    cases h
    exact List.forall_mem_singleton.mpr (hv.expr hsubject)
  · obtain ⟨condition, hcondition, h⟩ := Option.bind_eq_some_iff.mp h
    obtain ⟨body, -, h⟩ := Option.bind_eq_some_iff.mp h
    cases h
    exact List.forall_mem_singleton.mpr (hv.expr hcondition)
  · obtain ⟨count, hcount, h⟩ := Option.bind_eq_some_iff.mp h
    obtain ⟨counter, -, h⟩ := Option.bind_eq_some_iff.mp h
    obtain ⟨body, -, h⟩ := Option.bind_eq_some_iff.mp h
    cases h
    exact List.forall_mem_singleton.mpr (hv.expr hcount)
  · obtain ⟨collection, hcollection, h⟩ := Option.bind_eq_some_iff.mp h
    obtain ⟨binding, -, h⟩ := Option.bind_eq_some_iff.mp h
    obtain ⟨index, -, h⟩ := Option.bind_eq_some_iff.mp h
    obtain ⟨body, -, h⟩ := Option.bind_eq_some_iff.mp h
    cases h
    exact List.forall_mem_singleton.mpr (hv.expr hcollection)
  · obtain ⟨collection, hcollection, h⟩ := Option.bind_eq_some_iff.mp h
    obtain ⟨binding, -, h⟩ := Option.bind_eq_some_iff.mp h
    obtain ⟨body, -, h⟩ := Option.bind_eq_some_iff.mp h
    obtain ⟨join, -, h⟩ := Option.bind_eq_some_iff.mp h
    obtain ⟨collect, hcollect, h⟩ := Option.bind_eq_some_iff.mp h
    cases h
    exact List.forall_mem_cons.mpr ⟨hv.expr hcollection, hv.exprs hcollect⟩
  · obtain ⟨items, hitems, h⟩ := Option.bind_eq_some_iff.mp h
    obtain ⟨lanes, hlanes, h⟩ := Option.bind_eq_some_iff.mp h
    obtain ⟨join, -, h⟩ := Option.bind_eq_some_iff.mp h
    cases h
    intro e he
    obtain ⟨lane, hlane, he⟩ := List.mem_filterMap.mp he
    obtain ⟨part, hpart, hlane⟩ := exists_of_mapM hlanes hlane
    obtain ⟨inner, -, hlane⟩ := Option.bind_eq_some_iff.mp hlane
    obtain ⟨steps, -, hlane⟩ := Option.bind_eq_some_iff.mp hlane
    obtain ⟨collect, hcollect, hlane⟩ := Option.bind_eq_some_iff.mp hlane
    cases hlane
    exact (tidy_of_itemsOf? hv hitems part hpart).exprs hcollect e (Option.mem_toList.mpr he)
  · obtain ⟨body, -, h⟩ := Option.bind_eq_some_iff.mp h
    obtain ⟨onError, -, h⟩ := Option.bind_eq_some_iff.mp h
    cases h
    exact List.forall_mem_nil _
  · cases h

theorem tidy_of_ofJson? {s : Step} (hv : v.Tidy) (h : ofJson? v = some s) : TidyNodes s.nodes := by
  intro n hn
  obtain ⟨w, hw, h⟩ := exists_of_ofJson? h n hn
  rw [ofJson?] at h
  obtain ⟨id, -, h⟩ := Option.bind_eq_some_iff.mp h
  obtain ⟨retry, -, h⟩ := Option.bind_eq_some_iff.mp h
  obtain ⟨timeout, -, h⟩ := Option.bind_eq_some_iff.mp h
  obtain ⟨action, haction, h⟩ := Option.bind_eq_some_iff.mp h
  cases h
  exact tidy_of_readAction (hw hv) haction

theorem tidy_of_sequence {body : List Step} (hv : v.Tidy) (h : sequenceOfJson? v = some body) :
    TidyNodes (sequenceNodes body) := by
  obtain ⟨items, hitems, h⟩ := Option.bind_eq_some_iff.mp h
  intro n hn
  obtain ⟨s, hs, hn⟩ := mem_sequenceNodes.mp hn
  obtain ⟨item, hitem, hread⟩ := exists_of_mapM h hs
  exact tidy_of_ofJson? (hv.asItems? hitems item hitem) hread n hn

end Step

namespace Flow

theorem tidy_of_ofJson? {v : Json} {f : Flow} (hv : v.Tidy) (h : ofJson? v = some f) : f.Tidy := by
  obtain ⟨name, -, h⟩ := Option.bind_eq_some_iff.mp h
  obtain ⟨description, -, h⟩ := Option.bind_eq_some_iff.mp h
  obtain ⟨steps, hsteps, h⟩ := Option.bind_eq_some_iff.mp h
  obtain ⟨onError, honError, h⟩ := Option.bind_eq_some_iff.mp h
  cases h
  refine List.forall_mem_append.mpr ⟨?_, ?_⟩
  · obtain ⟨w, hw, hread⟩ := hv.required hsteps
    exact Step.tidy_of_sequence hw hread
  · intro n hn
    obtain ⟨body, hbody, hn⟩ := Step.mem_optionNodes.mp hn
    obtain ⟨w, hw, hread⟩ := hv.optional honError body (Option.mem_toList.mp hbody)
    exact Step.tidy_of_sequence hw hread n hn

theorem tidy_of_jsonOfText? {language : Language} {source : String} {v : Json}
    (h : jsonOfText? language source = some v) : v.Tidy := by
  cases language with
  | json => exact Json.tidy_of_parse? h
  | yaml =>
      obtain ⟨parsed, -, h⟩ := Option.bind_eq_some_iff.mp h
      obtain ⟨node, -, h⟩ := Option.bind_eq_some_iff.mp h
      exact Yaml.tidy_of_flowToJson? h

theorem tidy_of_ofText {language : Language} {source : String} {f : Flow}
    (h : ofText language source = .ok f) : f.Tidy := by
  obtain ⟨flow, hrequire, h⟩ := exists_of_bind_eq_ok h
  obtain ⟨⟨⟩, -, h⟩ := exists_of_bind_eq_ok h
  cases h
  cases hread : (jsonOfText? language source).bind ofJson? with
  | none =>
      rw [hread] at hrequire
      cases hrequire
  | some flow =>
      rw [hread] at hrequire
      cases hrequire
      obtain ⟨v, hv, hflow⟩ := Option.bind_eq_some_iff.mp hread
      exact tidy_of_ofJson? (tidy_of_jsonOfText? hv) hflow

end Flow

/-! ## Engines -/

structure World.Tidy (w : World) : Prop where
  replies (route : Route) (target : String) : ((Machine.collaborator w route).reply target).Tidy
  store : w.store.store.Tidy

namespace System.Tidy

variable {m m' : Machine} {main : TaskState RunResult} {p : Program RunResult}
  (h : System.Tidy ⟨m, main⟩)
include h

theorem start (hp : p.Obeys tidiness (fun _ r => Fields.Tidy r.outputs) ()) :
    (System.start m p).Tidy := by
  refine ⟨h.replies, fun {t state} ht => ?_, h.outline.store⟩
  cases t with
  | main =>
      cases ht
      exact TaskState.tidy_fresh hp
  | branch number => exact h.outline.tasks (t := .branch number) ht
  | submission number => exact h.outline.tasks (t := .submission number) ht

theorem submit (hp : p.Obeys tidiness (fun _ r => Fields.Tidy r.outputs) ()) :
    System.Tidy ⟨(m.submit p).2, main⟩ := by
  have ho := System.outline_submit ⟨m, main⟩ p
  refine ⟨fun route target => ?_, fun {t state} ht => ?_, ?_⟩
  · have hreplies : (m.submit p).2.replies = m.replies := Machine.replies_of_shared (Machine.shared_wake ..)
    exact hreplies ▸ h.replies route target
  · rw [ho] at ht
    rcases Outline.task?_submit ht with ⟨-, hold⟩ | ⟨rfl, hstate⟩
    · exact h.outline.tasks hold
    · obtain rfl := eq_of_heq hstate
      exact TaskState.tidy_fresh hp
  · rw [ho]
    exact h.outline.store

theorem cancelled {tokens : List Token} (hreplies : m'.replies = m.replies)
    (ho : m'.outline main = { m.outline main with cancelled := tokens }) :
    System.Tidy ⟨m', main⟩ := by
  refine ⟨fun route target => hreplies ▸ h.replies route target, ?_⟩
  exact h.outline.congr (fun t => by rw [System.outline, ho]; cases t <;> rfl)
    (by rw [System.outline, ho]; rfl)

end System.Tidy

namespace Engine

variable {e e' : Engine} {flow : Flow} {inputs : List (String × Json)} {token : Token} {r : RunResult}

structure Tidy (e : Engine) : Prop where
  flows : ∀ f ∈ e.flows, f.2.Tidy
  resting : ∃ main, System.Tidy ⟨e.machine, main⟩

theorem tidy_unchecked (config : Config) {world : World} (h : world.Tidy) :
    (unchecked config world).Tidy := by
  refine ⟨List.forall_mem_nil _, .ended default 0, h.replies, fun {t state} ht => ?_, h.store⟩
  cases t with
  | main =>
      cases ht
      exact Fields.Tidy.nil
  | _ => cases ht

namespace Tidy

variable (h : e.Tidy)
include h

theorem register (hflow : flow.Tidy) (hr : e.register flow = .ok e') : e'.Tidy := by
  obtain ⟨⟨⟩, -, hr⟩ := exists_of_bind_eq_ok hr
  cases hr
  refine ⟨fun f hf => ?_, h.resting⟩
  rcases Fields.mem_insert hf with rfl | hf
  · exact hflow
  · exact h.flows f hf

theorem find {name : String} (hr : e.find name = .ok flow) : flow.Tidy := by
  unfold Engine.find at hr
  split at hr
  · rename_i f hf
    cases hr
    exact h.flows _ (Fields.mem_of_get? hf)
  · cases hr

theorem unregister {name : String} (hr : e.unregister name = .ok e') : e'.Tidy := by
  obtain ⟨flow, -, hr⟩ := exists_of_bind_eq_ok hr
  cases hr
  exact ⟨fun f hf => h.flows f (List.mem_of_mem_filter hf), h.resting⟩

theorem execute {p : Program RunResult} (hp : p.Obeys tidiness (fun _ r => Fields.Tidy r.outputs) ())
    (hr : e.execute p = some (r, e')) : Fields.Tidy r.outputs ∧ e'.Tidy := by
  obtain ⟨main, hmachine⟩ := h.resting
  obtain ⟨⟨result, m⟩, hrun, hr⟩ := Option.map_eq_some_iff.mp hr
  cases hr
  obtain ⟨hresult, order, hend⟩ := (hmachine.start hp).run hrun
  exact ⟨hresult, h.flows, .ended r order, hend⟩

theorem run (hflow : flow.Tidy) (hinputs : ∀ f ∈ inputs, f.2.Tidy)
    (hr : e.run flow inputs token = some (r, e')) : Fields.Tidy r.outputs ∧ e'.Tidy :=
  h.execute (hflow.run e.config hinputs token) hr

theorem submit {name : String} {number : Nat} (hinputs : ∀ f ∈ inputs, f.2.Tidy)
    (hr : e.submit name inputs token = .ok (number, e')) : e'.Tidy := by
  obtain ⟨flow, hfind, hr⟩ := exists_of_bind_eq_ok hr
  cases hr
  obtain ⟨main, hmachine⟩ := h.resting
  exact ⟨h.flows, main, hmachine.submit ((h.find hfind).submitted e.config hinputs token)⟩

theorem newToken (cancelled : Bool) (cancelAfter : Option Nat) :
    (e.newToken cancelled cancelAfter).2.Tidy := by
  obtain ⟨main, hmachine⟩ := h.resting
  refine ⟨h.flows, main, ?_⟩
  have hmade : System.Tidy ⟨e.machine.newToken.2, main⟩ := hmachine.cancelled rfl rfl
  have hcancelled : System.Tidy ⟨if cancelled then
      e.machine.newToken.2.cancel e.machine.newToken.1 else e.machine.newToken.2, main⟩ := by
    split
    · exact hmade.cancelled (Machine.replies_cancel _) (Machine.outline_cancel _ _ _)
    · exact hmade
  cases cancelAfter with
  | none => exact hcancelled
  | some span => exact hcancelled.cancelled rfl rfl

theorem await {number : Nat} (hr : e.await number = some (r, e')) :
    Fields.Tidy r.outputs ∧ e'.Tidy := by
  have hask : (Program.ask (.awaitRun number)).Obeys tidiness
      (fun _ (r : RunResult) => Fields.Tidy r.outputs) () := ⟨trivial, fun _ _ ha => ha⟩
  exact h.execute hask hr

end Tidy
end Engine

/-! ## Runs of a file -/

namespace CommandLine

theorem tidy_echoWorld : echoWorld.Tidy :=
  ⟨fun route _ => by cases route <;> trivial, .empty (List.forall_mem_nil _) []⟩

variable {file? lookup : String → Option String} {path : String} {bindings : Option String}

theorem tidy_of_loadFlow {flow : Flow} (h : loadFlow file? path = .ok flow) : flow.Tidy := by
  unfold loadFlow at h
  split at h
  · cases h
  · rename_i source hsource
    cases hread : Flow.ofText (languageOf path) source with
    | ok read =>
        rw [hread] at h
        cases h
        exact Flow.tidy_of_ofText hread
    | error fault =>
        rw [hread] at h
        cases h

theorem tidy_of_loadBindings {inputs : List (String × Json)} (h : loadBindings file? bindings = .ok inputs) :
    Fields.Tidy inputs := by
  unfold loadBindings at h
  split at h
  · cases h
    exact .nil
  · split at h
    · cases h
    · split at h
      · cases h
      · rename_i hparse
        cases h
        exact Json.tidy_obj.mp (Json.tidy_of_parse? hparse)
      · cases h

theorem tidy_of_runFile {r : RunResult} (h : runFile file? lookup path bindings = .ok r) :
    Fields.Tidy r.outputs := by
  obtain ⟨config, -, h⟩ := exists_of_bind_eq_ok h
  obtain ⟨flow, hflow, h⟩ := exists_of_bind_eq_ok h
  obtain ⟨inputs, hinputs, h⟩ := exists_of_bind_eq_ok h
  dsimp only at h
  split at h
  · rename_i result engine hrun
    cases h
    have hengine := (Engine.tidy_unchecked config tidy_echoWorld).newToken false none
    exact (hengine.run (tidy_of_loadFlow hflow) (fun _ => (tidy_of_loadBindings hinputs).each) hrun).1
  · cases h

end CommandLine
end FlowEngine
