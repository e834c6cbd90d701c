import FlowEngine.Flow.Basic
import FlowEngine.Proofs.Flow.Nodes
import FlowEngine.Proofs.Format.Parts
import FlowEngine.Proofs.Json.Tidy

/-!
# Steps and flows are read back

The reader of an action gets a reader for the steps inside it. An action is read back when that
reader restores the steps of every sequence in the action, and every step inside an action that is
read comes from that reader. Steps follow by induction on the steps inside them.
-/
namespace FlowEngine
open Json

namespace Step

theorem stepsToJson_eq (steps : List Step) : stepsToJson steps = steps.map toJson := by
  induction steps with
  | nil => rfl
  | cons s rest ih => rw [stepsToJson, ih, List.map_cons]

def sequenceToJson (steps : List Step) : Json := .arr (steps.map toJson)

theorem sequenceToJson_eq (steps : List Step) : .arr (stepsToJson steps) = sequenceToJson steps :=
  congrArg Json.arr (stepsToJson_eq steps)

def branchToJson (b : Expr × List Step) : Json :=
  .object [("condition", b.1.toJson), ("body", sequenceToJson b.2)]

def armToJson (a : Pattern × List Step) : Json :=
  .object [("pattern", a.1.toJson), ("body", sequenceToJson a.2)]

def laneToJson (l : List Step × Option Expr) : Json :=
  Json.record [("steps", some (sequenceToJson l.1)), ("collect", l.2.map Expr.toJson)]

theorem optionToJson_eq (body : Option (List Step)) :
    optionToJson body = body.map sequenceToJson := by
  cases body with
  | none => rfl
  | some steps => rw [optionToJson, stepsToJson_eq]; rfl

theorem branchesToJson_eq (branches : List (Expr × List Step)) :
    branchesToJson branches = branches.map branchToJson := by
  induction branches with
  | nil => rfl
  | cons b rest ih => rw [branchesToJson, ih, List.map_cons, stepsToJson_eq]; rfl

theorem armsToJson_eq (arms : List (Pattern × List Step)) :
    armsToJson arms = arms.map armToJson := by
  induction arms with
  | nil => rfl
  | cons a rest ih => rw [armsToJson, ih, List.map_cons, stepsToJson_eq]; rfl

theorem parallelToJson_eq (lanes : List (List Step × Option Expr)) :
    parallelToJson lanes = lanes.map laneToJson := by
  induction lanes with
  | nil => rfl
  | cons l rest ih => rw [parallelToJson, ih, List.map_cons, stepsToJson_eq]; rfl

/-! Children stand in list fields of the object; each item of such a field is what was written
there, with the proof that it is smaller. -/

section Parts
variable {α : Type} {key : String} {v w : Json} {write : α → Json} {xs : List α}

theorem itemsOf?_of_field? (h : v.field? key = some w) :
    itemsOf? key v = w.childItems?.map (·.map (Within.widen ⟨w, sizeOf_field?_lt h⟩)) := by
  rw [itemsOf?, child?_of_field? h]
  cases hw : w.childItems? <;> simp [hw]

theorem exists_written (h : v.field? key = some (.arr (xs.map write))) :
    ∃ items, itemsOf? key v = some items ∧ items.map Subtype.val = xs.map write := by
  have hitems := childItems?_eq (.arr (xs.map write))
  obtain ⟨items, hchildren, hval⟩ := Option.map_eq_some_iff.mp hitems
  refine ⟨items.map (Within.widen ⟨_, sizeOf_field?_lt h⟩), ?_, ?_⟩
  · rw [itemsOf?_of_field? h, hchildren]
    rfl
  · exact (List.map_map ..).trans hval

theorem mapM_written {read : v.Within → Option α} {items : List v.Within}
    (hitems : items.map Subtype.val = xs.map write)
    (h : ∀ x ∈ xs, ∀ item : v.Within, item.1 = write x → read item = some x) :
    items.mapM read = some xs := by
  induction xs generalizing items with
  | nil =>
    cases List.map_eq_nil_iff.mp hitems
    rfl
  | cons x rest ih =>
    obtain ⟨item, others, rfl, hx, hrest⟩ := List.map_eq_cons_iff.mp hitems
    rw [List.mapM_cons, h x (.head _) item hx, ih hrest fun y hy => h y (.tail _ hy)]
    rfl

theorem exists_itemsOf? {read : v.Within → Option α}
    (hf : v.field? key = some (.arr (xs.map write)))
    (h : ∀ x ∈ xs, ∀ item : v.Within, item.1 = write x → read item = some x) :
    ∃ items, itemsOf? key v = some items ∧ items.mapM read = some xs := by
  obtain ⟨items, hitems, hval⟩ := exists_written hf
  exact ⟨items, hitems, mapM_written hval h⟩

theorem exists_partItems? {part : v.Within} {read : v.Within → Option α}
    (hf : part.1.field? key = some (.arr (xs.map write)))
    (h : ∀ x ∈ xs, ∀ item : v.Within, item.1 = write x → read item = some x) :
    ∃ items, partItems? key part = some items ∧ items.mapM read = some xs := by
  obtain ⟨items, hitems, hval⟩ := exists_written hf
  refine ⟨items.map part.widen, ?_, mapM_written ?_ h⟩
  · rw [partItems?, hitems]
    rfl
  · exact (List.map_map ..).trans hval

end Parts

section Reader
variable {v : Json} {read : v.Within → Option Step} {key : String}

def Restores (read : v.Within → Option Step) (body : List Step) : Prop :=
  ∀ s ∈ body, ∀ part : v.Within, part.1 = s.toJson → read part = some s

theorem body?_of_field? {body : List Step} (hr : Restores read body)
    (hf : v.field? key = some (.arr (stepsToJson body))) : body? v read key = some body := by
  rw [stepsToJson_eq] at hf
  obtain ⟨items, hitems, hread⟩ := exists_itemsOf? hf hr
  rw [body?, hitems]
  exact hread

theorem optionalBody?_of_field? {body : Option (List Step)}
    (hr : ∀ steps ∈ body.toList, Restores read steps)
    (hf : v.field? key = optionToJson body) : optionalBody? v read key = some body := by
  cases body with
  | none => rw [optionalBody?, hf]; rfl
  | some steps =>
    have hbody := body?_of_field? (hr steps (.head _)) hf
    rw [optionalBody?, hf, optionToJson, hbody]
    rfl

theorem read_branch {b : Expr × List Step} (hr : Restores read b.2) {part : v.Within}
    (hp : part.1 = branchToJson b) : (do
      let condition ← part.1.required "condition" Expr.ofJson?
      return (condition, ← (← partItems? "body" part).mapM read)) = some b := by
  have hf {k w} (h : (k, w) ∈ [("condition", b.1.toJson), ("body", sequenceToJson b.2)]) :
      part.1.field? k = some w := hp ▸ field?_object (by simp) h
  have hcondition := b.1.inverts.required (hf (k := "condition") (by simp))
  obtain ⟨items, hitems, hread⟩ :=
    exists_partItems? (hf (k := "body") (by simp [sequenceToJson])) hr
  simp only [hcondition, hitems, hread, Option.bind_eq_bind, Option.bind_some]
  rfl

theorem read_arm {a : Pattern × List Step} (hr : Restores read a.2) {part : v.Within}
    (hp : part.1 = armToJson a) : (do
      let pattern ← part.1.required "pattern" Pattern.ofJson?
      return (pattern, ← (← partItems? "body" part).mapM read)) = some a := by
  have hf {k w} (h : (k, w) ∈ [("pattern", a.1.toJson), ("body", sequenceToJson a.2)]) :
      part.1.field? k = some w := hp ▸ field?_object (by simp) h
  have hpattern := a.1.inverts.required (hf (k := "pattern") (by simp))
  obtain ⟨items, hitems, hread⟩ :=
    exists_partItems? (hf (k := "body") (by simp [sequenceToJson])) hr
  simp only [hpattern, hitems, hread, Option.bind_eq_bind, Option.bind_some]
  rfl

theorem read_lane {l : List Step × Option Expr} (hr : Restores read l.1) {part : v.Within}
    (hp : part.1 = laneToJson l) : (do
      let steps ← (← partItems? "steps" part).mapM read
      return (steps, ← part.1.optional "collect" Expr.ofJson?)) = some l := by
  have hf {k w} (h : (k, w) ∈ [("steps", some (sequenceToJson l.1)),
      ("collect", l.2.map Expr.toJson)]) : part.1.field? k = w := hp ▸ field?_record (by simp) h
  obtain ⟨items, hitems, hread⟩ :=
    exists_partItems? (hf (k := "steps") (by simp [sequenceToJson])) hr
  have hcollect := Inverts.optional (o := l.2) (fun e _ => e.inverts)
    (hf (k := "collect") (by simp))
  simp only [hcollect, hitems, hread, Option.bind_eq_bind, Option.bind_some]
  rfl

theorem exists_branches {branches : List (Expr × List Step)}
    (hr : ∀ body ∈ branches.map Prod.snd, Restores read body)
    (hf : v.field? key = some (.arr (branchesToJson branches))) :
    ∃ items, itemsOf? key v = some items ∧ (items.mapM fun part => do
      let condition ← part.1.required "condition" Expr.ofJson?
      return (condition, ← (← partItems? "body" part).mapM read)) = some branches := by
  rw [branchesToJson_eq] at hf
  exact exists_itemsOf? hf fun b hb _ => read_branch (hr b.2 (List.mem_map_of_mem hb))

theorem exists_arms {arms : List (Pattern × List Step)}
    (hr : ∀ body ∈ arms.map Prod.snd, Restores read body)
    (hf : v.field? key = some (.arr (armsToJson arms))) :
    ∃ items, itemsOf? key v = some items ∧ (items.mapM fun part => do
      let pattern ← part.1.required "pattern" Pattern.ofJson?
      return (pattern, ← (← partItems? "body" part).mapM read)) = some arms := by
  rw [armsToJson_eq] at hf
  exact exists_itemsOf? hf fun a ha _ => read_arm (hr a.2 (List.mem_map_of_mem ha))

theorem exists_lanes {lanes : List (List Step × Option Expr)}
    (hr : ∀ body ∈ lanes.map Prod.fst, Restores read body)
    (hf : v.field? key = some (.arr (parallelToJson lanes))) :
    ∃ items, itemsOf? key v = some items ∧ (items.mapM fun part => do
      let steps ← (← partItems? "steps" part).mapM read
      return (steps, ← part.1.optional "collect" Expr.ofJson?)) = some lanes := by
  rw [parallelToJson_eq] at hf
  exact exists_itemsOf? hf fun l hl _ => read_lane (hr l.1 (List.mem_map_of_mem hl))

theorem readAction_of_fields {action : Action} (hk : v.field? "kind" = some (.str action.kind))
    (hf : ∀ {k w}, (k, w) ∈ actionFields action → v.field? k = w)
    (hr : ∀ body ∈ action.children, Restores read body) : readAction v read = some action := by
  have hkind := (Inverts.text action.kind).required hk
  cases action with
  | call route spec =>
    have hspec := CallSpec.ofJson?_of_fields hf
    cases route <;>
      simp only [Action.kind] at hkind <;>
      simp only [readAction, hkind, hspec, Option.bind_eq_bind, Option.bind_some] <;> rfl
  | record op spec =>
    have hspec := RecordSpec.ofJson?_of_fields hf
    cases op <;>
      simp only [Action.kind] at hkind <;>
      simp only [readAction, hkind, hspec, Option.bind_eq_bind, Option.bind_some] <;> rfl
  | script expr bind =>
    simp only [Action.kind] at hkind
    have hexpr := expr.inverts.required (hf (k := "expr") (by simp [actionFields]))
    have hbind := Inverts.optional (o := bind) (fun s _ => .text s)
      (hf (k := "bind") (by simp [actionFields]))
    simp only [readAction, hkind, hexpr, hbind, Option.bind_eq_bind, Option.bind_some]
    rfl
  | assign target value declare =>
    simp only [Action.kind] at hkind
    have htarget := (Inverts.text target).required (hf (k := "target") (by simp [actionFields]))
    have hvalue := value.inverts.required (hf (k := "value") (by simp [actionFields]))
    have hdeclare :=
      (Inverts.flag declare).withDefault (hf (k := "declare") (by simp [actionFields])) false
    simp only [readAction, hkind, htarget, hvalue, hdeclare, Option.bind_eq_bind, Option.bind_some]
    rfl
  | conditional branches otherwise =>
    simp only [Action.kind] at hkind
    obtain ⟨items, hitems, hread⟩ := exists_branches
      (fun body h => hr body (List.mem_append_left _ h))
      (hf (k := "branches") (by simp [actionFields]))
    have hotherwise := optionalBody?_of_field?
      (fun body h => hr body (List.mem_append_right _ h))
      (hf (k := "otherwise") (by simp [actionFields]))
    simp only [Option.bind_eq_bind] at hread
    simp only [readAction, hkind, hitems, hread, hotherwise, Option.bind_eq_bind, Option.bind_some]
    rfl
  | choose subject arms otherwise =>
    simp only [Action.kind] at hkind
    have hsubject := subject.inverts.required (hf (k := "subject") (by simp [actionFields]))
    obtain ⟨items, hitems, hread⟩ := exists_arms
      (fun body h => hr body (List.mem_append_left _ h))
      (hf (k := "arms") (by simp [actionFields]))
    have hotherwise := optionalBody?_of_field?
      (fun body h => hr body (List.mem_append_right _ h))
      (hf (k := "otherwise") (by simp [actionFields]))
    simp only [Option.bind_eq_bind] at hread
    simp only [readAction, hkind, hsubject, hitems, hread, hotherwise, Option.bind_eq_bind,
      Option.bind_some]
    rfl
  | guard condition body =>
    simp only [Action.kind] at hkind
    have hcondition := condition.inverts.required (hf (k := "condition") (by simp [actionFields]))
    have hbody := body?_of_field? (hr body (.head _)) (hf (k := "body") (by simp [actionFields]))
    simp only [readAction, hkind, hcondition, hbody, Option.bind_eq_bind, Option.bind_some]
    rfl
  | repeatTimes count counter body =>
    simp only [Action.kind] at hkind
    have hcount := count.inverts.required (hf (k := "count") (by simp [actionFields]))
    have hcounter := Inverts.optional (o := counter) (fun s _ => .text s)
      (hf (k := "counter") (by simp [actionFields]))
    have hbody := body?_of_field? (hr body (.head _)) (hf (k := "body") (by simp [actionFields]))
    simp only [readAction, hkind, hcount, hcounter, hbody, Option.bind_eq_bind, Option.bind_some]
    rfl
  | repeatForEach collection binding index body =>
    simp only [Action.kind] at hkind
    have hcollection := collection.inverts.required
      (hf (k := "collection") (by simp [actionFields]))
    have hbinding := binding.inverts.required (hf (k := "binding") (by simp [actionFields]))
    have hindex := Inverts.optional (o := index) (fun s _ => .text s)
      (hf (k := "index") (by simp [actionFields]))
    have hbody := body?_of_field? (hr body (.head _)) (hf (k := "body") (by simp [actionFields]))
    simp only [readAction, hkind, hcollection, hbinding, hindex, hbody, Option.bind_eq_bind,
      Option.bind_some]
    rfl
  | forEach collection binding body join collect =>
    simp only [Action.kind] at hkind
    have hcollection := collection.inverts.required
      (hf (k := "collection") (by simp [actionFields]))
    have hbinding := binding.inverts.required (hf (k := "binding") (by simp [actionFields]))
    have hbody := body?_of_field? (hr body (.head _)) (hf (k := "body") (by simp [actionFields]))
    have hjoin := join.inverts.withDefault (hf (k := "join") (by simp [actionFields])) .waitAll
    have hcollect := Inverts.optional (o := collect) (fun e _ => e.inverts)
      (hf (k := "collect") (by simp [actionFields]))
    simp only [readAction, hkind, hcollection, hbinding, hbody, hjoin, hcollect,
      Option.bind_eq_bind, Option.bind_some]
    rfl
  | parallel branches join =>
    simp only [Action.kind] at hkind
    obtain ⟨items, hitems, hread⟩ := exists_lanes hr
      (hf (k := "branches") (by simp [actionFields]))
    have hjoin := join.inverts.withDefault (hf (k := "join") (by simp [actionFields])) .waitAll
    simp only [Option.bind_eq_bind] at hread
    simp only [readAction, hkind, hitems, hread, hjoin, Option.bind_eq_bind, Option.bind_some]
    rfl
  | transaction body onError =>
    simp only [Action.kind] at hkind
    have hbody := body?_of_field? (hr body (.head _)) (hf (k := "body") (by simp [actionFields]))
    have honError := optionalBody?_of_field? (fun steps h => hr steps (.tail _ h))
      (hf (k := "on_error") (by simp [actionFields]))
    simp only [readAction, hkind, hbody, honError, Option.bind_eq_bind, Option.bind_some]
    rfl

end Reader

/-- Every growth factor in a step is a finite double. -/
def Finite (s : Step) : Prop := ∀ n ∈ s.nodes, ∀ p ∈ n.retry, p.backoff.Finite

theorem Finite.child {s c : Step} (h : s.Finite) {body : List Step} (hb : body ∈ s.children)
    (hc : c ∈ body) : c.Finite :=
  fun n hn => h n (mem_nodes.mpr (.inr ⟨body, hb, c, hc, hn⟩))

theorem Finite.policy {s : Step} (h : s.Finite) : ∀ p ∈ s.retry, p.backoff.Finite :=
  h s (mem_nodes.mpr (.inl rfl))

def entries (s : Step) : List (String × Option Json) :=
  [("id", some (.str s.id)), ("kind", some (.str s.kind))] ++ actionFields s.action
    ++ [("retry", s.retry.map RetryPolicy.toJson), ("timeout_ms", s.timeout.map Millis.toJson)]

theorem toJson_eq (s : Step) : s.toJson = Json.record s.entries := by
  obtain ⟨id, action, retry, timeout⟩ := s
  rw [toJson]
  rfl

theorem nodup_entries (s : Step) : (s.entries.map Prod.fst).Nodup := by
  obtain ⟨id, action, retry, timeout⟩ := s
  cases action <;> simp [entries, actionFields, action, CallSpec.fields, RecordSpec.fields]

theorem inverts (s : Step) : s.Finite → Inverts ofJson? toJson s := by
  induction s using Step.induction with
  | h s ih =>
    intro hs
    have hf {k w} := @field?_record k s.entries w s.nodup_entries
    have hid := (Inverts.text s.id).required (hf (k := "id") (by simp [entries]))
    have hretry := Inverts.optional (o := s.retry)
      (fun p hp => RetryPolicy.inverts (hs.policy p hp))
      (hf (k := "retry") (by simp [entries]))
    have htimeout := Inverts.optional (o := s.timeout) (fun ms _ => ms.inverts)
      (hf (k := "timeout_ms") (by simp [entries]))
    have haction :
        readAction (Json.record s.entries) (fun part => ofJson? part.1) = some s.action :=
      readAction_of_fields (hf (k := "kind") (w := some (.str s.kind)) (by simp [entries]))
        (fun h => hf (List.mem_append_left _ (List.mem_append_right _ h)))
        fun body hb c hc part hp => hp ▸ (ih body hb c hc (hs.child hb hc)).read_write
    constructor
    · rw [toJson_eq, ofJson?]
      simp only [hid, hretry, htimeout, haction, Option.bind_eq_bind, Option.bind_some]
      obtain ⟨id, action, retry, timeout⟩ := s
      rfl
    · rw [toJson_eq]
      nofun

/-! Every step inside of one that is read is read from a part, which is tidy if the whole is. -/

section Inside

variable {v : Json} {read : v.Within → Option Step} {key : String} {P : Step → Prop}

theorem tidy_of_itemsOf? {parts : List v.Within} (hv : v.Tidy) (h : itemsOf? key v = some parts) :
    ∀ part ∈ parts, part.1.Tidy := by
  obtain ⟨child, hchild, h⟩ := Option.bind_eq_some_iff.mp h
  obtain ⟨inner, hinner, h⟩ := Option.bind_eq_some_iff.mp h
  cases h
  intro part hpart
  obtain ⟨w, hw, rfl⟩ := List.mem_map.mp hpart
  exact (hv.child? hchild).childItems? hinner w hw

theorem tidy_of_partItems? {part : v.Within} {parts : List v.Within} (hv : part.1.Tidy)
    (h : partItems? key part = some parts) : ∀ part ∈ parts, part.1.Tidy := by
  obtain ⟨inner, hinner, rfl⟩ := Option.map_eq_some_iff.mp h
  intro part hpart
  obtain ⟨w, hw, rfl⟩ := List.mem_map.mp hpart
  exact tidy_of_itemsOf? hv hinner w hw

/-- Steps that are read from parts have a property. -/
def Reads (P : Step → Prop) (read : v.Within → Option Step) : Prop :=
  ∀ part s, (v.Tidy → part.1.Tidy) → read part = some s → P s

theorem forall_of_mapM (hr : Reads P read) {items : List v.Within} {body : List Step}
    (hitems : v.Tidy → ∀ part ∈ items, part.1.Tidy) (h : items.mapM read = some body) :
    ∀ s ∈ body, P s := by
  intro s hs
  obtain ⟨part, hmem, hpart⟩ := exists_of_mapM h hs
  exact hr part s (fun hv => hitems hv part hmem) hpart

theorem forall_of_body? (hr : Reads P read) {body : List Step} (h : body? v read key = some body) :
    ∀ s ∈ body, P s := by
  obtain ⟨items, hitems, h⟩ := Option.bind_eq_some_iff.mp h
  exact forall_of_mapM hr (fun hv => tidy_of_itemsOf? hv hitems) h

theorem forall_of_optionalBody? (hr : Reads P read) {body : Option (List Step)}
    (h : optionalBody? v read key = some body) : ∀ steps ∈ body.toList, ∀ s ∈ steps, P s := by
  rw [optionalBody?] at h
  split at h
  · cases h
    nofun
  · cases h
    nofun
  · obtain ⟨steps, hsteps, rfl⟩ := Option.map_eq_some_iff.mp h
    exact List.forall_mem_singleton.mpr (forall_of_body? hr hsteps)

theorem forall_of_part {β : Type} (hr : Reads P read) {part : v.Within} {b : β × List Step} {x : β}
    (hpart : v.Tidy → part.1.Tidy)
    (h : (do return (x, ← (← partItems? key part).mapM read)) = some b) : ∀ s ∈ b.2, P s := by
  obtain ⟨items, hitems, h⟩ := Option.bind_eq_some_iff.mp h
  obtain ⟨steps, hsteps, h⟩ := Option.bind_eq_some_iff.mp h
  cases h
  exact forall_of_mapM hr (fun hv => tidy_of_partItems? (hpart hv) hitems) hsteps

/-- The steps of several bodies that are read one by one, each with what belongs to it. -/
theorem forall_of_bodies {β : Type} {item : v.Within → Option β} {bodyOf : β → List Step}
    (hitem : ∀ part b, (v.Tidy → part.1.Tidy) → item part = some b → ∀ s ∈ bodyOf b, P s)
    {items : List v.Within} (hitems : itemsOf? key v = some items) {bs : List β}
    (h : items.mapM item = some bs) : ∀ body ∈ bs.map bodyOf, ∀ s ∈ body, P s := by
  intro body hb
  obtain ⟨b, hmem, rfl⟩ := List.mem_map.mp hb
  obtain ⟨part, hpart, hread⟩ := exists_of_mapM h hmem
  exact hitem part b (fun hv => tidy_of_itemsOf? hv hitems part hpart) hread

theorem forall_of_readAction (hr : Reads P read) {action : Action}
    (h : readAction v read = some action) : ∀ body ∈ action.children, ∀ s ∈ body, P s := by
  rw [readAction] at h
  obtain ⟨tag, -, h⟩ := Option.bind_eq_some_iff.mp h
  split at h
  iterate 7
    obtain ⟨spec, -, h⟩ := Option.bind_eq_some_iff.mp h
    cases h
    nofun
  · obtain ⟨expr, -, h⟩ := Option.bind_eq_some_iff.mp h
    obtain ⟨bind, -, h⟩ := Option.bind_eq_some_iff.mp h
    cases h
    nofun
  · obtain ⟨target, -, h⟩ := Option.bind_eq_some_iff.mp h
    obtain ⟨value, -, h⟩ := Option.bind_eq_some_iff.mp h
    obtain ⟨declare, -, h⟩ := Option.bind_eq_some_iff.mp h
    cases h
    nofun
  · obtain ⟨items, hitems, h⟩ := Option.bind_eq_some_iff.mp h
    obtain ⟨branches, hbranches, h⟩ := Option.bind_eq_some_iff.mp h
    obtain ⟨otherwise, hotherwise, h⟩ := Option.bind_eq_some_iff.mp h
    cases h
    refine List.forall_mem_append.mpr ⟨?_, forall_of_optionalBody? hr hotherwise⟩
    refine forall_of_bodies (fun part b htidy hpart => ?_) hitems hbranches
    obtain ⟨condition, -, hpart⟩ := Option.bind_eq_some_iff.mp hpart
    exact forall_of_part hr htidy hpart
  · obtain ⟨subject, -, h⟩ := Option.bind_eq_some_iff.mp h
    obtain ⟨items, hitems, h⟩ := Option.bind_eq_some_iff.mp h
    obtain ⟨arms, harms, h⟩ := Option.bind_eq_some_iff.mp h
    obtain ⟨otherwise, hotherwise, h⟩ := Option.bind_eq_some_iff.mp h
    cases h
    refine List.forall_mem_append.mpr ⟨?_, forall_of_optionalBody? hr hotherwise⟩
    refine forall_of_bodies (fun part a htidy hpart => ?_) hitems harms
    obtain ⟨pattern, -, hpart⟩ := Option.bind_eq_some_iff.mp hpart
    exact forall_of_part hr htidy hpart
  · obtain ⟨condition, -, h⟩ := Option.bind_eq_some_iff.mp h
    obtain ⟨body, hbody, h⟩ := Option.bind_eq_some_iff.mp h
    cases h
    exact List.forall_mem_singleton.mpr (forall_of_body? hr hbody)
  · obtain ⟨count, -, h⟩ := Option.bind_eq_some_iff.mp h
    obtain ⟨counter, -, h⟩ := Option.bind_eq_some_iff.mp h
    obtain ⟨body, hbody, h⟩ := Option.bind_eq_some_iff.mp h
    cases h
    exact List.forall_mem_singleton.mpr (forall_of_body? hr hbody)
  · obtain ⟨collection, -, h⟩ := Option.bind_eq_some_iff.mp h
    obtain ⟨binding, -, h⟩ := Option.bind_eq_some_iff.mp h
    obtain ⟨index, -, h⟩ := Option.bind_eq_some_iff.mp h
    obtain ⟨body, hbody, h⟩ := Option.bind_eq_some_iff.mp h
    cases h
    exact List.forall_mem_singleton.mpr (forall_of_body? hr hbody)
  · obtain ⟨collection, -, h⟩ := Option.bind_eq_some_iff.mp h
    obtain ⟨binding, -, h⟩ := Option.bind_eq_some_iff.mp h
    obtain ⟨body, hbody, h⟩ := Option.bind_eq_some_iff.mp h
    obtain ⟨join, -, h⟩ := Option.bind_eq_some_iff.mp h
    obtain ⟨collect, -, h⟩ := Option.bind_eq_some_iff.mp h
    cases h
    exact List.forall_mem_singleton.mpr (forall_of_body? hr hbody)
  · obtain ⟨items, hitems, h⟩ := Option.bind_eq_some_iff.mp h
    obtain ⟨lanes, hlanes, h⟩ := Option.bind_eq_some_iff.mp h
    obtain ⟨join, -, h⟩ := Option.bind_eq_some_iff.mp h
    cases h
    refine forall_of_bodies (fun part l htidy hpart => ?_) hitems hlanes
    obtain ⟨inner, hinner, hpart⟩ := Option.bind_eq_some_iff.mp hpart
    obtain ⟨steps, hsteps, hpart⟩ := Option.bind_eq_some_iff.mp hpart
    obtain ⟨collect, -, hpart⟩ := Option.bind_eq_some_iff.mp hpart
    cases hpart
    exact forall_of_mapM hr (fun hv => tidy_of_partItems? (htidy hv) hinner) hsteps
  · obtain ⟨body, hbody, h⟩ := Option.bind_eq_some_iff.mp h
    obtain ⟨onError, honError, h⟩ := Option.bind_eq_some_iff.mp h
    cases h
    exact List.forall_mem_cons.mpr ⟨forall_of_body? hr hbody, forall_of_optionalBody? hr honError⟩
  · cases h

end Inside

theorem exists_of_ofJson? {v : Json} {s : Step} (h : ofJson? v = some s) :
    ∀ n ∈ s.nodes, ∃ w, (v.Tidy → w.Tidy) ∧ ofJson? w = some n := by
  have hs := h
  rw [ofJson?] at h
  obtain ⟨id, -, h⟩ := Option.bind_eq_some_iff.mp h
  obtain ⟨retry, -, h⟩ := Option.bind_eq_some_iff.mp h
  obtain ⟨timeout, -, h⟩ := Option.bind_eq_some_iff.mp h
  obtain ⟨action, haction, h⟩ := Option.bind_eq_some_iff.mp h
  cases h
  have hreads : Reads (fun s => ∀ n ∈ s.nodes, ∃ w, (v.Tidy → w.Tidy) ∧ ofJson? w = some n)
      fun part : v.Within => ofJson? part.1 := by
    intro part s htidy hs n hn
    obtain ⟨w, hw, hread⟩ := exists_of_ofJson? hs n hn
    exact ⟨w, hw ∘ htidy, hread⟩
  have hinside := forall_of_readAction hreads haction
  intro n hn
  obtain rfl | ⟨body, hb, c, hc, hn⟩ := mem_nodes.mp hn
  · exact ⟨v, fun hv => hv, hs⟩
  · exact hinside body hb c hc n hn
termination_by sizeOf v
decreasing_by exact part.2

/-- Only finite factors are read. -/
theorem finite_of_ofJson? {v : Json} {s : Step} (h : ofJson? v = some s) : s.Finite := by
  intro n hn
  obtain ⟨w, -, h⟩ := exists_of_ofJson? h n hn
  rw [ofJson?] at h
  obtain ⟨id, -, h⟩ := Option.bind_eq_some_iff.mp h
  obtain ⟨retry, hretry, h⟩ := Option.bind_eq_some_iff.mp h
  obtain ⟨timeout, -, h⟩ := Option.bind_eq_some_iff.mp h
  obtain ⟨action, -, h⟩ := Option.bind_eq_some_iff.mp h
  cases h
  exact forall_of_optional (fun _ _ h => RetryPolicy.finite_of_ofJson? h) hretry

theorem inverts_sequence {body : List Step} (h : ∀ s ∈ body, s.Finite) :
    Inverts sequenceOfJson? sequenceToJson body :=
  .list fun s hs => s.inverts (h s hs)

theorem finite_of_sequence {v : Json} {body : List Step} (h : sequenceOfJson? v = some body) :
    ∀ s ∈ body, s.Finite := by
  obtain ⟨items, -, h⟩ := Option.bind_eq_some_iff.mp h
  intro s hs
  obtain ⟨item, -, hitem⟩ := exists_of_mapM h hs
  exact finite_of_ofJson? hitem

end Step

namespace Flow

/-- Every growth factor in a flow is a finite double. -/
def Finite (f : Flow) : Prop := ∀ n ∈ f.nodes, ∀ p ∈ n.retry, p.backoff.Finite

theorem finite_iff (f : Flow) :
    f.Finite ↔ (∀ s ∈ f.steps, s.Finite) ∧ ∀ body ∈ f.onError, ∀ s ∈ body, s.Finite := by
  have hnodes (n : Step) : n ∈ f.nodes ↔ (∃ s ∈ f.steps, n ∈ s.nodes) ∨
      ∃ body ∈ f.onError, ∃ s ∈ body, n ∈ s.nodes := by
    simp only [nodes, List.mem_append, Step.mem_sequenceNodes, Step.mem_optionNodes,
      Option.mem_toList, Option.mem_def]
  constructor
  · intro h
    exact ⟨fun s hs n hn => h n ((hnodes n).mpr (.inl ⟨s, hs, hn⟩)),
      fun body hb s hs n hn => h n ((hnodes n).mpr (.inr ⟨body, hb, s, hs, hn⟩))⟩
  · rintro ⟨hsteps, hhandler⟩ n hn
    obtain ⟨s, hs, hn⟩ | ⟨body, hb, s, hs, hn⟩ := (hnodes n).mp hn
    · exact hsteps s hs n hn
    · exact hhandler body hb s hs n hn

def entries (f : Flow) : List (String × Option Json) :=
  [("name", some (.str f.name)), ("description", f.description.map .str),
    ("steps", some (Step.sequenceToJson f.steps)),
    ("on_error", f.onError.map Step.sequenceToJson)]

theorem toJson_eq (f : Flow) : f.toJson = Json.record f.entries := by
  rw [toJson, Step.sequenceToJson_eq, Step.optionToJson_eq]
  rfl

theorem nodup_entries (f : Flow) : (f.entries.map Prod.fst).Nodup := by simp [entries]

theorem inverts {f : Flow} (h : f.Finite) : Inverts ofJson? toJson f := by
  obtain ⟨hfinite, hhandler⟩ := f.finite_iff.mp h
  have hf {k w} := @field?_record k f.entries w f.nodup_entries
  have hname := (Inverts.text f.name).required (hf (k := "name") (by simp [entries]))
  have hdescription := Inverts.optional (o := f.description) (fun s _ => .text s)
    (hf (k := "description") (by simp [entries]))
  have hsteps := (Step.inverts_sequence hfinite).required (hf (k := "steps") (by simp [entries]))
  have honError := Inverts.optional (o := f.onError)
    (fun body hb => Step.inverts_sequence (hhandler body hb))
    (hf (k := "on_error") (by simp [entries]))
  constructor
  · rw [toJson_eq, ofJson?]
    simp only [hname, hdescription, hsteps, honError, Option.bind_eq_bind, Option.bind_some]
    rfl
  · rw [toJson_eq]
    nofun

theorem finite_of_ofJson? {v : Json} {f : Flow} (h : ofJson? v = some f) : f.Finite := by
  rw [ofJson?] at h
  obtain ⟨name, -, h⟩ := Option.bind_eq_some_iff.mp h
  obtain ⟨description, -, h⟩ := Option.bind_eq_some_iff.mp h
  obtain ⟨steps, hsteps, h⟩ := Option.bind_eq_some_iff.mp h
  obtain ⟨onError, honError, h⟩ := Option.bind_eq_some_iff.mp h
  cases h
  obtain ⟨w, -, hw⟩ := Option.bind_eq_some_iff.mp hsteps
  exact (finite_iff _).mpr ⟨Step.finite_of_sequence hw, fun body hb =>
    forall_of_optional (fun _ _ h => Step.finite_of_sequence h) honError body hb⟩

end Flow
end FlowEngine
