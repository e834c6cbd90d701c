import FlowEngine.Proofs.Flow.Checks
import Mathlib.Data.Finset.Card
import Mathlib.Data.Finset.Dedup
import Mathlib.Data.String.Basic

/-!
# Well-formed flows

What makes a flow well-formed is said here of its steps, wherever they are, and without the way in
which they are checked: no ids that were seen, no flag for what is inside of a transaction. The
check accepts these flows and no others.
-/
namespace FlowEngine

def Target.mark : String := "state."

/-- A name that a step of this kind writes: into a variable, into a field of the flow-wide object,
or into a frame that it opens. -/
inductive Action.Writes : Action → String → Prop where
  | field (name : String) (value : Expr) (declare : Bool) :
      Writes (.assign (Target.mark ++ name) value declare) name
  | name {target : String} (h : ∀ name, target ≠ Target.mark ++ name) (value : Expr)
      (declare : Bool) : Writes (.assign target value declare) target
  | call (route : Route) {spec : CallSpec} {name : String} (h : spec.bind = some name) :
      Writes (.call route spec) name
  | record (op : RecordOp) {spec : RecordSpec} {name : String} (h : spec.bind = some name) :
      Writes (.record op spec) name
  | script (expr : Expr) (name : String) : Writes (.script expr (some name)) name
  | arm (subject : Expr) {arms : List (Pattern × List Step)} (otherwise : Option (List Step))
      {pattern : Pattern} {body : List Step} {name : String} (mem : (pattern, body) ∈ arms)
      (binds : pattern = .ok (some name) ∨ pattern = .err (some name)) :
      Writes (.choose subject arms otherwise) name
  | counter (count : Expr) (name : String) (body : List Step) :
      Writes (.repeatTimes count (some name) body) name
  | element (collection : Expr) {binding : LoopBinding} (index : Option String) (body : List Step)
      {name : String} (h : name ∈ binding.names) :
      Writes (.repeatForEach collection binding index body) name
  | index (collection : Expr) (binding : LoopBinding) (name : String) (body : List Step) :
      Writes (.repeatForEach collection binding (some name) body) name
  | branch (collection : Expr) {binding : LoopBinding} (body : List Step) (join : JoinPolicy)
      (collect : Option Expr) {name : String} (h : name ∈ binding.names) :
      Writes (.forEach collection binding body join collect) name

namespace Target

theorem ofText_mark (name : String) : ofText (mark ++ name) = .field name := by
  have hmark : (mark ++ name).toList = fieldMark ++ name.toList := String.toList_append
  unfold ofText
  have hbegins : fieldMark.isPrefixOf (fieldMark ++ name.toList) = true :=
    List.isPrefixOf_iff_prefix.mpr ⟨name.toList, rfl⟩
  rw [hmark, if_pos hbegins, List.drop_left, String.ofList_toList]

theorem ofText_of_ne {text : String} (h : ∀ name, text ≠ mark ++ name) :
    ofText text = .binding text := by
  unfold ofText
  refine if_neg fun hbegins => ?_
  obtain ⟨rest, hrest⟩ := List.isPrefixOf_iff_prefix.mp hbegins
  apply h (String.ofList rest)
  rw [← String.toList_inj, String.toList_append, String.toList_ofList, ← hrest]
  rfl

end Target

/-- The names that a step writes are the one that an assignment is to and those that the others
declare. -/
theorem Action.writes_iff {a : Action} {name : String} : a.Writes name ↔
    (∃ target value declare, a = .assign target value declare ∧ name = (Target.ofText target).name) ∨
      name ∈ Flow.writtenNames a := by
  constructor
  · intro h
    cases h with
    | field name value declare => exact .inl ⟨_, _, _, rfl, by rw [Target.ofText_mark]; rfl⟩
    | name h value declare => exact .inl ⟨_, _, _, rfl, by rw [Target.ofText_of_ne h]; rfl⟩
    | call route h => exact .inr (by simp [Flow.writtenNames, h])
    | record op h => exact .inr (by simp [Flow.writtenNames, h])
    | script | counter => exact .inr (by simp [Flow.writtenNames])
    | arm subject otherwise mem binds =>
        refine .inr (List.mem_filterMap.mpr ⟨_, mem, ?_⟩)
        rcases binds with rfl | rfl <;> rfl
    | element collection index body h => exact .inr (List.mem_append_left _ h)
    | index collection binding name body =>
        exact .inr (List.mem_append_right _ (List.mem_singleton_self name))
    | branch collection body join collect h => exact .inr h
  · rintro (⟨target, value, declare, rfl, rfl⟩ | h)
    · by_cases hmark : ∃ name, target = Target.mark ++ name
      · obtain ⟨name, rfl⟩ := hmark
        rw [Target.ofText_mark]
        exact .field name value declare
      · rw [not_exists] at hmark
        rw [Target.ofText_of_ne hmark]
        exact .name hmark value declare
    · cases a with
      | call route spec => exact .call route (Option.mem_toList.mp h)
      | record op spec => exact .record op (Option.mem_toList.mp h)
      | script expr bind =>
          cases Option.mem_toList.mp h
          exact .script expr name
      | choose subject arms otherwise =>
          obtain ⟨⟨pattern, body⟩, mem, hbinds⟩ := List.mem_filterMap.mp h
          refine .arm subject otherwise mem ?_
          cases pattern with
          | ok bind => exact .inl (congrArg Pattern.ok hbinds)
          | err bind => exact .inr (congrArg Pattern.err hbinds)
          | literal value => cases hbinds
      | repeatTimes count counter body =>
          cases Option.mem_toList.mp h
          exact .counter count name body
      | repeatForEach collection binding index body =>
          rcases List.mem_append.mp h with h | h
          · exact .element collection index body h
          · cases Option.mem_toList.mp h
            exact .index collection binding name body
      | forEach collection binding body join collect => exact .branch collection body join collect h
      | _ => cases h

namespace Flow

/-- A flow that may be run. -/
structure WellFormed (flow : Flow) : Prop where
  named : ∃ c ∈ flow.name.toList, Text.isBlankChar c = false
  identified : ∀ n ∈ flow.nodes, n.id ≠ ""
  distinct : (flow.nodes.map Step.id).Nodup
  attempted : ∀ n ∈ flow.nodes, ∀ p, n.retry = some p → p.maxAttempts ≠ 0
  reachable : ∀ n ∈ flow.nodes, ∀ name, n.action.Writes name → name ≠ "" ∧ '.' ∉ name.toList
  unnested : ∀ n ∈ flow.nodes, ∀ body onError, n.action = .transaction body onError →
    ∀ m ∈ Step.sequenceNodes body, ∀ body' onError', m.action ≠ .transaction body' onError'

theorem reachable_iff {name : String} :
    FlowEngine.reachable name = true ↔ name ≠ "" ∧ '.' ∉ name.toList := by
  simp [FlowEngine.reachable]

theorem find?_reachable {names : List String} :
    (names.find? fun name => !FlowEngine.reachable name) = none ↔
      ∀ name ∈ names, name ≠ "" ∧ '.' ∉ name.toList := by
  simp only [List.find?_eq_none, Bool.not_eq_true', Bool.not_eq_false, reachable_iff]

/-- A step is not refused for its names if a path reaches each of them. -/
theorem unreachable?_eq_none {a : Action} :
    unreachable? a = none ↔ ∀ name, a.Writes name → name ≠ "" ∧ '.' ∉ name.toList := by
  cases a with
  | assign target value declare =>
      have hsplit : unreachable? (.assign target value declare) = none ↔
          FlowEngine.reachable (Target.ofText target).name = true := by
        simp [unreachable?]
      rw [hsplit, reachable_iff]
      constructor
      · intro h name hname
        rcases Action.writes_iff.mp hname with ⟨_, _, _, heq, rfl⟩ | hname
        · cases heq
          exact h
        · cases hname
      · exact fun h => h _ (Action.writes_iff.mpr (.inl ⟨_, _, _, rfl, rfl⟩))
  | _ =>
      refine find?_reachable.trans (forall_congr' fun name => ?_)
      rw [Action.writes_iff]
      simp

theorem sound_iff {s : Step} : s.Sound ↔ s.id ≠ "" ∧ (∀ p, s.retry = some p → p.maxAttempts ≠ 0) ∧
    ∀ name, s.action.Writes name → name ≠ "" ∧ '.' ∉ name.toList := by
  constructor
  · rintro ⟨named, attempted, reachable⟩
    exact ⟨by simpa using named, attempted, unreachable?_eq_none.mp reachable⟩
  · rintro ⟨named, attempted, reachable⟩
    exact ⟨by simpa using named, attempted, unreachable?_eq_none.mpr reachable⟩

theorem isBlank_iff {text : String} :
    Text.isBlank text = false ↔ ∃ c ∈ text.toList, Text.isBlankChar c = false := by
  simp [Text.isBlank]

theorem wellFormed_iff {flow : Flow} : flow.WellFormed ↔ flow.validate = .ok () := by
  rw [validate_eq_ok, isBlank_iff]
  constructor
  · rintro ⟨named, identified, distinct, attempted, reachable, unnested⟩
    refine ⟨named, fun n hn => ?_, unnested, distinct, fun _ _ => List.not_mem_nil⟩
    exact sound_iff.mpr ⟨identified n hn, attempted n hn, reachable n hn⟩
  · rintro ⟨named, sound, allowed, distinct, -⟩
    have hsound (n : Step) (hn : n ∈ flow.nodes) := sound_iff.mp (sound n hn)
    exact ⟨named, fun n hn => (hsound n hn).1, distinct, fun n hn => (hsound n hn).2.1,
      fun n hn => (hsound n hn).2.2, allowed⟩

theorem WellFormed.stepCount_eq {flow : Flow} (h : flow.WellFormed) :
    flow.stepCount = (flow.nodes.map Step.id).toFinset.card := by
  rw [List.toFinset_card_of_nodup h.distinct, List.length_map, stepCount]

theorem WellFormed.eq_of_id_eq {flow : Flow} (h : flow.WellFormed) {n m : Step}
    (hn : n ∈ flow.nodes) (hm : m ∈ flow.nodes) (hid : m.id = n.id) : m = n :=
  List.inj_on_of_nodup_map h.distinct hm hn hid

end Flow
end FlowEngine
