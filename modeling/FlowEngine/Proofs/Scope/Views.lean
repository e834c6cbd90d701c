import FlowEngine.Proofs.Format.Fields
import FlowEngine.Proofs.Json.Tables
import FlowEngine.Proofs.Scope.Frames

/-!
# The two views of a scope chain

A name is looked up from the innermost frame outwards; the object that queries see is put together
from the flow scope inwards. No frame that operations build binds a name twice, so that both ways
give every name the same value, and expressions depend on nothing but what names resolve to. An
assignment binds its name in one frame and changes neither another name nor another frame.
-/
namespace FlowEngine

namespace Fields

variable {α : Type}

theorem get?_insertAll_of_ascending {added : List (String × α)}
    (h : (added.map Prod.fst).Pairwise (· < ·)) (key : String) (fields : List (String × α)) :
    get? key (insertAll fields added) = (get? key added).or (get? key fields) := by
  cases hget : get? key added with
  | none => exact get?_insertAll_of_fresh (not_mem_of_get? hget) fields
  | some a => exact get?_insertAll_of_mem (h.imp String.ne_of_lt) (mem_of_get? hget) fields

end Fields

namespace Scope

variable {s s' : Scope} {name : String} {v : Json}

/-! ## What operations build -/

/-- One operation on a scope chain. An operation that fails changes nothing, and a copy is a scope
chain of its own. -/
inductive Changes (s : Scope) : Scope → Prop where
  | push (kind : ScopeKind) : Changes s (s.push kind)
  | pop {s' : Scope} (h : s.pop = .ok s') : Changes s s'
  | leave : Changes s s.leave
  | fork (kind : ScopeKind) : Changes s (s.fork kind)
  | declare {kind : ScopeKind} {name : String} {value : Json} {s' : Scope}
      (h : s.declare kind name value = .ok s') : Changes s s'
  | declareLocal (name : String) (value : Json) : Changes s (s.declareLocal name value)
  | assign (name : String) (value : Json) : Changes s (s.assign name value)
  | setStateField (field : String) (value : Json) : Changes s (s.setStateField field value)
  | recordOutput (id : String) (output : Json) : Changes s (s.recordOutput id output)
  | bindLoop {binding : LoopBinding} {item : Json} {bindings : List Control.Binding}
      (h : Control.loopBindings binding item = .ok bindings) :
      Changes s (Control.declareAll bindings s)

/-- The scope chains that operations build on the inputs of a flow. -/
inductive Built : Scope → Prop where
  | start (inputs : List (String × Json)) : Built (ofBindings inputs)
  | change {s s' : Scope} (h : Built s) (hchanges : s.Changes s') : Built s'

def Ascending (s : Scope) : Prop := ∀ f ∈ s.frames, (f.bindings.map Prod.fst).Pairwise (· < ·)

theorem ascending_ofBindings (inputs : List (String × Json)) : (ofBindings inputs).Ascending := by
  intro f hf
  rw [List.mem_singleton.mp hf]
  exact Fields.ascending_insertAll (Fields.ascending_ofList _) inputs

theorem Writes.ascending (hw : s.Writes name v s') (h : s.Ascending) : s'.Ascending := by
  obtain ⟨k, f, hf, hset⟩ := hw
  intro g hg
  rw [hset] at hg
  rcases List.mem_or_eq_of_mem_set hg with hg | rfl
  · exact h g hg
  · exact Fields.ascending_insert (h f (List.mem_of_getElem? hf)) name v

namespace Ascending

variable (h : s.Ascending)
include h

theorem push (kind : ScopeKind) : (s.push kind).Ascending := by
  intro f hf
  rcases List.mem_cons.mp hf with rfl | hf
  · exact .nil
  · exact h f hf

theorem leave : s.leave.Ascending := by
  intro f hf
  rcases List.mem_append.mp hf with hinner | hflow
  · exact h f (List.mem_append_left _ (List.mem_of_mem_drop hinner))
  · exact h f (List.mem_append_right _ hflow)

theorem declareAll (bindings : List Control.Binding) :
    (Control.declareAll bindings s).Ascending := by
  induction bindings generalizing s with
  | nil => exact h
  | cons b rest ih => exact ih ((s.writes_declareLocal b.1 b.2).ascending h)

end Ascending

theorem pop_eq_leave (h : s.pop = .ok s') : s' = s.leave := by
  obtain ⟨inner, flow⟩ := s
  cases inner with
  | nil => cases h
  | cons f rest =>
      cases h
      rfl

theorem Changes.ascending (hc : s.Changes s') (h : s.Ascending) : s'.Ascending := by
  cases hc with
  | push kind => exact h.push kind
  | pop hpop => exact pop_eq_leave hpop ▸ h.leave
  | leave => exact h.leave
  | fork kind => exact h.push kind
  | declare hdeclare => exact (writes_declare hdeclare).ascending h
  | declareLocal name value => exact (s.writes_declareLocal name value).ascending h
  | assign name value => exact (s.writes_assign name value).ascending h
  | setStateField field value => exact (s.writes_flow Target.stateName _).ascending h
  | recordOutput id output => exact (s.writes_flow stepName _).ascending h
  | bindLoop _ => exact h.declareAll _

theorem Built.ascending (h : s.Built) : s.Ascending := by
  induction h with
  | start inputs => exact ascending_ofBindings inputs
  | change _ hchanges ih => exact hchanges.ascending ih

/-! ## The views -/

theorem resolve_eq_ok_iff : s.resolve name = .ok v ↔ s.lookup? name = some v := by
  unfold resolve
  cases s.lookup? name <;> simp

theorem isBound_eq (name : String) (s : Scope) : s.isBound name = (s.lookup? name).isSome := by
  rw [Bool.eq_iff_iff, isBound, lookup?, List.any_eq_true, List.findSome?_isSome_iff]
  rfl

theorem lookup?_under (name : String) (f : Frame) (s : Scope) :
    (s.under f).lookup? name = (Fields.get? name f.bindings).or (s.lookup? name) := by
  rw [lookup?, lookup?, frames_under, List.findSome?_cons]
  cases Fields.get? name f.bindings <;> rfl

theorem visible_under (f : Frame) (s : Scope) :
    (s.under f).visible = Fields.insertAll s.visible f.bindings := rfl

namespace Ascending

theorem of_under {f : Frame} (h : (s.under f).Ascending) :
    (f.bindings.map Prod.fst).Pairwise (· < ·) ∧ s.Ascending :=
  List.forall_mem_cons.mp h

theorem get?_visible (h : s.Ascending) (name : String) :
    Fields.get? name s.visible = s.lookup? name := by
  obtain ⟨inner, flow⟩ := s
  induction inner with
  | nil => simp [visible, lookup?, frames]
  | cons f rest ih =>
      obtain ⟨hf, hrest⟩ := of_under (s := ⟨rest, flow⟩) h
      change Fields.get? name (under f ⟨rest, flow⟩).visible = (under f ⟨rest, flow⟩).lookup? name
      rw [visible_under, Fields.get?_insertAll_of_ascending hf, ih hrest, lookup?_under]

theorem visible (h : s.Ascending) : (s.visible.map Prod.fst).Pairwise (· < ·) := by
  obtain ⟨inner, flow⟩ := s
  induction inner with
  | nil => exact h ⟨.flow, flow⟩ List.mem_cons_self
  | cons f rest ih =>
      exact Fields.ascending_insertAll (ih (of_under (s := ⟨rest, flow⟩) h).2) f.bindings

theorem visible_eq (h : s.Ascending) (h' : s'.Ascending)
    (hresolve : ∀ name, s'.resolve name = s.resolve name) : s'.visible = s.visible := by
  refine Fields.eq_of_get? h'.visible h.visible fun name => Option.ext fun v => ?_
  rw [h'.get?_visible, h.get?_visible, ← resolve_eq_ok_iff, ← resolve_eq_ok_iff, hresolve]

end Ascending

theorem resolvePath_congr (hresolve : ∀ name, s'.resolve name = s.resolve name) (path : String) :
    s'.resolvePath path = s.resolvePath path := by
  unfold resolvePath
  simp only [hresolve]

end Scope

/-! ## Expressions -/

namespace Expr

variable {s s' : Scope}

mutual
/-- An expression depends on a scope chain only through its two views. -/
theorem eval_congr (hresolve : ∀ name, s'.resolve name = s.resolve name)
    (hvisible : s'.visible = s.visible) : ∀ e : Expr, e.eval s' = e.eval s
  | literal _ => by rw [eval, eval]
  | var path => by rw [eval, eval, Scope.resolvePath_congr hresolve path]
  | unary op operand => by rw [eval, eval, eval_congr hresolve hvisible operand]
  | binary op left right => by
      rw [eval, eval, eval_congr hresolve hvisible left, eval_congr hresolve hvisible right]
  | list items => by rw [eval, eval, evalItems_congr hresolve hvisible items]
  | object fields => by rw [eval, eval, evalFields_congr hresolve hvisible fields]
  | query expression => by rw [eval, eval, hvisible]

theorem evalItems_congr (hresolve : ∀ name, s'.resolve name = s.resolve name)
    (hvisible : s'.visible = s.visible) : ∀ items : List Expr, evalItems items s' = evalItems items s
  | [] => by rw [evalItems, evalItems]
  | e :: rest => by
      rw [evalItems, evalItems, eval_congr hresolve hvisible e, evalItems_congr hresolve hvisible rest]

theorem evalFields_congr (hresolve : ∀ name, s'.resolve name = s.resolve name)
    (hvisible : s'.visible = s.visible) :
    ∀ fields : List (String × Expr), evalFields fields s' = evalFields fields s
  | [] => by rw [evalFields, evalFields]
  | (_, e) :: rest => by
      rw [evalFields, evalFields, eval_congr hresolve hvisible e,
        evalFields_congr hresolve hvisible rest]
end

end Expr

/-! ## Agreement -/

namespace Scope

variable {s s' : Scope} {name : String} {v : Json}

/-- The object that queries see and the lookup of names tell the same of a scope chain. -/
structure ViewsAgree (s : Scope) : Prop where
  /-- The object has each of its names once, in their order. -/
  ascending : (s.visible.map Prod.fst).Pairwise (· < ·)
  bound (name : String) : Fields.has name s.visible = s.isBound name
  resolved (name : String) (v : Json) : Fields.get? name s.visible = some v ↔ s.resolve name = .ok v

/-- A name has got a value, and nothing else has changed. -/
structure Assigned (name : String) (v : Json) (s s' : Scope) : Prop where
  resolves : s'.resolve name = .ok v
  others {other : String} : other ≠ name → s'.resolve other = s.resolve other
  /-- Every frame binds the other names as before, also those that are shadowed. -/
  shadowed {other : String} : other ≠ name →
    (s'.frames.map fun f => Fields.get? other f.bindings) =
      s.frames.map fun f => Fields.get? other f.bindings
  /-- One frame is written: the innermost one that binds the name, or the innermost one of all when
  none does. -/
  frame : ∃ k f, s.frames[k]? = some f ∧ s'.frames = s.frames.set k (f.bind name v) ∧
    (f.binds name = true ∨ k = 0 ∧ s.isBound name = false) ∧
    ∀ i < k, ∀ g, s.frames[i]? = some g → g.binds name = false

theorem Ascending.viewsAgree (h : s.Ascending) : s.ViewsAgree where
  ascending := h.visible
  bound name := by rw [Fields.has, h.get?_visible, isBound_eq]
  resolved name v := by rw [h.get?_visible, resolve_eq_ok_iff]

theorem assigned_assign (name : String) (v : Json) (s : Scope) :
    Assigned name v s (s.assign name v) where
  resolves := resolve_eq_ok_iff.mpr (s.lookup?_assign_self name v)
  others hne := by rw [resolve, resolve, (s.writes_assign name v).lookup?_eq hne]
  shadowed hne := (s.writes_assign name v).map_frames
    fun f => Fields.get?_insert_of_ne v f.bindings hne
  frame := s.frames_assign name v

/-- In every scope chain that operations build, queries see exactly the names that resolve, with the
same values, so that all expressions agree on two chains in which every name resolves to the same. An
assignment gives its name the value, in the one frame where it is bound, and changes nothing else. -/
theorem views_agree (h : s.Built) : s.ViewsAgree ∧
    (∀ s' : Scope, s'.Built → (∀ name, s'.resolve name = s.resolve name) →
      ∀ e : Expr, e.eval s' = e.eval s) ∧
    ∀ name v, Assigned name v s (s.assign name v) :=
  ⟨h.ascending.viewsAgree, fun _ h' hresolve =>
    Expr.eval_congr hresolve (h.ascending.visible_eq h'.ascending hresolve),
    fun name v => s.assigned_assign name v⟩

/-- A name is bound in the flow scope and again in an inner frame, and a copy is made. -/
theorem views_agree_shadowed : ∃ s : Scope, s.Built ∧
    Fields.get? "x" s.flow = some (.str "outer") ∧
    s.resolve "x" = .ok (.str "inner") ∧ Fields.get? "x" s.visible = some (.str "inner") ∧
    (∀ e : Expr, e.eval (s.fork .loopIteration) = e.eval s) ∧
    Assigned "x" (.str "new") s (s.assign "x" (.str "new")) := by
  let s := ((ofBindings [("x", .str "outer")]).push .step).declareLocal "x" (.str "inner")
  have hs : s.Built := .change (.change (.start _) (.push .step)) (.declareLocal "x" (.str "inner"))
  have hresolve : s.resolve "x" = .ok (.str "inner") := rfl
  obtain ⟨hviews, hexpr, hassigned⟩ := views_agree hs
  exact ⟨s, hs, rfl, hresolve, (hviews.resolved _ _).mpr hresolve,
    hexpr _ (hs.change (.fork .loopIteration)) fun _ => rfl, hassigned "x" (.str "new")⟩

end Scope
end FlowEngine
