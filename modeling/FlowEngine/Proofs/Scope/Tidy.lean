import FlowEngine.Proofs.Format.Parts
import FlowEngine.Proofs.Query.Tidy
import FlowEngine.Proofs.Scope.Views

/-!
# Tidy scope chains

Every binding of a tidy scope chain has a tidy value, and each frame has its names in order. Whatever
is read from such a chain is tidy, and so is the value of an expression whose literals are tidy; to
write a tidy value keeps the chain tidy.
-/
namespace FlowEngine

namespace Scope

variable {s s' : Scope} {name : String} {v : Json} {inputs : List (String × Json)}

def Tidy (s : Scope) : Prop := ∀ f ∈ s.frames, Fields.Tidy f.bindings

theorem tidy_ofBindings (h : ∀ f ∈ inputs, f.2.Tidy) : (ofBindings inputs).Tidy := by
  have hempty : ∀ f ∈ [(Target.stateName, Json.obj []), (stepName, .obj [])], f.2.Tidy := by
    simp [Fields.Tidy.nil]
  exact List.forall_mem_singleton.mpr ((Fields.Tidy.ofList hempty).insertAll h)

theorem Writes.tidy (hw : s.Writes name v s') (h : s.Tidy) (hv : v.Tidy) : s'.Tidy := by
  obtain ⟨k, f, hf, hset⟩ := hw
  intro g hg
  rw [hset] at hg
  rcases List.mem_or_eq_of_mem_set hg with hg | rfl
  · exact h g hg
  · exact (h f (List.mem_of_getElem? hf)).insert name hv

theorem tidy_child? {segment : List Char} {w : Json} (hv : v.Tidy) (hw : child? segment v = some w) :
    w.Tidy := by
  unfold child? at hw
  split at hw
  · exact (Json.tidy_obj.mp hv).get? hw
  · obtain ⟨i, -, hi⟩ := Option.bind_eq_some_iff.mp hw
    exact Json.tidy_arr.mp hv w (List.mem_of_getElem? hi)
  · cases hw

theorem tidy_follow (hv : v.Tidy) (segments : List (List Char)) : (follow v segments).Tidy := by
  induction segments generalizing v with
  | nil => exact hv
  | cons s rest ih =>
      rw [follow]
      split
      · rename_i w hw
        exact ih (tidy_child? hv hw)
      · exact Json.tidy_null

namespace Tidy

variable (h : s.Tidy)
include h

theorem flow : Fields.Tidy s.flow := h ⟨.flow, s.flow⟩ (List.mem_append_right _ List.mem_cons_self)

theorem push (kind : ScopeKind) : (s.push kind).Tidy := List.forall_mem_cons.mpr ⟨.nil, h⟩

theorem leave : s.leave.Tidy := by
  intro f hf
  rcases List.mem_append.mp hf with hinner | hflow
  · exact h f (List.mem_append_left _ (List.mem_of_mem_drop hinner))
  · exact h f (List.mem_append_right _ hflow)

theorem declareLocal (name : String) (hv : v.Tidy) : (s.declareLocal name v).Tidy :=
  (s.writes_declareLocal name v).tidy h hv

theorem assign (name : String) (hv : v.Tidy) : (s.assign name v).Tidy :=
  (s.writes_assign name v).tidy h hv

theorem declareAll {bindings : List Control.Binding} (hb : ∀ b ∈ bindings, b.2.Tidy) :
    (Control.declareAll bindings s).Tidy := by
  induction bindings generalizing s with
  | nil => exact h
  | cons b rest ih =>
      obtain ⟨hfirst, hrest⟩ := List.forall_mem_cons.mp hb
      exact ih (h.declareLocal b.1 hfirst) hrest

/-- The fields of a flow-wide object. -/
theorem shared (name : String) :
    Fields.Tidy (((Fields.get? name s.flow).bind Json.asFields?).getD []) := by
  cases hfields : (Fields.get? name s.flow).bind Json.asFields? with
  | none => exact .nil
  | some fields =>
      obtain ⟨v, hv, hfields⟩ := Option.bind_eq_some_iff.mp hfields
      exact (h.flow.get? hv).asFields? hfields

theorem setStateField (field : String) (hv : v.Tidy) : (s.setStateField field v).Tidy :=
  (s.writes_flow Target.stateName _).tidy h (Json.tidy_obj.mpr ((h.shared _).insert field hv))

theorem recordOutput (id : String) (hv : v.Tidy) : (s.recordOutput id v).Tidy := by
  have hentry : (Json.obj [("output", v)]).Tidy := Json.tidy_obj.mpr (.singleton _ hv)
  exact (s.writes_flow stepName _).tidy h (Json.tidy_obj.mpr ((h.shared _).insert id hentry))

theorem visible : Fields.Tidy s.visible := by
  obtain ⟨inner, flow⟩ := s
  induction inner with
  | nil => exact h.flow
  | cons f rest ih =>
      obtain ⟨hf, hrest⟩ := List.forall_mem_cons.mp (show (under f ⟨rest, flow⟩).Tidy from h)
      exact (ih hrest).insertAll fun b hb => hf.each hb

theorem ensures_resolve (name : String) : Ensures Json.Tidy (s.resolve name) := by
  intro v hv
  obtain ⟨f, hf, hget⟩ := List.exists_of_findSome?_eq_some (resolve_eq_ok_iff.mp hv)
  exact (h f hf).get? hget

theorem ensures_resolvePath (path : String) : Ensures Json.Tidy (s.resolvePath path) := by
  unfold resolvePath
  split
  · exact .error _
  · exact .error _
  · exact (h.ensures_resolve _).bind fun v hv => .ok (tidy_follow hv _)

end Tidy
end Scope

/-! ## Expressions -/

namespace Expr

inductive Tidy : Expr → Prop where
  | literal {v : Json} (hv : v.Tidy) : Tidy (.literal v)
  | var (path : String) : Tidy (.var path)
  | unary (op : UnaryOp) {a : Expr} (ha : Tidy a) : Tidy (.unary op a)
  | binary (op : BinaryOp) {a b : Expr} (ha : Tidy a) (hb : Tidy b) : Tidy (.binary op a b)
  | list {items : List Expr} (each : ∀ e ∈ items, Tidy e) : Tidy (.list items)
  | object {fields : List (String × Expr)} (each : ∀ f ∈ fields, Tidy f.2) : Tidy (.object fields)
  | query (expression : String) : Tidy (.query expression)

variable {a b : Json} {s : Scope}

theorem ensures_signed (i : Int) : Ensures Json.Tidy (signed i) := by
  unfold signed
  split
  · exact .ok (Json.tidy_num _)
  · exact .error _

theorem ensures_integerArith (op : BinaryOp) (i j : Int) (mismatch : Fault) :
    Ensures Json.Tidy (integerArith op i j mismatch) := by
  unfold integerArith
  cases op with
  | add | sub | mul => exact ensures_signed _
  | div =>
      dsimp only
      split
      · exact .error _
      · split
        · exact .error _
        · split
          · exact ensures_signed _
          · exact .ok (Json.tidy_ofFloat _)
  | mod =>
      dsimp only
      split
      · exact .error _
      · split
        · exact .error _
        · exact ensures_signed _
  | _ => exact .error _

theorem ensures_floatArith (op : BinaryOp) (x y : Float) (mismatch : Fault) :
    Ensures Json.Tidy (floatArith op x y mismatch) := by
  unfold floatArith
  cases op with
  | add | sub | mul => exact .ok (Json.tidy_ofFloat _)
  | div | mod =>
      dsimp only
      split
      · exact .error _
      · exact .ok (Json.tidy_ofFloat _)
  | _ => exact .error _

theorem ensures_arith (op : BinaryOp) (a b : Json) : Ensures Json.Tidy (arith op a b) := by
  unfold arith
  dsimp only
  split
  · exact ensures_integerArith _ _ _ _
  · split
    · exact ensures_floatArith _ _ _ _
    · exact .error _

theorem ensures_plus (ha : a.Tidy) (hb : b.Tidy) : Ensures Json.Tidy (plus a b) := by
  unfold plus
  split
  · exact .ok (Json.tidy_str _)
  · exact .ok (Json.tidy_str _)
  · exact .ok (Json.tidy_arr.mpr
      (List.forall_mem_append.mpr ⟨Json.tidy_arr.mp ha, Json.tidy_arr.mp hb⟩))
  · exact ensures_arith _ _ _

theorem ensures_ordered (test : Ordering → Bool) (a b : Json) :
    Ensures Json.Tidy (ordered test a b) := by
  unfold ordered
  split
  · exact .ok (Json.tidy_bool _)
  · exact .error _

theorem ensures_member (a b : Json) : Ensures Json.Tidy (member a b) := by
  unfold member
  split
  · exact .ok (Json.tidy_bool _)
  · split <;> exact .ok (Json.tidy_bool _)
  · split
    · exact .ok (Json.tidy_bool _)
    · exact .error _
  · exact .error _

theorem ensures_applyUnary (op : UnaryOp) (a : Json) : Ensures Json.Tidy (applyUnary op a) := by
  unfold applyUnary
  split
  · split
    · exact .ok (Json.tidy_bool _)
    · exact .error _
  · split
    · exact ensures_signed _
    · exact .ok (Json.tidy_ofFloat _)
    · exact .error _

theorem ensures_applyBinary (op : BinaryOp) (ha : a.Tidy) (hb : b.Tidy) :
    Ensures Json.Tidy (applyBinary op a b) := by
  have hbools (f : Bool → Bool → Bool) : Ensures Json.Tidy (do
      return .bool (f (← expectBool op a) (← expectBool op b)) : Except Fault Json) :=
    (Ensures.any _).bind fun x _ => (Ensures.any _).bind fun y _ => .ok (Json.tidy_bool _)
  cases op with
  | add => exact ensures_plus ha hb
  | sub | mul | div | mod => exact ensures_arith _ _ _
  | eq | ne => exact .ok (Json.tidy_bool _)
  | lt | le | gt | ge => exact ensures_ordered _ _ _
  | and | or => exact hbools _
  | within => exact ensures_member _ _

mutual
theorem ensures_eval : ∀ e : Expr, e.Tidy → ∀ s : Scope, s.Tidy → Ensures Json.Tidy (e.eval s)
  | .literal v, .literal hv, s, _ => by
      rw [eval]
      exact .ok hv
  | .var path, _, s, hs => by
      rw [eval]
      split
      · rename_i v hv
        exact .ok (hs.ensures_resolvePath path v hv)
      · exact .error _
  | .unary op a, .unary _ ha, s, hs => by
      rw [eval]
      exact (ensures_eval a ha s hs).bind fun v _ => ensures_applyUnary op v
  | .binary op a b, .binary _ ha hb, s, hs => by
      rw [eval]
      refine (ensures_eval a ha s hs).bind fun v hv => ?_
      have hsecond : Ensures Json.Tidy (do
          return .bool (← expectBool op (← b.eval s)) : Except Fault Json) :=
        (Ensures.any _).bind fun w _ => (Ensures.any _).bind fun t _ => .ok (Json.tidy_bool t)
      split
      · refine (Ensures.any _).bind fun t _ => ?_
        split
        · exact hsecond
        · exact .ok (Json.tidy_bool false)
      · refine (Ensures.any _).bind fun t _ => ?_
        split
        · exact .ok (Json.tidy_bool true)
        · exact hsecond
      · exact (ensures_eval b hb s hs).bind fun w hw => ensures_applyBinary op hv hw
  | .list items, .list hitems, s, hs => by
      rw [eval]
      exact (ensures_evalItems items hitems s hs).bind fun vs hvs => .ok (Json.tidy_arr.mpr hvs)
  | .object fields, .object hfields, s, hs => by
      rw [eval]
      exact (ensures_evalFields fields hfields s hs).bind fun fs hfs => .ok (Json.tidy_object hfs)
  | .query expression, _, s, hs => by
      rw [eval]
      split
      · rename_i v hv
        exact .ok (Query.ensures_run expression (Json.tidy_obj.mpr hs.visible) v hv)
      · exact .error _

theorem ensures_evalItems : ∀ items : List Expr, (∀ e ∈ items, e.Tidy) → ∀ s : Scope, s.Tidy →
    Ensures (∀ v ∈ ·, Json.Tidy v) (evalItems items s)
  | [], _, s, _ => by
      rw [evalItems]
      exact .ok (List.forall_mem_nil _)
  | e :: rest, h, s, hs => by
      obtain ⟨he, hrest⟩ := List.forall_mem_cons.mp h
      rw [evalItems]
      exact (ensures_eval e he s hs).bind fun v hv => (ensures_evalItems rest hrest s hs).bind
        fun vs hvs => .ok (List.forall_mem_cons.mpr ⟨hv, hvs⟩)

theorem ensures_evalFields : ∀ fields : List (String × Expr), (∀ f ∈ fields, f.2.Tidy) →
    ∀ s : Scope, s.Tidy → Ensures (∀ f ∈ ·, Json.Tidy (Prod.snd f)) (evalFields fields s)
  | [], _, s, _ => by
      rw [evalFields]
      exact .ok (List.forall_mem_nil _)
  | (k, e) :: rest, h, s, hs => by
      obtain ⟨he, hrest⟩ := List.forall_mem_cons.mp h
      rw [evalFields]
      exact (ensures_eval e he s hs).bind fun v hv => (ensures_evalFields rest hrest s hs).bind
        fun vs hvs => .ok (List.forall_mem_cons.mpr ⟨hv, hvs⟩)
end

/-- The literals of an expression are read as they stand in a tidy value. -/
theorem tidy_of_ofJson? {v : Json} {e : Expr} (hv : v.Tidy) (h : ofJson? v = some e) : e.Tidy := by
  induction hsize : sizeOf v using Nat.strong_induction_on generalizing v e with
  | _ size ih =>
  subst hsize
  have inner {w : v.Within} {e : Expr} (hw : w.1.Tidy) (he : ofJson? w.1 = some e) : e.Tidy :=
    ih _ w.2 hw he rfl
  rw [ofJson?] at h
  obtain ⟨tag, -, h⟩ := Option.bind_eq_some_iff.mp h
  split at h
  · obtain ⟨w, hw, h⟩ := Option.bind_eq_some_iff.mp h
    cases h
    exact .literal (hv.field? hw)
  · obtain ⟨path, -, h⟩ := Option.bind_eq_some_iff.mp h
    cases h
    exact .var path
  · obtain ⟨op, -, h⟩ := Option.bind_eq_some_iff.mp h
    obtain ⟨operand, hoperand, h⟩ := Option.bind_eq_some_iff.mp h
    obtain ⟨a, ha, h⟩ := Option.bind_eq_some_iff.mp h
    cases h
    exact .unary op (inner (hv.child? hoperand) ha)
  · obtain ⟨op, -, h⟩ := Option.bind_eq_some_iff.mp h
    obtain ⟨left, hleft, h⟩ := Option.bind_eq_some_iff.mp h
    obtain ⟨right, hright, h⟩ := Option.bind_eq_some_iff.mp h
    obtain ⟨a, ha, h⟩ := Option.bind_eq_some_iff.mp h
    obtain ⟨b, hb, h⟩ := Option.bind_eq_some_iff.mp h
    cases h
    exact .binary op (inner (hv.child? hleft) ha) (inner (hv.child? hright) hb)
  · obtain ⟨child, hchild, h⟩ := Option.bind_eq_some_iff.mp h
    obtain ⟨items, hitems, h⟩ := Option.bind_eq_some_iff.mp h
    obtain ⟨es, hes, h⟩ := Option.bind_eq_some_iff.mp h
    cases h
    refine .list fun e he => ?_
    obtain ⟨item, hitem, hread⟩ := exists_of_mapM hes he
    exact inner (w := child.widen item) ((hv.child? hchild).childItems? hitems item hitem) hread
  · obtain ⟨child, hchild, h⟩ := Option.bind_eq_some_iff.mp h
    obtain ⟨pairs, hpairs, h⟩ := Option.bind_eq_some_iff.mp h
    obtain ⟨fs, hfs, h⟩ := Option.bind_eq_some_iff.mp h
    cases h
    refine .object fun f hf => ?_
    obtain ⟨pair, hpair, hread⟩ := exists_of_mapM hfs hf
    have hpair := (hv.child? hchild).childItems? hpairs pair hpair
    split at hread
    · rename_i name w heq
      obtain ⟨e, he, rfl⟩ := Option.map_eq_some_iff.mp hread
      rw [heq] at hpair
      have hw := Json.tidy_arr.mp hpair w (List.mem_cons_of_mem _ List.mem_cons_self)
      exact ih _ ((sizeOf_lt_of_eq_pair heq).trans (child.widen pair).2) hw he rfl
    · cases hread
  · obtain ⟨text, -, h⟩ := Option.bind_eq_some_iff.mp h
    cases h
    exact .query text
  · cases h

end Expr
/-! ## Decisions of control flow -/

namespace Control

variable {v subject item : Json} {s : Scope} {e : Expr}

theorem ensures_evaluate (he : e.Tidy) (hs : s.Tidy) : Ensures Json.Tidy (evaluate e s) :=
  (e.ensures_eval he s hs).mapError _

theorem ensures_collectionItems (hv : v.Tidy) :
    Ensures (∀ w ∈ ·, Json.Tidy w) (collectionItems v) := by
  unfold collectionItems
  split
  · exact .ok (Json.tidy_arr.mp hv)
  · refine .ok fun w hw => ?_
    obtain ⟨f, hf, rfl⟩ := List.mem_map.mp hw
    have hvalue : f.2.Tidy := (Json.tidy_obj.mp hv).each hf
    exact Json.tidy_arr.mpr (List.forall_mem_cons.mpr
      ⟨Json.tidy_str _, List.forall_mem_singleton.mpr hvalue⟩)
  · exact .error _

theorem tidy_takeFields (names : List String) {fields : List (String × Json)} (h : Fields.Tidy fields) :
    ∀ b ∈ loopBindings.takeFields names fields, b.2.Tidy := by
  induction names generalizing fields with
  | nil => exact List.forall_mem_nil _
  | cons name rest ih =>
      rw [loopBindings.takeFields]
      refine List.forall_mem_cons.mpr ⟨?_, ih (h.erase name)⟩
      cases hv : Fields.get? name fields with
      | none => exact Json.tidy_null
      | some v => exact h.get? hv

theorem ensures_loopBindings (binding : LoopBinding) (hitem : item.Tidy) :
    Ensures (∀ b ∈ ·, Json.Tidy (Prod.snd b)) (loopBindings binding item) := by
  unfold loopBindings
  split
  · exact .ok (List.forall_mem_singleton.mpr hitem)
  · split
    · split
      · exact .ok fun b hb => Json.tidy_arr.mp hitem b.2 (List.of_mem_zip hb).2
      · exact .error _
    · exact .ok (tidy_takeFields _ (Json.tidy_obj.mp hitem))
    · exact .error _

theorem tidy_of_accepts? {p : Pattern} {binding : Option Binding} (hsubject : subject.Tidy)
    (h : Pattern.accepts? subject p = some binding) : ∀ b ∈ binding, b.2.Tidy := by
  have hbinds {u : Unwrapped} (hu : subject.unwrapEnvelope? = some u) (bind : Option String) :
      ∀ b ∈ bind.map fun name => (name, u.content), b.2.Tidy := by
    intro b hb
    obtain ⟨name, -, rfl⟩ := Option.map_eq_some_iff.mp hb
    exact hsubject.unwrapEnvelope? hu
  unfold Pattern.accepts? at h
  split at h
  · split at h <;> cases h
    exact fun b hb => absurd hb (Option.not_mem_none b)
  · split at h <;> cases h
    exact hbinds ‹_› _
  · split at h <;> cases h
    exact hbinds ‹_› _

/-- The body that is chosen is one of the bodies, and what it gets bound is tidy. -/
theorem ensures_selectArm {α : Type} {P : α → Prop} {arms : List (Pattern × α)} {otherwise : Option α}
    (hsubject : subject.Tidy) (harms : ∀ arm ∈ arms, P arm.2) (hotherwise : ∀ body ∈ otherwise, P body) :
    Ensures (∀ chosen ∈ ·, P (Prod.fst chosen) ∧ ∀ b ∈ Prod.snd chosen, Json.Tidy (Prod.snd b))
      (selectArm subject arms otherwise) := by
  induction arms with
  | nil =>
      cases otherwise with
      | some body => exact .ok (by simpa using hotherwise)
      | none =>
          rw [selectArm]
          split
          · exact .ok (by simp)
          · exact .error _
  | cons arm rest ih =>
      obtain ⟨p, body⟩ := arm
      obtain ⟨hbody, hrest⟩ := List.forall_mem_cons.mp harms
      rw [selectArm]
      split
      · rename_i binding hbinding
        refine .ok ?_
        rintro _ ⟨⟩
        exact ⟨hbody, tidy_of_accepts? hsubject hbinding⟩
      · exact ih hrest

theorem ensures_selectBranch {α : Type} {P : α → Prop} {branches : List (Expr × α)}
    {otherwise : Option α} (hbranches : ∀ b ∈ branches, P b.2) (hotherwise : ∀ body ∈ otherwise, P body)
    (s : Scope) : Ensures (∀ body ∈ ·, P body) (selectBranch branches otherwise s) := by
  induction branches with
  | nil => exact .ok hotherwise
  | cons b rest ih =>
      obtain ⟨condition, body⟩ := b
      obtain ⟨hbody, hrest⟩ := List.forall_mem_cons.mp hbranches
      rw [selectBranch]
      refine (Ensures.any _).bind fun holds _ => ?_
      split
      · refine .ok ?_
        rintro _ ⟨⟩
        exact hbody
      · exact ih hrest

end Control
end FlowEngine
