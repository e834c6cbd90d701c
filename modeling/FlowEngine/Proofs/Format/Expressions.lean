import FlowEngine.Failure
import FlowEngine.Expr.Basic
import FlowEngine.Proofs.Format.Fields

/-!
# Expressions and failures are read back

Each constructor is read by the branch of its tag, field by field; subexpressions and causes are
read back by induction on what is written.
-/
namespace FlowEngine
open Json

theorem UnaryOp.inverts (op : UnaryOp) : Inverts ofJson? toJson op := by
  cases op <;> exact ⟨rfl, nofun⟩

theorem BinaryOp.inverts (op : BinaryOp) : Inverts ofJson? toJson op := by
  cases op <;> exact ⟨rfl, nofun⟩

theorem ErrorKind.inverts (k : ErrorKind) : Inverts ofJson? toJson k := by
  cases k <;> exact ⟨rfl, nofun⟩

namespace Expr

def fieldToJson (f : String × Expr) : Json := .arr [.str f.1, f.2.toJson]

def fieldOfJson? : Json → Option (String × Expr)
  | .arr [.str name, value] => (ofJson? value).map fun e => (name, e)
  | _ => none

theorem itemsToJson_eq (items : List Expr) : itemsToJson items = items.map toJson := by
  induction items with
  | nil => rfl
  | cons e rest ih => rw [itemsToJson, ih, List.map_cons]

theorem fieldsToJson_eq (fields : List (String × Expr)) :
    fieldsToJson fields = fields.map fieldToJson := by
  induction fields with
  | nil => rfl
  | cons f rest ih => rw [fieldsToJson, ih, List.map_cons, fieldToJson]

theorem inverts_field {f : String × Expr} (h : Inverts ofJson? toJson f.2) :
    Inverts fieldOfJson? fieldToJson f where
  read_write := by
    rw [fieldToJson, fieldOfJson?, h.read_write]
    rfl
  not_null := nofun

mutual
theorem inverts : ∀ e : Expr, Inverts ofJson? toJson e
  | literal value => by
    refine ⟨?_, nofun⟩
    rw [toJson, ofJson?]
    have hf {k w} := @field?_object k w [("type", .str "literal"), ("value", value)] (by simp)
    have htag := (Inverts.text "literal").required (hf (k := "type") (by simp))
    have hvalue := hf (k := "value") (w := value) (by simp)
    simp only [htag, hvalue, Option.bind_eq_bind, Option.bind_some]
    rfl
  | var path => by
    refine ⟨?_, nofun⟩
    rw [toJson, ofJson?]
    have hf {k w} := @field?_object k w [("type", .str "var"), ("path", .str path)] (by simp)
    have htag := (Inverts.text "var").required (hf (k := "type") (by simp))
    have hpath := (Inverts.text path).required (hf (k := "path") (by simp))
    simp only [htag, hpath, Option.bind_eq_bind, Option.bind_some]
    rfl
  | unary op operand => by
    refine ⟨?_, nofun⟩
    rw [toJson, ofJson?]
    have hf {k w} := @field?_object k w [("type", .str "unary"), ("op", op.toJson),
      ("operand", operand.toJson)] (by simp)
    have htag := (Inverts.text "unary").required (hf (k := "type") (by simp))
    have hop := op.inverts.required (hf (k := "op") (by simp))
    have hoperand := child?_of_field? (hf (k := "operand") (w := operand.toJson) (by simp))
    simp only [htag, hop, hoperand, (inverts operand).read_write, Option.bind_eq_bind,
      Option.bind_some]
    rfl
  | binary op left right => by
    refine ⟨?_, nofun⟩
    rw [toJson, ofJson?]
    have hf {k w} := @field?_object k w [("type", .str "binary"), ("op", op.toJson),
      ("left", left.toJson), ("right", right.toJson)] (by simp)
    have htag := (Inverts.text "binary").required (hf (k := "type") (by simp))
    have hop := op.inverts.required (hf (k := "op") (by simp))
    have hleft := child?_of_field? (hf (k := "left") (w := left.toJson) (by simp))
    have hright := child?_of_field? (hf (k := "right") (w := right.toJson) (by simp))
    simp only [htag, hop, hleft, hright, (inverts left).read_write, (inverts right).read_write,
      Option.bind_eq_bind, Option.bind_some]
    rfl
  | list items => by
    refine ⟨?_, nofun⟩
    rw [toJson, ofJson?, itemsToJson_eq]
    have hf {k w} := @field?_object k w [("type", .str "list"),
      ("items", .arr (items.map toJson))] (by simp)
    have htag := (Inverts.text "list").required (hf (k := "type") (by simp))
    have hitems := child?_of_field? (hf (k := "items") (w := .arr (items.map toJson)) (by simp))
    obtain ⟨children, hchildren, hread⟩ :=
      exists_childItems? (Inverts.list (inverts_items items)).read_write
    simp only [htag, hitems, hchildren, hread, Option.bind_eq_bind, Option.bind_some]
    rfl
  | object fields => by
    refine ⟨?_, nofun⟩
    rw [toJson, ofJson?, fieldsToJson_eq]
    have hf {k w} := @field?_object k w [("type", .str "object"),
      ("fields", .arr (fields.map fieldToJson))] (by simp)
    have htag := (Inverts.text "object").required (hf (k := "type") (by simp))
    have hfields :=
      child?_of_field? (hf (k := "fields") (w := .arr (fields.map fieldToJson)) (by simp))
    obtain ⟨children, hchildren, hread⟩ := exists_childItems?
      (Inverts.list fun f hmem => inverts_field (inverts_fields fields f hmem)).read_write
    simp only [htag, hfields, hchildren, Option.bind_eq_bind, Option.bind_some]
    refine (congrArg (Option.bind · _) (?_ : _ = some fields)).trans rfl
    rw [← hread]
    congr 1
    funext pair
    rw [fieldOfJson?.eq_def]
    split <;> rename_i heq
    · rw [heq]
    · split
      · rename_i heq'
        exact (heq _ _ heq').elim
      · rfl
  | query expression => by
    refine ⟨?_, nofun⟩
    rw [toJson, ofJson?]
    have hf {k w} := @field?_object k w [("type", .str "query"),
      ("expression", .str expression)] (by simp)
    have htag := (Inverts.text "query").required (hf (k := "type") (by simp))
    have hexpression := (Inverts.text expression).required (hf (k := "expression") (by simp))
    simp only [htag, hexpression, Option.bind_eq_bind, Option.bind_some]
    rfl

theorem inverts_items : ∀ items : List Expr, ∀ e ∈ items, Inverts ofJson? toJson e
  | e :: _, _, .head _ => inverts e
  | _ :: rest, _, .tail _ h => inverts_items rest _ h

theorem inverts_fields : ∀ fields : List (String × Expr), ∀ f ∈ fields,
    Inverts ofJson? toJson f.2
  | (_, e) :: _, _, .head _ => inverts e
  | _ :: rest, _, .tail _ h => inverts_fields rest _ h
end

end Expr

namespace Failure

theorem toJson_eq (f : Failure) : f.toJson = Json.record [
    ("kind", some f.kind.toJson), ("message", some (.str f.message)),
    ("step_id", f.stepId.map .str), ("is_rollback", some (.bool f.isRollback)),
    ("cause", f.cause.map toJson)] := by
  obtain ⟨kind, message, stepId, isRollback, cause⟩ := f
  cases cause <;> rw [toJson.eq_def] <;> rfl

theorem inverts_of_cause (f : Failure) (h : ∀ c ∈ f.cause, Inverts ofJson? toJson c) :
    Inverts ofJson? toJson f := by
  constructor
  · rw [toJson_eq, ofJson?]
    have hf {k w} := @field?_record k
      [("kind", some f.kind.toJson), ("message", some (.str f.message)),
        ("step_id", f.stepId.map .str), ("is_rollback", some (.bool f.isRollback)),
        ("cause", f.cause.map toJson)] w (by simp)
    have hkind := f.kind.inverts.required (hf (k := "kind") (by simp))
    have hmessage := (Inverts.text f.message).required (hf (k := "message") (by simp))
    have hstep := Inverts.optional (o := f.stepId) (fun s _ => .text s)
      (hf (k := "step_id") (by simp))
    have hrollback :=
      (Inverts.flag f.isRollback).withDefault (hf (k := "is_rollback") (by simp)) false
    have hcause := hf (k := "cause") (w := f.cause.map toJson) (by simp)
    simp only [hkind, hmessage, hstep, hrollback, Option.bind_eq_bind, Option.bind_some]
    obtain ⟨kind, message, stepId, isRollback, _ | cause⟩ := f
    · rw [child?_of_missing hcause]
      rfl
    · obtain ⟨hread, hnull⟩ := h cause rfl
      rw [child?_of_field? hcause]
      simp only [hread, Option.bind_some]
      rfl
  · rw [toJson_eq]
    exact Json.noConfusion

theorem inverts : ∀ f : Failure, Inverts ofJson? toJson f
  | ⟨_, _, _, _, none⟩ => inverts_of_cause _ nofun
  | ⟨_, _, _, _, some cause⟩ => inverts_of_cause _ fun _ h => Option.some.inj h ▸ inverts cause

end Failure
end FlowEngine
