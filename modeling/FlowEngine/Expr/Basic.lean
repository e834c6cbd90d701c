import FlowEngine.Json.Decode

/-!
# Expressions

The expressions of a flow, with the JSON form that flows are written in.
-/
namespace FlowEngine

inductive UnaryOp where
  | not
  | neg
deriving DecidableEq, Repr

inductive BinaryOp where
  | add
  | sub
  | mul
  | div
  | mod
  | eq
  | ne
  | lt
  | le
  | gt
  | ge
  | and
  | or
  | within
deriving DecidableEq, Repr

namespace UnaryOp

def all : List UnaryOp := [not, neg]

def name : UnaryOp → String
  | not => "not"
  | neg => "neg"

def toJson (op : UnaryOp) : Json := .str op.name

def ofJson? (v : Json) : Option UnaryOp := v.asTag?.bind fun s => all.find? fun op => op.name = s

end UnaryOp

namespace BinaryOp

def all : List BinaryOp := [add, sub, mul, div, mod, eq, ne, lt, le, gt, ge, and, or, within]

def name : BinaryOp → String
  | add => "add"
  | sub => "sub"
  | mul => "mul"
  | div => "div"
  | mod => "mod"
  | eq => "eq"
  | ne => "ne"
  | lt => "lt"
  | le => "le"
  | gt => "gt"
  | ge => "ge"
  | and => "and"
  | or => "or"
  | within => "in"

def label (op : BinaryOp) : String := op.name.capitalize

def toJson (op : BinaryOp) : Json := .str op.name

def ofJson? (v : Json) : Option BinaryOp := v.asTag?.bind fun s => all.find? fun op => op.name = s

end BinaryOp

inductive Expr where
  | literal (value : Json)
  | var (path : String)
  | unary (op : UnaryOp) (operand : Expr)
  | binary (op : BinaryOp) (left right : Expr)
  | list (items : List Expr)
  /-- Fields in writing order; the last of two with one name counts. -/
  | object (fields : List (String × Expr))
  | query (expression : String)
deriving Inhabited

namespace Expr

mutual
def toJson : Expr → Json
  | literal value => .object [("type", .str "literal"), ("value", value)]
  | var path => .object [("type", .str "var"), ("path", .str path)]
  | unary op operand =>
    .object [("type", .str "unary"), ("op", op.toJson), ("operand", operand.toJson)]
  | binary op left right =>
    .object [("type", .str "binary"), ("op", op.toJson), ("left", left.toJson),
      ("right", right.toJson)]
  | list items => .object [("type", .str "list"), ("items", .arr (itemsToJson items))]
  | object fields => .object [("type", .str "object"), ("fields", .arr (fieldsToJson fields))]
  | query expression => .object [("type", .str "query"), ("expression", .str expression)]

def itemsToJson : List Expr → List Json
  | [] => []
  | e :: rest => e.toJson :: itemsToJson rest

def fieldsToJson : List (String × Expr) → List Json
  | [] => []
  | (name, e) :: rest => .arr [.str name, e.toJson] :: fieldsToJson rest
end

theorem sizeOf_lt_of_eq_pair {v w value : Json} (h : v = .arr [w, value]) :
    sizeOf value < sizeOf v := by
  rw [h]
  simp only [Json.arr.sizeOf_spec, List.cons.sizeOf_spec]
  omega

def ofJson? (v : Json) : Option Expr := do
  match ← v.required "type" Json.asText? with
  | "literal" => return literal (← v.field? "value")
  | "var" => return var (← v.required "path" Json.asText?)
  | "unary" =>
    let op ← v.required "op" UnaryOp.ofJson?
    let ⟨operand, _⟩ ← v.child? "operand"
    return unary op (← ofJson? operand)
  | "binary" =>
    let op ← v.required "op" BinaryOp.ofJson?
    let ⟨left, _⟩ ← v.child? "left"
    let ⟨right, _⟩ ← v.child? "right"
    return binary op (← ofJson? left) (← ofJson? right)
  | "list" =>
    let child ← v.child? "items"
    let items ← child.1.childItems?
    return list (← items.mapM fun item =>
      have := child.2
      have := item.2
      ofJson? item.1)
  | "object" =>
    let child ← v.child? "fields"
    let pairs ← child.1.childItems?
    return object (← pairs.mapM fun pair =>
      have := child.2
      have := pair.2
      match h : pair.1 with
      | .arr [.str name, value] =>
        have := sizeOf_lt_of_eq_pair h
        (ofJson? value).map fun e => (name, e)
      | _ => none)
  | "query" => return query (← v.required "expression" Json.asText?)
  | _ => none
termination_by sizeOf v

end Expr
end FlowEngine
