import FlowEngine.Json.Printer
import FlowEngine.Query.Token

/-!
# Queries

The structure of a query over a JSON value. Every node knows the byte offset at
which it was written, because the text of an expression reference shows it.
-/
namespace FlowEngine.Query

inductive Comparator where
  | eq
  | ne
  | lt
  | le
  | gt
  | ge
deriving DecidableEq

inductive Node where
  | current (offset : Nat)
  | field (offset : Nat) (name : String)
  | literal (offset : Nat) (value : Json)
  | index (offset : Nat) (position : Int)
  | slice (offset : Nat) (start stop : Option Int) (step : Int)
  | chain (offset : Nat) (first second : Node)
  /-- A query applied to every item of a list, without the null results. -/
  | project (offset : Nat) (items each : Node)
  | values (offset : Nat) (subject : Node)
  | flatten (offset : Nat) (subject : Node)
  | condition (offset : Nat) (test result : Node)
  | compare (offset : Nat) (op : Comparator) (left right : Node)
  | and (offset : Nat) (left right : Node)
  | or (offset : Nat) (left right : Node)
  | not (offset : Nat) (operand : Node)
  | list (offset : Nat) (items : List Node)
  | object (offset : Nat) (fields : List (String × Node))
  | call (offset : Nat) (function : String) (args : List Node)
  | reference (offset : Nat) (body : Node)
deriving Inhabited

inductive Fault where
  | unreadable
  | failed
deriving DecidableEq

def Fault.message : Fault → String
  | unreadable => "Failed to compile JMESPath expression"
  | failed => "Failed to evaluate JMESPath expression"

def quoted (s : String) : String :=
  String.ofList ('"' :: (s.toList.flatMap fun c =>
    if c = '"' then ['\\', '"']
    else if c = '\\' then ['\\', '\\']
    else if c = '\n' then ['\\', 'n']
    else if c = '\t' then ['\\', 't']
    else if c = '\r' then ['\\', 'r']
    else [c]) ++ ['"'])

def titled (title : String) (parts : List (String × String)) : String :=
  title ++ " \x7b " ++ ", ".intercalate (parts.map fun (k, v) => k ++ ": " ++ v) ++ " \x7d"

def optionText : Option Int → String
  | some i => s!"Some({i})"
  | none => "None"

def Comparator.title : Comparator → String
  | eq => "Equal"
  | ne => "NotEqual"
  | lt => "LessThan"
  | le => "LessThanEqual"
  | gt => "GreaterThan"
  | ge => "GreaterThanEqual"

mutual
def literalText : Json → String
  | .null => "Null"
  | .bool b => s!"Bool({b})"
  | .num n => "Number(Number(" ++ n.render ++ "))"
  | .str s => "String(" ++ quoted s ++ ")"
  | .arr items => "Array([" ++ ", ".intercalate (literalTexts items) ++ "])"
  | .obj fields => "Object(\x7b" ++ ", ".intercalate (literalFields fields) ++ "\x7d)"

def literalTexts : List Json → List String
  | [] => []
  | v :: rest => literalText v :: literalTexts rest

def literalFields : List (String × Json) → List String
  | [] => []
  | (k, v) :: rest => (quoted k ++ ": " ++ literalText v) :: literalFields rest
end

mutual
def Node.text : Node → String
  | .current o => titled "Identity" [("offset", toString o)]
  | .field o name => titled "Field" [("offset", toString o), ("name", quoted name)]
  | .literal o v => titled "Literal" [("offset", toString o), ("value", literalText v)]
  | .index o i => titled "Index" [("offset", toString o), ("idx", toString i)]
  | .slice o start stop step =>
    titled "Slice" [("offset", toString o), ("start", optionText start),
      ("stop", optionText stop), ("step", toString step)]
  | .chain o a b =>
    titled "Subexpr" [("offset", toString o), ("lhs", a.text), ("rhs", b.text)]
  | .project o a b =>
    titled "Projection" [("offset", toString o), ("lhs", a.text), ("rhs", b.text)]
  | .values o a => titled "ObjectValues" [("offset", toString o), ("node", a.text)]
  | .flatten o a => titled "Flatten" [("offset", toString o), ("node", a.text)]
  | .condition o a b =>
    titled "Condition" [("offset", toString o), ("predicate", a.text), ("then", b.text)]
  | .compare o op a b =>
    titled "Comparison" [("offset", toString o), ("comparator", op.title), ("lhs", a.text),
      ("rhs", b.text)]
  | .and o a b => titled "And" [("offset", toString o), ("lhs", a.text), ("rhs", b.text)]
  | .or o a b => titled "Or" [("offset", toString o), ("lhs", a.text), ("rhs", b.text)]
  | .not o a => titled "Not" [("offset", toString o), ("node", a.text)]
  | .list o items =>
    titled "MultiList" [("offset", toString o),
      ("elements", "[" ++ ", ".intercalate (itemTexts items) ++ "]")]
  | .object o fields =>
    titled "MultiHash" [("offset", toString o),
      ("elements", "[" ++ ", ".intercalate (fieldTexts fields) ++ "]")]
  | .call o name args =>
    titled "Function" [("offset", toString o), ("name", quoted name),
      ("args", "[" ++ ", ".intercalate (itemTexts args) ++ "]")]
  | .reference o a => titled "Expref" [("offset", toString o), ("ast", a.text)]

def itemTexts : List Node → List String
  | [] => []
  | n :: rest => n.text :: itemTexts rest

def fieldTexts : List (String × Node) → List String
  | [] => []
  | (k, n) :: rest =>
    titled "KeyValuePair" [("key", quoted k), ("value", n.text)] :: fieldTexts rest
end

end FlowEngine.Query
