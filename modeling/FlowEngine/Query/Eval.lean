import FlowEngine.Query.Parser

/-!
# Evaluating a query

A query maps a JSON value to a JSON value. What is missing is null; only a
function that gets arguments it does not take and a slice of step 0 fail.
-/
namespace FlowEngine.Query

/-- Whether a value counts as true: anything but null, false and what is empty. -/
def truthy : Json → Bool
  | .null => false
  | .bool b => b
  | .num _ => true
  | .str s => !s.isEmpty
  | .arr items => !items.isEmpty
  | .obj fields => !fields.isEmpty

/-- Equality of doubles up to a relative error of one unit in the last place. -/
def closeTo (a b : Float) : Bool :=
  if a == b then true
  else
    let gap := (a - b).abs
    let isNormal := gap.isFinite && Float.ofScientific 22250738585072014 true 324 ≤ gap
    if a == 0 || b == 0 || !isNormal then gap == 0
    else gap / (a.abs + b.abs) < Float.ofScientific 2220446049250313 true 31

mutual
/-- Equality of values; numbers may differ by a rounding error. -/
def sameValue : Json → Json → Bool
  | .null, .null => true
  | .bool a, .bool b => a == b
  | .num a, .num b => closeTo a.toFloat b.toFloat
  | .str a, .str b => a == b
  | .arr a, .arr b => sameItems a b
  | .obj a, .obj b => sameFields a b
  | _, _ => false

def sameItems : List Json → List Json → Bool
  | [], [] => true
  | a :: as, b :: bs => sameValue a b && sameItems as bs
  | _, _ => false

def sameFields : List (String × Json) → List (String × Json) → Bool
  | [], [] => true
  | (k, a) :: as, (l, b) :: bs => k == l && sameValue a b && sameFields as bs
  | _, _ => false
end

/-- The order of two numbers or two texts; all other pairs count as equal. -/
def order : Json → Json → Ordering
  | .num a, .num b =>
    let x := a.toFloat
    let y := b.toFloat
    if x < y then .lt else if y < x then .gt else .eq
  | .str a, .str b => compare a b
  | _, _ => .eq

/-- A comparison; order is defined between numbers only. -/
def Comparator.apply (op : Comparator) (a b : Json) : Json :=
  match op, a, b with
  | .eq, _, _ => .bool (sameValue a b)
  | .ne, _, _ => .bool (!sameValue a b)
  | .lt, .num _, .num _ => .bool (order a b = .lt)
  | .le, .num _, .num _ => .bool (order a b ≠ .gt)
  | .gt, .num _, .num _ => .bool (order a b = .gt)
  | .ge, .num _, .num _ => .bool (order a b ≠ .lt)
  | _, _, _ => .null

/-- The item at a position; a negative one counts from the end. -/
def itemAt (items : List Json) (position : Int) : Json :=
  if 0 ≤ position then items[position.toNat]?.getD .null
  else
    let back := (-position).toNat
    if back ≤ items.length then items[items.length - back]?.getD .null else .null

/-- A slice end moved into the range that a step of its sign can reach. -/
def clampEnd (length : Int) (step i : Int) : Int :=
  if i < 0 then
    let j := i + length
    if 0 ≤ j then j else if step < 0 then -1 else 0
  else if i < length then i
  else if step < 0 then length - 1 else length

/-- The positions from `i` to `stop` by a step; the first argument bounds their number. -/
def positions (stop step : Int) : Nat → Int → List Int
  | 0, _ => []
  | fuel + 1, i =>
    if (0 < step ∧ i < stop) ∨ (step < 0 ∧ stop < i) then i :: positions stop step fuel (i + step)
    else []

def sliceOf (items : List Json) (start stop : Option Int) (step : Int) : List Json :=
  let length : Int := items.length
  let first := match start with
    | some i => clampEnd length step i
    | none => if step < 0 then length - 1 else 0
  let last := match stop with
    | some i => clampEnd length step i
    | none => if step < 0 then -1 else length
  (positions last step items.length first).map fun i => itemAt items i

def flattenItems (items : List Json) : List Json :=
  items.flatMap fun v => match v with
    | .arr inner => inner
    | _ => [v]

/-- An argument of a function: a value, or a query to apply to values. -/
inductive Arg where
  | value (v : Json)
  | reference (apply : Json → Except Fault Json)

/-- The number as a value; a result that is not finite fails. -/
def number? (x : Float) : Except Fault Json :=
  match Number.ofFloat? x with
  | some n => .ok (.num n)
  | none => .error .failed

/-- The numbers of a list that holds nothing else. -/
def numbers? (items : List Json) : Option (List Float) := items.mapM Json.asFloat?

/-- The texts of a list that holds nothing else. -/
def texts? (items : List Json) : Option (List String) := items.mapM Json.asText?

/-- Whether a list holds numbers only or texts only. -/
def comparable (items : List Json) : Bool :=
  (numbers? items).isSome || (texts? items).isSome

def typeName : Json → String
  | .null => "null"
  | .bool _ => "boolean"
  | .num _ => "number"
  | .str _ => "string"
  | .arr _ => "array"
  | .obj _ => "object"

def keysOf (apply : Json → Except Fault Json) (items : List Json) :
    Except Fault (List (Json × Json)) := do
  let keys ← items.mapM apply
  if comparable keys then return items.zip keys else throw .failed

def best (beats : Json → Json → Bool) : List (Json × Json) → Json
  | [] => .null
  | first :: rest =>
    (rest.foldl (fun top next => if beats next.2 top.2 then next else top) first).1

def occursIn (needle : List Char) : List Char → Bool
  | [] => needle.isEmpty
  | c :: rest => needle.isPrefixOf (c :: rest) || occursIn needle rest

def readNumber (s : String) : Json := (Json.parse? s).getD .null

abbrev Builtin := List Arg → Except Fault Json

namespace Builtin

def onNumber (f : Float → Float) : Builtin
  | [.value (.num n)] => number? (f n.toFloat)
  | _ => .error .failed

def onNumbers (f : List Float → Float) : Builtin
  | [.value (.arr items)] =>
    match numbers? items with
    | some xs => number? (f xs)
    | none => .error .failed
  | _ => .error .failed

def contains : Builtin
  | [.value (.arr items), .value v] => .ok (.bool (items.any fun w => sameValue w v))
  | [.value (.str s), .value v] =>
    match v with
    | .str t => .ok (.bool (occursIn t.toList s.toList))
    | _ => .ok (.bool false)
  | _ => .error .failed

/-- A test of the second text against the first one. -/
def onTexts (test : List Char → List Char → Bool) : Builtin
  | [.value (.str s), .value (.str t)] => .ok (.bool (test t.toList s.toList))
  | _ => .error .failed

def join : Builtin
  | [.value (.str glue), .value (.arr items)] =>
    match texts? items with
    | some texts => .ok (.str (glue.intercalate texts))
    | none => .error .failed
  | _ => .error .failed

def keys : Builtin
  | [.value (.obj fields)] => .ok (.arr (fields.map fun (k, _) => .str k))
  | _ => .error .failed

def values : Builtin
  | [.value (.obj fields)] => .ok (.arr (fields.map Prod.snd))
  | _ => .error .failed

def length : Builtin
  | [.value (.arr items)] => .ok (.ofNat items.length)
  | [.value (.obj fields)] => .ok (.ofNat fields.length)
  | [.value (.str s)] => .ok (.ofNat s.length)
  | _ => .error .failed

def map : Builtin
  | [.reference apply, .value (.arr items)] => do return .arr (← items.mapM apply)
  | _ => .error .failed

def extreme (beats : Json → Json → Bool) : Builtin
  | [.value (.arr items)] =>
    if comparable items then .ok (best beats (items.zip items)) else .error .failed
  | _ => .error .failed

def extremeBy (beats : Json → Json → Bool) : Builtin
  | [.value (.arr items), .reference apply] => do return best beats (← keysOf apply items)
  | _ => .error .failed

def sort : Builtin
  | [.value (.arr items)] =>
    if comparable items then .ok (.arr (items.mergeSort fun a b => order a b ≠ .gt))
    else .error .failed
  | _ => .error .failed

def sortBy : Builtin
  | [.value (.arr items), .reference apply] => do
    let keyed ← keysOf apply items
    return .arr ((keyed.mergeSort fun a b => order a.2 b.2 ≠ .gt).map Prod.fst)
  | _ => .error .failed

def reverse : Builtin
  | [.value (.arr items)] => .ok (.arr items.reverse)
  | [.value (.str s)] => .ok (.str (String.ofList s.toList.reverse))
  | _ => .error .failed

def toArray : Builtin
  | [.value v] =>
    match v with
    | .arr items => .ok (.arr items)
    | _ => .ok (.arr [v])
  | _ => .error .failed

def toNumber : Builtin
  | [.value v] =>
    match v with
    | .num n => .ok (.num n)
    | .str s => .ok (readNumber s)
    | _ => .ok .null
  | [.reference _] => .ok .null
  | _ => .error .failed

def toText : Builtin
  | [.value v] =>
    match v with
    | .str s => .ok (.str s)
    | _ => .ok (.str v.render)
  | _ => .error .failed

def type : Builtin
  | [.value v] => .ok (.str (typeName v))
  | [.reference _] => .ok (.str "expref")
  | _ => .error .failed

def fields? : Arg → Except Fault (List (String × Json))
  | .value (.obj fields) => .ok fields
  | _ => .error .failed

def merge : Builtin
  | [] => .error .failed
  | args => do return .obj ((← args.mapM fields?).foldl Fields.insertAll [])

def known? : Arg → Option Json
  | .value .null | .reference _ => none
  | .value v => some v

def notNull : Builtin
  | [] => .error .failed
  | args => .ok ((args.filterMap known?).head?.getD .null)

def all : List (String × Builtin) :=
  [("abs", onNumber Float.abs), ("ceil", onNumber Float.ceil), ("floor", onNumber Float.floor),
    ("avg", onNumbers fun xs => xs.foldl (· + ·) 0 / Float.ofNat xs.length),
    ("sum", onNumbers fun xs => xs.foldl (· + ·) 0),
    ("contains", contains), ("starts_with", onTexts fun t s => t.isPrefixOf s),
    ("ends_with", onTexts fun t s => t.isSuffixOf s), ("join", join),
    ("keys", keys), ("values", values), ("length", length), ("map", map),
    ("max", extreme fun a b => order a b ≠ .lt), ("min", extreme fun a b => order a b = .lt),
    ("max_by", extremeBy fun a b => order a b = .gt),
    ("min_by", extremeBy fun a b => order a b = .lt),
    ("sort", sort), ("sort_by", sortBy), ("reverse", reverse), ("to_array", toArray),
    ("to_number", toNumber), ("to_string", toText), ("type", type), ("merge", merge),
    ("not_null", notNull)]

end Builtin

def callFunction (name : String) (args : List Arg) : Except Fault Json :=
  match Fields.get? name Builtin.all with
  | some builtin => builtin args
  | none => .error .failed

mutual
def Node.eval : Node → Json → Except Fault Json
  | .current _, v => .ok v
  | .field _ name, v => .ok ((v.field? name).getD .null)
  | .literal _ value, _ => .ok value
  | .index _ i, v =>
    match v with
    | .arr items => .ok (itemAt items i)
    | _ => .ok .null
  | .slice _ start stop step, v =>
    if step = 0 then .error .failed
    else match v with
      | .arr items => .ok (.arr (sliceOf items start stop step))
      | _ => .ok .null
  | .chain _ a b, v => do b.eval (← a.eval v)
  | .project _ items each, v => do
    match ← items.eval v with
    | .arr list =>
      let results ← list.mapM fun w => each.eval w
      return .arr (results.filter fun r => match r with
        | .null => false
        | _ => true)
    | _ => return .null
  | .values _ a, v => do
    match ← a.eval v with
    | .obj fields => return .arr (fields.map Prod.snd)
    | _ => return .null
  | .flatten _ a, v => do
    match ← a.eval v with
    | .arr items => return .arr (flattenItems items)
    | _ => return .null
  | .condition _ test result, v => do
    if truthy (← test.eval v) then result.eval v else return .null
  | .compare _ op a b, v => do return op.apply (← a.eval v) (← b.eval v)
  | .and _ a b, v => do
    let left ← a.eval v
    if truthy left then b.eval v else return left
  | .or _ a b, v => do
    let left ← a.eval v
    if truthy left then return left else b.eval v
  | .not _ a, v => do return .bool (!truthy (← a.eval v))
  | .list _ items, v =>
    match v with
    | .null => .ok .null
    | _ => do return .arr (← evalItems items v)
  | .object _ fields, v =>
    match v with
    | .null => .ok .null
    | _ => do return .object (← evalFields fields v)
  | .call _ name args, v => do callFunction name (← evalArgs args v)
  | .reference _ body, _ => .ok (.str ("<expression: " ++ body.text ++ ">"))

def evalItems : List Node → Json → Except Fault (List Json)
  | [], _ => .ok []
  | n :: rest, v => do
    let first ← n.eval v
    return first :: (← evalItems rest v)

def evalFields : List (String × Node) → Json → Except Fault (List (String × Json))
  | [], _ => .ok []
  | (k, n) :: rest, v => do
    let first ← n.eval v
    return (k, first) :: (← evalFields rest v)

def evalArgs : List Node → Json → Except Fault (List Arg)
  | [], _ => .ok []
  | n :: rest, v => do
    let first ← match n with
      | .reference _ body => .ok (Arg.reference fun w => body.eval w)
      | other => (other.eval v).map Arg.value
    return first :: (← evalArgs rest v)
end

/-- The largest double below which a whole number is written as an integer. -/
def integralLimit : Float := Float.ofScientific 9223372036854775808 false 0

def integralNumber (n : Number) : Number :=
  match n with
  | .int _ _ => n
  | .double x _ =>
    if x.floor == x && x.abs < integralLimit then
      (Number.ofInt? x.toInt64.toInt).getD n
    else n

mutual
def integral : Json → Json
  | .num n => .num (integralNumber n)
  | .arr items => .arr (integralItems items)
  | .obj fields => .obj (integralFields fields)
  | v => v

def integralItems : List Json → List Json
  | [] => []
  | v :: rest => integral v :: integralItems rest

def integralFields : List (String × Json) → List (String × Json)
  | [] => []
  | (k, v) :: rest => (k, integral v) :: integralFields rest
end

/-- Runs a query text on a value; whole doubles of the result become integers. -/
def run (text : String) (v : Json) : Except Fault Json :=
  match Node.parse? text with
  | some node => (node.eval v).map integral
  | none => .error .unreadable

end FlowEngine.Query
