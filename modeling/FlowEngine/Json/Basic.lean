import FlowEngine.Json.Number

/-!
# JSON values

Objects are lists of fields in ascending key order without repeated keys.
`Fields.insert` keeps that order and `Fields.get?` reads it.
-/
namespace FlowEngine

inductive Json where
  | null
  | bool (value : Bool)
  | num (value : Number)
  | str (value : String)
  | arr (items : List Json)
  | obj (fields : List (String × Json))
deriving Inhabited

namespace Fields
variable {α : Type}

def get? (key : String) : List (String × α) → Option α
  | [] => none
  | (k, v) :: rest => if k = key then some v else get? key rest

def has (key : String) (fields : List (String × α)) : Bool :=
  (get? key fields).isSome

def insert (key : String) (value : α) : List (String × α) → List (String × α)
  | [] => [(key, value)]
  | (k, v) :: rest =>
    if k = key then (key, value) :: rest
    else if key < k then (key, value) :: (k, v) :: rest
    else (k, v) :: insert key value rest

def insertAll (fields added : List (String × α)) : List (String × α) :=
  added.foldl (fun acc (k, v) => insert k v acc) fields

/-- The table of a list of fields; the last of two with one key counts. -/
def ofList (entries : List (String × α)) : List (String × α) :=
  insertAll [] entries

def erase (key : String) (fields : List (String × α)) : List (String × α) :=
  fields.filter fun (k, _) => k ≠ key

theorem get?_insert_self (key : String) (value : α) (fields : List (String × α)) :
    get? key (insert key value fields) = some value := by
  induction fields with
  | nil => simp [insert, get?]
  | cons f rest ih =>
    obtain ⟨k, v⟩ := f
    by_cases h : k = key
    · simp [insert, get?, h]
    · by_cases hlt : key < k <;> simp [insert, get?, h, hlt, ih]

theorem get?_insert_of_ne {key other : String} (value : α) (fields : List (String × α))
    (h : other ≠ key) : get? other (insert key value fields) = get? other fields := by
  induction fields with
  | nil => simp [insert, get?, Ne.symm h]
  | cons f rest ih =>
    obtain ⟨k, v⟩ := f
    grind [insert, get?]

end Fields

namespace Json

/-- An object with the given fields; the last of two with one key counts. -/
def object (entries : List (String × Json)) : Json := .obj (Fields.ofList entries)

/-- A natural number as a value; one beyond the unsigned 64-bit range saturates. -/
def ofNat (n : Nat) : Json :=
  .num (.int (min n 18_446_744_073_709_551_615 : Nat) (by omega))

/-- The finite double as a value; no number stands for an infinity or a NaN. -/
def ofFloat (x : Float) : Json := ((Number.ofFloat? x).map Json.num).getD .null

def asBool? : Json → Option Bool
  | .bool b => some b
  | _ => none

def asNumber? : Json → Option Number
  | .num n => some n
  | _ => none

def asText? : Json → Option String
  | .str s => some s
  | _ => none

def asItems? : Json → Option (List Json)
  | .arr items => some items
  | _ => none

def asFields? : Json → Option (List (String × Json))
  | .obj fields => some fields
  | _ => none

def asSigned? (v : Json) : Option Int := v.asNumber?.bind Number.toSigned?

def asUnsigned? (v : Json) : Option Nat := v.asNumber?.bind Number.toUnsigned?

def asFloat? (v : Json) : Option Float := v.asNumber?.map Number.toFloat

/-- A field of an object; none for any other value. -/
def field? (key : String) : Json → Option Json
  | .obj fields => Fields.get? key fields
  | _ => none

mutual
def same : Json → Json → Bool
  | .null, .null => true
  | .bool a, .bool b => a == b
  | .num a, .num b => a.same b
  | .str a, .str b => a == b
  | .arr a, .arr b => sameItems a b
  | .obj a, .obj b => sameFields a b
  | _, _ => false

def sameItems : List Json → List Json → Bool
  | [], [] => true
  | a :: as, b :: bs => a.same b && sameItems as bs
  | _, _ => false

def sameFields : List (String × Json) → List (String × Json) → Bool
  | [], [] => true
  | (k, a) :: as, (l, b) :: bs => k == l && a.same b && sameFields as bs
  | _, _ => false
end

mutual
/-- Equality of values; numbers compare by value and objects as maps. -/
def valueEq : Json → Json → Bool
  | .null, .null => true
  | .bool a, .bool b => a == b
  | .num a, .num b => a.valueEq b
  | .str a, .str b => a == b
  | .arr a, .arr b => a.length == b.length && valueEqItems a b
  | .obj a, .obj b => a.length == b.length && valueEqFields a b
  | _, _ => false

def valueEqItems : List Json → List Json → Bool
  | a :: as, b :: bs => a.valueEq b && valueEqItems as bs
  | _, _ => true

def valueEqFields : List (String × Json) → List (String × Json) → Bool
  | [], _ => true
  | (k, a) :: as, other =>
    (match Fields.get? k other with
      | some b => a.valueEq b
      | none => false) && valueEqFields as other
end

end Json
end FlowEngine
