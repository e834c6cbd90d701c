import FlowEngine.Json.Basic

/-!
# Reading typed data from JSON values

Unknown fields are ignored. An optional field may be missing or null, a field
with a default may be missing only. Children come with the proof that they are
smaller than the value that holds them, so recursive data is read by recursion
on its size.
-/
namespace FlowEngine

theorem Fields.sizeOf_get?_lt {key : String} {fields : List (String × Json)} {v : Json}
    (h : Fields.get? key fields = some v) : sizeOf v < sizeOf fields := by
  induction fields with
  | nil => simp [Fields.get?] at h
  | cons f rest ih =>
    obtain ⟨k, w⟩ := f
    by_cases hk : k = key
    · simp only [Fields.get?, hk, if_true, Option.some.injEq] at h
      subst h
      simp only [List.cons.sizeOf_spec, Prod.mk.sizeOf_spec]
      omega
    · simp only [Fields.get?, hk, if_false] at h
      have := ih h
      simp only [List.cons.sizeOf_spec]
      omega

namespace Json

theorem sizeOf_field?_lt {key : String} {v w : Json} (h : v.field? key = some w) :
    sizeOf w < sizeOf v := by
  cases v with
  | obj fields =>
    have := Fields.sizeOf_get?_lt (show Fields.get? key fields = some w from h)
    simp only [Json.obj.sizeOf_spec]
    omega
  | _ => simp [field?] at h

abbrev Within (v : Json) : Type := { w : Json // sizeOf w < sizeOf v }

def child? (key : String) (v : Json) : Option v.Within :=
  match h : v.field? key with
  | some w => some ⟨w, sizeOf_field?_lt h⟩
  | none => none

def childItems? (v : Json) : Option (List v.Within) :=
  match v with
  | .arr items =>
    some (items.attach.map fun ⟨w, h⟩ => ⟨w, by
      have := List.sizeOf_lt_of_mem h
      simp only [Json.arr.sizeOf_spec]
      omega⟩)
  | _ => none

def Within.widen {v : Json} (w : v.Within) (u : w.1.Within) : v.Within :=
  ⟨u.1, Nat.lt_trans u.2 w.2⟩

def required {α : Type} (key : String) (read : Json → Option α) (v : Json) : Option α :=
  (v.field? key).bind read

def optional {α : Type} (key : String) (read : Json → Option α) (v : Json) : Option (Option α) :=
  match v.field? key with
  | none | some .null => some none
  | some w => (read w).map some

def withDefault {α : Type} (key : String) (read : Json → Option α) (fallback : α) (v : Json) :
    Option α :=
  match v.field? key with
  | none => some fallback
  | some w => read w

/-- The text of a tag: a string, or an object whose only field is null. -/
def asTag? : Json → Option String
  | .str s => some s
  | .obj [(s, .null)] => some s
  | _ => none

def natBelow (bound : Nat) (v : Json) : Option Nat := do
  let n ← v.asUnsigned?
  if n < bound then some n else none

def asWord32? : Json → Option Nat := natBelow UInt32.size

def listOf {α : Type} (read : Json → Option α) (v : Json) : Option (List α) := do
  (← v.asItems?).mapM read

def record (entries : List (String × Option Json)) : Json :=
  .object (entries.filterMap fun (k, v?) => v?.map fun v => (k, v))

end Json
end FlowEngine
