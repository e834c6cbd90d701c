import FlowEngine.Json.Parser
import FlowEngine.Outcome
import FlowEngine.Proofs.Format.Expressions
import FlowEngine.Proofs.Json.Tables

/-!
# Tidy values

A value is tidy when the fields of every object in it come in the order of their keys, each key once.
Tables keep that order when fields are stored and removed, the envelopes of outcomes have it, and
every value that is read from a text is tidy.
-/
namespace FlowEngine

namespace Json

/-- A value whose numbers are of one kind. Its objects have their fields in the order of their keys,
each key once. -/
inductive MadeOf (p : Number → Prop) : Json → Prop where
  | null : MadeOf p .null
  | bool (b : Bool) : MadeOf p (.bool b)
  | num {n : Number} (kind : p n) : MadeOf p (.num n)
  | str (s : String) : MadeOf p (.str s)
  | arr {items : List Json} (each : ∀ v ∈ items, MadeOf p v) : MadeOf p (.arr items)
  | obj {fields : List (String × Json)} (ascending : (fields.map Prod.fst).Pairwise (· < ·))
      (each : ∀ f ∈ fields, MadeOf p f.2) : MadeOf p (.obj fields)

def Tidy (v : Json) : Prop := v.MadeOf fun _ => True

end Json

/-! ## Tables -/

structure Fields.Tidy (fields : List (String × Json)) : Prop where
  ascending : (fields.map Prod.fst).Pairwise (· < ·)
  each {f : String × Json} : f ∈ fields → f.2.Tidy

namespace Json

variable {v w : Json} {items : List Json} {fields : List (String × Json)} {key : String}

@[simp] theorem tidy_null : Json.null.Tidy := .null

@[simp] theorem tidy_bool (b : Bool) : (Json.bool b).Tidy := .bool b

@[simp] theorem tidy_num (n : Number) : (Json.num n).Tidy := .num trivial

@[simp] theorem tidy_str (s : String) : (Json.str s).Tidy := .str s

@[simp] theorem tidy_arr : (Json.arr items).Tidy ↔ ∀ v ∈ items, v.Tidy := by
  constructor
  · rintro (_ | _ | _ | _ | each)
    exact each
  · exact .arr

@[simp] theorem tidy_obj : (Json.obj fields).Tidy ↔ Fields.Tidy fields := by
  constructor
  · rintro (_ | _ | _ | _ | _ | ⟨ascending, each⟩)
    exact ⟨ascending, fun {f} => each f⟩
  · exact fun h => .obj h.ascending fun f => h.each

end Json

namespace Fields

variable {fields added : List (String × Json)} {key : String} {v : Json}

namespace Tidy

theorem nil : Tidy [] := ⟨.nil, fun hf => absurd hf List.not_mem_nil⟩

theorem singleton (key : String) (hv : v.Tidy) : Tidy [(key, v)] :=
  ⟨List.pairwise_singleton _ _, fun hf => List.mem_singleton.mp hf ▸ hv⟩

theorem pair {other : String} {w : Json} (hlt : key < other) (hv : v.Tidy) (hw : w.Tidy) :
    Tidy [(key, v), (other, w)] :=
  ⟨List.pairwise_pair.mpr hlt, by simp [hv, hw]⟩

theorem get? (h : Tidy fields) (hv : Fields.get? key fields = some v) : v.Tidy :=
  h.each (mem_of_get? hv)

theorem insert (h : Tidy fields) (key : String) (hv : v.Tidy) :
    Tidy (Fields.insert key v fields) where
  ascending := ascending_insert h.ascending key v
  each hf := by
    rcases mem_insert hf with rfl | hf
    · exact hv
    · exact h.each hf

theorem insertAll (h : Tidy fields) (hadded : ∀ f ∈ added, f.2.Tidy) :
    Tidy (Fields.insertAll fields added) := by
  induction added generalizing fields with
  | nil => exact h
  | cons f rest ih =>
      obtain ⟨hf, hrest⟩ := List.forall_mem_cons.mp hadded
      exact ih (h.insert f.1 hf) hrest

theorem ofList (h : ∀ f ∈ fields, f.2.Tidy) : Tidy (Fields.ofList fields) := nil.insertAll h

theorem erase (h : Tidy fields) (key : String) : Tidy (Fields.erase key fields) :=
  ⟨ascending_erase h.ascending key, fun hf => h.each (List.mem_of_mem_filter hf)⟩

end Tidy
end Fields

/-! ## Values -/

namespace Json

variable {v w : Json} {items : List Json} {fields entries : List (String × Json)} {key : String}

theorem tidy_object (h : ∀ f ∈ entries, f.2.Tidy) : (object entries).Tidy :=
  tidy_obj.mpr (.ofList h)

theorem tidy_record {entries : List (String × Option Json)}
    (h : ∀ f ∈ entries, ∀ w ∈ f.2, w.Tidy) : (record entries).Tidy :=
  tidy_object fun _ hf => h _ (mem_present.mp hf) _ rfl

@[simp] theorem tidy_ofNat (n : Nat) : (ofNat n).Tidy := tidy_num _

@[simp] theorem tidy_ofFloat (x : Float) : (ofFloat x).Tidy := by
  unfold ofFloat
  cases Number.ofFloat? x with
  | none => exact tidy_null
  | some n => exact tidy_num n

namespace Tidy

theorem field? (h : v.Tidy) (hw : v.field? key = some w) : w.Tidy := by
  cases v with
  | obj fields => exact (tidy_obj.mp h).get? hw
  | _ => cases hw

theorem asFields? (h : v.Tidy) (hfields : v.asFields? = some fields) : Fields.Tidy fields := by
  cases v with
  | obj fields' =>
      cases hfields
      exact tidy_obj.mp h
  | _ => cases hfields

theorem asItems? (h : v.Tidy) (hitems : v.asItems? = some items) : ∀ w ∈ items, w.Tidy := by
  cases v with
  | arr items' =>
      cases hitems
      exact tidy_arr.mp h
  | _ => cases hitems

theorem child? {c : v.Within} (h : v.Tidy) (hc : v.child? key = some c) : c.1.Tidy := by
  unfold Json.child? at hc
  split at hc
  · rename_i w hw
    cases hc
    exact h.field? hw
  · cases hc

theorem childItems? {parts : List v.Within} (h : v.Tidy) (hparts : v.childItems? = some parts) :
    ∀ c ∈ parts, c.1.Tidy := by
  have hitems : v.asItems? = some (parts.map Subtype.val) := by
    rw [← childItems?_eq, hparts]
    rfl
  exact fun c hc => h.asItems? hitems c.1 (List.mem_map_of_mem hc)

theorem required {α : Type} {read : Json → Option α} {a : α} (h : v.Tidy)
    (ha : v.required key read = some a) : ∃ w, w.Tidy ∧ read w = some a := by
  obtain ⟨w, hw, ha⟩ := Option.bind_eq_some_iff.mp ha
  exact ⟨w, h.field? hw, ha⟩

theorem optional {α : Type} {read : Json → Option α} {o : Option α} (h : v.Tidy)
    (ho : v.optional key read = some o) : ∀ a ∈ o, ∃ w, w.Tidy ∧ read w = some a := by
  rw [Json.optional] at ho
  split at ho
  · cases ho
    rintro _ ⟨⟩
  · cases ho
    rintro _ ⟨⟩
  · rename_i w _ hw
    obtain ⟨a, ha, rfl⟩ := Option.map_eq_some_iff.mp ho
    rintro _ ⟨⟩
    exact ⟨w, h.field? hw, ha⟩

theorem withDefault {α : Type} {read : Json → Option α} {fallback a : α} (h : v.Tidy)
    (ha : v.withDefault key read fallback = some a) :
    a = fallback ∨ ∃ w, w.Tidy ∧ read w = some a := by
  rw [Json.withDefault] at ha
  split at ha
  · exact Or.inl (Option.some.inj ha).symm
  · rename_i w hw
    exact Or.inr ⟨w, h.field? hw, ha⟩

end Tidy
end Json

/-! ## Failures and outcomes -/

theorem Failure.tidy_toJson : ∀ f : Failure, f.toJson.Tidy
  | ⟨kind, message, stepId, isRollback, cause⟩ => by
      rw [toJson_eq]
      refine Json.tidy_record ?_
      cases cause with
      | none => simp [ErrorKind.toJson]
      | some c => simpa [ErrorKind.toJson] using tidy_toJson c

theorem Outcome.tidy_envelope {o : Outcome} (h : ∀ v, o = .ok v → v.Tidy) : o.envelope.Tidy := by
  cases o with
  | ok value => exact Json.tidy_obj.mpr (.pair (by decide) (Json.tidy_bool true) (h value rfl))
  | failed kind message =>
      refine Json.tidy_obj.mpr (.pair (by decide) (Json.tidy_obj.mpr ?_) (Json.tidy_bool false))
      exact .pair (by decide) (Json.tidy_str kind.name) (Json.tidy_str message)

/-- The value or the error in an envelope. -/
def Unwrapped.content : Unwrapped → Json
  | value v => v
  | error e => e

theorem Json.Tidy.unwrapEnvelope? {v : Json} {u : Unwrapped} (h : v.Tidy)
    (hu : v.unwrapEnvelope? = some u) : u.content.Tidy := by
  obtain ⟨flag, -, hu⟩ := Option.bind_eq_some_iff.mp hu
  obtain ⟨ok, -, hu⟩ := Option.bind_eq_some_iff.mp hu
  cases ok with
  | true =>
      obtain ⟨w, hw, hu⟩ := Option.bind_eq_some_iff.mp hu
      cases hu
      exact h.field? hw
  | false =>
      obtain ⟨w, hw, hu⟩ := Option.bind_eq_some_iff.mp hu
      cases hu
      exact h.field? hw

/-! ## Texts -/

namespace Json.Parser

variable {item : Reader Json} {cs rest : List Char}

theorem tidy_of_readItems (hitem : ∀ {cs v rest}, item cs = some (v, rest) → v.Tidy) {fuel : Nat}
    {acc items : List Json} (hacc : ∀ v ∈ acc, v.Tidy)
    (h : readItems item fuel acc cs = some (items, rest)) : ∀ v ∈ items, v.Tidy := by
  induction fuel generalizing acc cs with
  | zero => cases h
  | succ fuel ih =>
      rw [readItems] at h
      obtain ⟨⟨v, left⟩, hv, h⟩ := Option.bind_eq_some_iff.mp h
      have hmore : ∀ w ∈ v :: acc, w.Tidy := List.forall_mem_cons.mpr ⟨hitem hv, hacc⟩
      dsimp only at h
      split at h
      · exact ih hmore h
      · cases h
        exact fun w hw => hmore w (List.mem_reverse.mp hw)
      · cases h

theorem tidy_of_readFields (hitem : ∀ {cs v rest}, item cs = some (v, rest) → v.Tidy)
    {size fuel : Nat} {acc fields : List (String × Json)} (hacc : ∀ f ∈ acc, f.2.Tidy)
    (h : readFields size item fuel acc cs = some (fields, rest)) : ∀ f ∈ fields, f.2.Tidy := by
  induction fuel generalizing acc cs with
  | zero => cases h
  | succ fuel ih =>
      rw [readFields] at h
      split at h
      · obtain ⟨⟨key, left⟩, -, h⟩ := Option.bind_eq_some_iff.mp h
        dsimp only at h
        split at h
        · obtain ⟨⟨v, left⟩, hv, h⟩ := Option.bind_eq_some_iff.mp h
          have hmore : ∀ f ∈ (key, v) :: acc, f.2.Tidy := List.forall_mem_cons.mpr ⟨hitem hv, hacc⟩
          dsimp only at h
          split at h
          · exact ih hmore h
          · cases h
            exact fun f hf => hmore f (List.mem_reverse.mp hf)
          · cases h
        · cases h
      · cases h

theorem tidy_of_readValue {size depth : Nat} {v : Json}
    (h : readValue size depth cs = some (v, rest)) : v.Tidy := by
  induction depth generalizing cs v rest with
  | zero => cases h
  | succ depth ih =>
      unfold readValue at h
      split at h
      · cases h
        exact tidy_null
      · cases h
        exact tidy_bool true
      · cases h
        exact tidy_bool false
      · obtain ⟨⟨s, left⟩, -, h⟩ := Option.bind_eq_some_iff.mp h
        cases h
        exact tidy_str s
      · obtain ⟨⟨n, left⟩, -, h⟩ := Option.bind_eq_some_iff.mp h
        cases h
        exact tidy_num n
      · split at h
        · cases h
        · split at h
          · cases h
            exact tidy_arr.mpr (List.forall_mem_nil _)
          · obtain ⟨⟨items, left⟩, hitems, h⟩ := Option.bind_eq_some_iff.mp h
            cases h
            exact tidy_arr.mpr (tidy_of_readItems ih (List.forall_mem_nil _) hitems)
      · split at h
        · cases h
        · split at h
          · cases h
            exact tidy_obj.mpr .nil
          · obtain ⟨⟨fields, left⟩, hfields, h⟩ := Option.bind_eq_some_iff.mp h
            cases h
            exact tidy_object (tidy_of_readFields ih (List.forall_mem_nil _) hfields)
      · split at h
        · obtain ⟨⟨n, left⟩, -, h⟩ := Option.bind_eq_some_iff.mp h
          cases h
          exact tidy_num n
        · cases h
      · cases h

end Json.Parser

/-- A text is read as a tidy value. -/
theorem Json.tidy_of_parse? {text : String} {v : Json} (h : parse? text = some v) : v.Tidy := by
  obtain ⟨⟨w, rest⟩, hw, h⟩ := Option.bind_eq_some_iff.mp h
  dsimp only at h
  split at h
  · cases h
    exact Parser.tidy_of_readValue hw
  · cases h

end FlowEngine
