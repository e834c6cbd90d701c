import FlowEngine.Control
import FlowEngine.Proofs.Format.Doubles
import FlowEngine.Proofs.Json.Tidy
import FlowEngine.Proofs.Store.Identifiers

/-!
# Equality of values

Values are compared in five places: by the operators of expressions, in membership tests, by literal
patterns, by filters of rows and by foreign keys. On values whose numbers are signed 64-bit integers
all of them tell any two values apart. From `2^63` on integers are compared by their nearest doubles,
and neighbours fall together.
-/
namespace FlowEngine

def Number.IsInteger : Number → Prop
  | .int _ _ => True
  | .double _ _ => False

/-- A number is an integer in the signed 64-bit range. -/
def Number.IsSigned (n : Number) : Prop := n.toSigned?.isSome = true

/-! ## Values of one kind -/

namespace Json

theorem valueEqItems_self {items : List Json} (same : ∀ v ∈ items, v.valueEq v = true) :
    valueEqItems items items = true := by
  induction items with
  | nil => simp [valueEqItems]
  | cons v rest ih =>
      obtain ⟨hfirst, hrest⟩ := List.forall_mem_cons.mp same
      rw [valueEqItems, hfirst, ih hrest, Bool.and_self]

theorem eq_of_valueEqItems {a b : List Json} (hlength : a.length = b.length)
    (h : valueEqItems a b = true) (exact : ∀ v ∈ a, ∀ w ∈ b, v.valueEq w = true → v = w) : a = b := by
  induction a generalizing b with
  | nil => exact (List.eq_nil_of_length_eq_zero hlength.symm).symm
  | cons v rest ih =>
      cases b with
      | nil => cases hlength
      | cons w rest' =>
          rw [valueEqItems, Bool.and_eq_true] at h
          have hfirst : v = w := exact v List.mem_cons_self w List.mem_cons_self h.1
          have hrest : rest = rest' := ih (Nat.succ.inj hlength) h.2 fun v hv w hw =>
            exact v (List.mem_cons_of_mem _ hv) w (List.mem_cons_of_mem _ hw)
          rw [hfirst, hrest]

theorem valueEqFields_iff {fields other : List (String × Json)} :
    valueEqFields fields other = true ↔
      ∀ f ∈ fields, ∃ w, Fields.get? f.1 other = some w ∧ f.2.valueEq w = true := by
  induction fields with
  | nil => simp [valueEqFields]
  | cons f rest ih =>
      obtain ⟨k, v⟩ := f
      rw [valueEqFields, Bool.and_eq_true, ih, List.forall_mem_cons]
      cases Fields.get? k other <;> simp

namespace MadeOf

variable {p : Number → Prop} {a b : Json}

theorem valueEq_self (same : ∀ n, p n → n.valueEq n = true) (ha : a.MadeOf p) :
    a.valueEq a = true := by
  induction ha with
  | null => rw [valueEq]
  | bool x => rw [valueEq, beq_self_eq_true]
  | num kind => rw [valueEq, same _ kind]
  | str s => rw [valueEq, beq_self_eq_true]
  | arr _ ih => rw [valueEq, beq_self_eq_true, valueEqItems_self ih, Bool.and_self]
  | obj ascending _ ih =>
      rw [valueEq, beq_self_eq_true, Bool.true_and, valueEqFields_iff]
      exact fun f hf => ⟨f.2, Fields.get?_of_mem ascending hf, ih f hf⟩

theorem eq_of_valueEq (exact : ∀ m n, p m → p n → m.valueEq n = true → m = n) (ha : a.MadeOf p)
    (hb : b.MadeOf p) (h : a.valueEq b = true) : a = b := by
  induction ha generalizing b with
  | null => cases hb <;> simp [valueEq] at h ⊢
  | bool x => cases hb <;> simp_all [valueEq]
  | str s => cases hb <;> simp_all [valueEq]
  | num hm =>
      cases hb with
      | num hn =>
          rw [valueEq] at h
          rw [exact _ _ hm hn h]
      | _ => simp [valueEq] at h
  | arr _ ih =>
      cases hb with
      | arr each =>
          rw [valueEq, Bool.and_eq_true, beq_iff_eq] at h
          rw [eq_of_valueEqItems h.1 h.2 fun v hv w hw => ih v hv (each w hw)]
      | _ => simp [valueEq] at h
  | obj ascending _ ih =>
      cases hb with
      | obj ascending' each =>
          rw [valueEq, Bool.and_eq_true, beq_iff_eq, valueEqFields_iff] at h
          rw [Fields.eq_of_subset ascending ascending' h.1 fun f hf => ?_]
          obtain ⟨w, hw, heq⟩ := h.2 f hf
          have hmem : (f.1, w) ∈ _ := Fields.mem_of_get? hw
          obtain rfl : f.2 = w := ih f hf (each _ hmem) heq
          exact hmem
      | _ => simp [valueEq] at h

end MadeOf

/-! ## Where values are compared -/

/-- Whatever compares values of a class tells any two of them apart. -/
structure ToldApart (P : Json → Prop) : Prop where
  values {a b : Json} : P a → P b → (a.valueEq b = true ↔ a = b)
  equal {left right : Expr} {s : Scope} {a b : Json} : P a → P b → left.eval s = .ok a →
    right.eval s = .ok b → ∃ t, (Expr.binary .eq left right).eval s = .ok (.bool t) ∧ (t = true ↔ a = b)
  unequal {left right : Expr} {s : Scope} {a b : Json} : P a → P b → left.eval s = .ok a →
    right.eval s = .ok b → ∃ t, (Expr.binary .ne left right).eval s = .ok (.bool t) ∧ (t = true ↔ a ≠ b)
  members {left right : Expr} {s : Scope} {a : Json} {items : List Json} : P a → (∀ v ∈ items, P v) →
    left.eval s = .ok a → right.eval s = .ok (.arr items) →
    ∃ t, (Expr.binary .within left right).eval s = .ok (.bool t) ∧ (t = true ↔ a ∈ items)
  arms {subject value : Json} : P subject → P value →
    ((Control.Pattern.accepts? subject (.literal value)).isSome = true ↔ subject = value)
  filters {filter row : Row} : (∀ f ∈ filter, P f.2) → (∀ f ∈ row, P f.2) →
    (Row.agrees filter row = true ↔ ∀ f ∈ filter, Fields.get? f.1 row = some f.2)
  references {s : Store} {key : ForeignKey} {row : Row} : (∀ f ∈ row, P f.2) →
    (∀ target ∈ s.rows key.references, ∀ f ∈ target, P f.2) →
    (s.checkKey row key = .ok () ↔ ∃ id, Fields.get? key.field row = some id ∧ id ≠ .null ∧
      ∃ target ∈ s.rows key.references, Fields.get? idField target = some id)

namespace ToldApart

variable {P : Json → Prop}

theorem of_values (h : ∀ {a b : Json}, P a → P b → (a.valueEq b = true ↔ a = b)) : ToldApart P where
  values := h
  equal ha hb hleft hright := ⟨_, Expr.eval_binary (by decide) hleft hright, h ha hb⟩
  unequal {_ _ _ a b} ha hb hleft hright := by
    refine ⟨_, Expr.eval_binary (by decide) hleft hright, ?_⟩
    rw [Bool.not_eq_true', ← Bool.not_eq_true, h ha hb]
  members {_ _ _ a items} ha hitems hleft hright := by
    refine ⟨_, Expr.eval_binary (by decide) hleft hright, ?_⟩
    rw [List.any_eq_true]
    constructor
    · rintro ⟨v, hv, heq⟩
      exact (h (hitems v hv) ha).mp heq ▸ hv
    · exact fun hmem => ⟨a, hmem, (h ha ha).mpr rfl⟩
  arms {subject value} hsubject hvalue := by
    rw [Control.Pattern.accepts?, ← h hsubject hvalue]
    split <;> simp_all
  filters {filter row} hfilter hrow := by
    rw [Row.agrees, List.all_eq_true]
    refine forall₂_congr fun f hf => ?_
    obtain ⟨field, expected⟩ := f
    dsimp only
    cases hget : Fields.get? field row with
    | none => simp
    | some v =>
        rw [Option.some.injEq]
        exact h (hrow _ (Fields.mem_of_get? hget)) (hfilter _ hf)
  references {s key row} hrow htargets := by
    have hid {target : Row} {id : Json} (ht : target ∈ s.rows key.references) (hid : P id) :
        Row.hasId id target = true ↔ Fields.get? idField target = some id := by
      rw [Row.hasId]
      cases hget : Fields.get? idField target with
      | none => simp
      | some v =>
          rw [Option.some.injEq]
          exact h (htargets target ht _ (Fields.mem_of_get? hget)) hid
    constructor
    · intro hchecked
      obtain ⟨id, hget, hnull, hheld⟩ := Store.resolves_of_checkKey hchecked
      obtain ⟨target, ht, hhas⟩ := List.any_eq_true.mp hheld
      exact ⟨id, hget, hnull, target, ht, (hid ht (hrow _ (Fields.mem_of_get? hget))).mp hhas⟩
    · rintro ⟨id, hget, hnull, target, ht, htarget⟩
      have hheld : (s.rows key.references).any (Row.hasId id) = true :=
        List.any_eq_true.mpr ⟨target, ht, (hid ht (hrow _ (Fields.mem_of_get? hget))).mpr htarget⟩
      rw [Store.checkKey, hget]
      split <;> simp_all

end ToldApart

end Json

/-! ## Integers -/

namespace Number

variable {m n : Number}

theorem valueEq_iff_of_signed (hm : m.IsSigned) (hn : n.IsSigned) : m.valueEq n = true ↔ m = n := by
  cases m with
  | double x finite => cases hm
  | int i inRange =>
      cases n with
      | double x finite => cases hn
      | int j inRange' =>
          rw [IsSigned, toSigned?, Option.isSome_ite] at hm hn
          rw [valueEq, toSigned?_int hm, toSigned?_int hn, beq_iff_eq, int.injEq]

theorem valueEq_self_of_integer (hn : n.IsInteger) : n.valueEq n = true := by
  cases n with
  | double x finite => cases hn
  | int i inRange =>
      rw [valueEq]
      split
      · simp_all
      · refine Float.beq_self_iff.mpr fun hnan => ?_
        have hfinite : (Float.ofInt i).isFinite = true := Doubles.isFinite_ofInt (by omega)
        rw [toFloat] at hnan
        rw [hnan] at hfinite
        cases hfinite

end Number

/-- Values whose numbers are signed 64-bit integers are told apart wherever values are compared. No
value with integers only is told apart from itself. -/
theorem signed_values_told_apart {P : Json → Prop} (signed : ∀ v, P v → v.MadeOf Number.IsSigned) :
    Json.ToldApart P ∧ ∀ a : Json, a.MadeOf Number.IsInteger → a.valueEq a = true := by
  refine ⟨.of_values fun {a b} ha hb => ⟨?_, ?_⟩, fun a => Json.MadeOf.valueEq_self fun _ =>
    Number.valueEq_self_of_integer⟩
  · exact Json.MadeOf.eq_of_valueEq (fun m n hm hn => (Number.valueEq_iff_of_signed hm hn).mp)
      (signed a ha) (signed b hb)
  · rintro rfl
    exact Json.MadeOf.valueEq_self (fun n hn => (Number.valueEq_iff_of_signed hn hn).mpr rfl)
      (signed a ha)

/-- Two lists in objects, with neighbours that have one nearest double. -/
theorem signed_values_told_apart_nested : ∃ a b c : Json, a.MadeOf Number.IsSigned ∧
    b.MadeOf Number.IsSigned ∧ c.MadeOf Number.IsInteger ∧ a ≠ b ∧ a.valueEq b = false ∧
    a.valueEq a = true ∧ c.valueEq c = true := by
  let listed (n : Nat) : Json := .obj [("all", .arr [.str "n", .ofNat n])]
  have made {p : Number → Prop} (n : Nat) (h : (Json.ofNat n).MadeOf p) : (listed n).MadeOf p :=
    .obj (List.pairwise_singleton _ _) (List.forall_mem_singleton.mpr
      (.arr (List.forall_mem_cons.mpr ⟨.str "n", List.forall_mem_singleton.mpr h⟩)))
  have ha : (listed 9223372036854775807).MadeOf Number.IsSigned := made _ (.num (by rfl))
  have hb : (listed 9223372036854775806).MadeOf Number.IsSigned := made _ (.num (by rfl))
  have hc : (listed 18446744073709551615).MadeOf Number.IsInteger := made _ (.num (by trivial))
  obtain ⟨htold, hself⟩ := signed_values_told_apart (P := Json.MadeOf Number.IsSigned) fun _ => id
  have hne : listed 9223372036854775807 ≠ listed 9223372036854775806 := by
    intro h
    have hitem := congrArg (fun v : Json => v.valueEq (listed 9223372036854775806)) h
    exact absurd hitem (by decide +kernel)
  exact ⟨_, _, _, ha, hb, hc, hne, Bool.eq_false_iff.mpr fun h => hne ((htold.values ha hb).mp h),
    (htold.values ha ha).mpr rfl, hself _ hc⟩

/-- The two largest integers are taken for each other. -/
theorem large_integers_confused : ¬ Json.ToldApart (Json.MadeOf Number.IsInteger) := by
  intro h
  have hinteger (n : Nat) : (Json.ofNat n).MadeOf Number.IsInteger := .num (by trivial)
  have hequal : (Json.ofNat 18446744073709551615).valueEq (Json.ofNat 18446744073709551614) = true := by
    decide +kernel
  have hsame := (h.values (hinteger _) (hinteger _)).mp hequal
  have hunsigned := congrArg Json.asUnsigned? hsame
  rw [Json.asUnsigned?_ofNat (by decide), Json.asUnsigned?_ofNat (by decide)] at hunsigned
  cases hunsigned

end FlowEngine
