import FlowEngine.Expr.Eval
import FlowEngine.Proofs.Expr.Quotients

/-!
# Arithmetic on integers

On two signed 64-bit integers every operator gives the exact result or refuses. The one exception is
the quotient of a division that leaves a remainder, which is a double.
-/
namespace FlowEngine

def InSignedRange (i : Int) : Prop := -2 ^ 63 ≤ i ∧ i < 2 ^ 63

theorem Json.eq_num_of_asSigned? {v : Json} {i : Int} (h : v.asSigned? = some i) :
    InSignedRange i ∧ ∃ inRange, v = .num (.int i inRange) := by
  cases v with
  | num n =>
      cases n with
      | double x finite => cases h
      | int j inRange =>
          obtain ⟨hj, heq⟩ := Option.ite_none_right_eq_some.mp
            (h : (Number.int j inRange).toSigned? = some i)
          obtain rfl : j = i := Option.some.inj heq
          exact ⟨⟨inRange.1, hj⟩, inRange, rfl⟩
  | _ => cases h

namespace Expr

def value (e : Expr) (s : Scope) : Except EngineError Json := (e.eval s).mapError Fault.toError

/-- A result is an integer if that is in the signed 64-bit range, and an overflow if it is not. -/
structure Exact (i : Int) (result : Except EngineError Json) : Prop where
  inside : InSignedRange i → ∃ v, result = .ok v ∧ v.asSigned? = some i
  outside : ¬ InSignedRange i → result = .error (.validation "Integer overflow")

/-- The quotient and the remainder of a division of two integers. -/
structure Divided (a b : Int) (quotient remainder : Except EngineError Json) : Prop where
  byZero : (quotient = .error (.validation "Division by zero") ↔ b = 0) ∧
    (remainder = .error (.validation "Division by zero") ↔ b = 0)
  overflow : (quotient = .error (.validation "Integer overflow") ↔ a = -2 ^ 63 ∧ b = -1) ∧
    (remainder = .error (.validation "Integer overflow") ↔ a = -2 ^ 63 ∧ b = -1)
  divides : b ≠ 0 → ¬ (a = -2 ^ 63 ∧ b = -1) → ∃ r v, remainder = .ok v ∧ v.asSigned? = some r ∧
    (r = 0 ∨ r.sign = a.sign) ∧ |r| < |b| ∧ b ∣ a - r ∧
    (r = 0 → ∃ w q, quotient = .ok w ∧ w.asSigned? = some q ∧ q * b = a) ∧
    (r ≠ 0 → ∃ x finite, quotient = .ok (.num (.double x finite)) ∧ x = Float.ofInt a / Float.ofInt b)

variable {left right : Expr} {s : Scope} {v w : Json} {a b : Int}

theorem signed_exact (i : Int) : Exact i ((signed i).mapError Fault.toError) := by
  unfold signed
  split
  · rename_i h
    exact ⟨fun _ => ⟨_, rfl, if_pos h.2⟩, fun hout => absurd h hout⟩
  · rename_i h
    exact ⟨fun hin => absurd hin h, fun _ => rfl⟩

theorem plus_eq_arith (ha : v.asSigned? = some a) (hb : w.asSigned? = some b) :
    plus v w = arith .add v w := by
  obtain ⟨-, _, rfl⟩ := Json.eq_num_of_asSigned? ha
  obtain ⟨-, _, rfl⟩ := Json.eq_num_of_asSigned? hb
  rfl

theorem arith_eq_integerArith (op : BinaryOp) (ha : v.asSigned? = some a)
    (hb : w.asSigned? = some b) : arith op v w = integerArith op a b (.notNumbers op v w) := by
  rw [arith, ha, hb]

theorem value_binary {op : BinaryOp} (strict : op ≠ .and ∧ op ≠ .or) (hleft : left.eval s = .ok v)
    (hright : right.eval s = .ok w) :
    (binary op left right).value s = (applyBinary op v w).mapError Fault.toError := by
  rw [value, eval_binary strict hleft hright]

theorem value_arith {op : BinaryOp} (arithmetic : op ∈ [.add, .sub, .mul, .div, .mod])
    (hleft : left.eval s = .ok v) (hright : right.eval s = .ok w) (ha : v.asSigned? = some a)
    (hb : w.asSigned? = some b) : (binary op left right).value s =
      (integerArith op a b (.notNumbers op v w)).mapError Fault.toError := by
  have strict : op ≠ .and ∧ op ≠ .or := by
    constructor <;> rintro rfl <;> simp at arithmetic
  rw [value_binary strict hleft hright, ← arith_eq_integerArith op ha hb]
  cases op with
  | add => rw [applyBinary, plus_eq_arith ha hb]
  | sub | mul | div | mod => rfl
  | _ => simp at arithmetic

theorem value_neg (hleft : left.eval s = .ok v) (ha : v.asSigned? = some a) :
    (unary .neg left).value s = (signed (-a)).mapError Fault.toError := by
  rw [value, eval_unary .neg hleft, applyUnary, ha]

/-! ## Division -/

theorem quotientOverflows_iff : quotientOverflows a b = true ↔ a = -2 ^ 63 ∧ b = -1 := by
  simp [quotientOverflows]

theorem inSignedRange_tmod (ha : InSignedRange a) (b : Int) : InSignedRange (a.tmod b) := by
  have hle : (a.tmod b).natAbs ≤ a.natAbs := by
    rw [Int.natAbs_tmod]
    exact Nat.mod_le _ _
  have hsign : (a.tmod b).sign = 0 ∨ (a.tmod b).sign = a.sign := by
    rw [Int.sign_tmod]
    split <;> simp
  unfold InSignedRange at ha ⊢
  rcases hsign with hzero | hsame
  · rw [Int.sign_eq_zero_iff_zero] at hzero
    omega
  · rcases Int.lt_trichotomy a 0 with hneg | hzero | hpos
    · have : a.tmod b < 0 := Int.sign_eq_neg_one_iff_neg.mp (hsame.trans (Int.sign_eq_neg_one_of_neg hneg))
      omega
    · omega
    · omega

/-- A quotient is no larger than the dividend, and only a division by -1 turns that around. -/
theorem inSignedRange_tdiv (ha : InSignedRange a) (hover : ¬ (a = -2 ^ 63 ∧ b = -1)) :
    InSignedRange (a.tdiv b) := by
  unfold InSignedRange at ha ⊢
  have hle : (a.tdiv b).natAbs = a.natAbs / b.natAbs := Int.natAbs_tdiv a b
  by_cases hsmall : b.natAbs < 2
  · obtain rfl | rfl | rfl : b = 0 ∨ b = 1 ∨ b = -1 := by omega
    · simp
    · rwa [Int.tdiv_one]
    · rw [Int.tdiv_neg, Int.tdiv_one]
      omega
  · have : a.natAbs / b.natAbs ≤ a.natAbs / 2 := Nat.div_le_div_left (by omega) (by decide)
    omega

/-- What a division in range gives: an integer if nothing remains, and else a double. -/
theorem quotient_inSignedRange (mismatch : Fault) (ha : InSignedRange a) (hb : InSignedRange b)
    (hzero : b ≠ 0) (hover : ¬ (a = -2 ^ 63 ∧ b = -1)) :
    ∃ w, (integerArith .div a b mismatch).mapError Fault.toError = .ok w ∧
      (a.tmod b = 0 → ∃ q, w.asSigned? = some q ∧ q * b = a) ∧
      (a.tmod b ≠ 0 → ∃ x finite, w = .num (.double x finite) ∧
        x = Float.ofInt a / Float.ofInt b) := by
  simp only [integerArith]
  rw [if_neg hzero, if_neg (mt quotientOverflows_iff.mp hover)]
  by_cases hrest : a.tmod b = 0
  · obtain ⟨w, hw, hq⟩ := (signed_exact (a.tdiv b)).inside (inSignedRange_tdiv ha hover)
    rw [if_pos hrest]
    exact ⟨w, hw, fun _ => ⟨_, hq, Int.tdiv_mul_cancel (Int.dvd_of_tmod_eq_zero hrest)⟩,
      fun h => absurd hrest h⟩
  · have hnonzero : a ≠ 0 := by
      rintro rfl
      exact hrest (Int.zero_tmod b)
    unfold InSignedRange at ha hb
    have hfinite : (Float.ofInt a / Float.ofInt b).isFinite = true :=
      Doubles.isFinite_div hnonzero hzero (by omega) (by omega)
    rw [if_neg hrest, Json.ofFloat, Number.ofFloat?, dif_pos hfinite]
    exact ⟨_, rfl, fun h => absurd h hrest, fun _ => ⟨_, hfinite, rfl, rfl⟩⟩

theorem divided {mismatch mismatch' : Fault} (ha : InSignedRange a) (hb : InSignedRange b) :
    Divided a b ((integerArith .div a b mismatch).mapError Fault.toError)
      ((integerArith .mod a b mismatch').mapError Fault.toError) := by
  by_cases hzero : b = 0
  · simp only [integerArith, if_pos hzero]
    change Divided a b (.error (.validation "Division by zero")) (.error (.validation "Division by zero"))
    exact ⟨by simp [hzero], by simp [hzero], fun h => absurd hzero h⟩
  · by_cases hover : a = -2 ^ 63 ∧ b = -1
    · simp only [integerArith, if_neg hzero, if_pos (quotientOverflows_iff.mpr hover)]
      change Divided a b (.error (.validation "Integer overflow")) (.error (.validation "Integer overflow"))
      exact ⟨by simp [hzero], by simp [hover], fun _ h => absurd hover h⟩
    · obtain ⟨r, hr, hrexact⟩ := (signed_exact (a.tmod b)).inside (inSignedRange_tmod ha b)
      obtain ⟨w, hw, hwhole, hpart⟩ := quotient_inSignedRange mismatch ha hb hzero hover
      have hmod : (integerArith .mod a b mismatch').mapError Fault.toError = .ok r := by
        simp only [integerArith]
        rw [if_neg hzero, if_neg (mt quotientOverflows_iff.mp hover), hr]
      rw [hw, hmod]
      refine ⟨by simp [hzero], ⟨⟨nofun, fun h => absurd h hover⟩, ⟨nofun, fun h => absurd h hover⟩⟩,
        fun _ _ => ⟨a.tmod b, r, rfl, hrexact, ?_, ?_, Int.dvd_self_sub_tmod, fun h => ?_, fun h => ?_⟩⟩
      · rw [← Int.sign_eq_zero_iff_zero, Int.sign_tmod]
        split <;> simp
      · rw [Int.abs_eq_natAbs, Int.abs_eq_natAbs, Int.natAbs_tmod]
        exact_mod_cast Nat.mod_lt _ (Int.natAbs_pos.mpr hzero)
      · obtain ⟨q, hq, hexact⟩ := hwhole h
        exact ⟨w, q, rfl, hq, hexact⟩
      · obtain ⟨x, finite, rfl, hx⟩ := hpart h
        exact ⟨x, finite, rfl, hx⟩

/-- Integers are added, subtracted, multiplied and negated exactly or not at all. They are divided
exactly if nothing remains, and as doubles otherwise. -/
theorem integer_arithmetic (hleft : left.eval s = .ok v) (hright : right.eval s = .ok w)
    (ha : v.asSigned? = some a) (hb : w.asSigned? = some b) :
    Exact (a + b) ((binary .add left right).value s) ∧
    Exact (a - b) ((binary .sub left right).value s) ∧
    Exact (a * b) ((binary .mul left right).value s) ∧
    Exact (-a) ((unary .neg left).value s) ∧
    Divided a b ((binary .div left right).value s) ((binary .mod left right).value s) := by
  rw [value_arith (by simp) hleft hright ha hb, value_arith (by simp) hleft hright ha hb,
    value_arith (by simp) hleft hright ha hb, value_neg hleft ha,
    value_arith (by simp) hleft hright ha hb, value_arith (by simp) hleft hright ha hb]
  exact ⟨signed_exact _, signed_exact _, signed_exact _, signed_exact _,
    divided (Json.eq_num_of_asSigned? ha).1 (Json.eq_num_of_asSigned? hb).1⟩

theorem integer_arithmetic_least : ∃ least three : Expr, ∃ s : Scope, ∃ v w : Json,
    least.eval s = .ok v ∧ three.eval s = .ok w ∧ v.asSigned? = some (-2 ^ 63) ∧ w.asSigned? = some 3 ∧
    Exact (-2 ^ 63 + 3) ((binary .add least three).value s) ∧
    Exact (-2 ^ 63 - 3) ((binary .sub least three).value s) ∧
    Exact (-2 ^ 63 * 3) ((binary .mul least three).value s) ∧
    Exact (- -2 ^ 63) ((unary .neg least).value s) ∧
    Divided (-2 ^ 63) 3 ((binary .div least three).value s) ((binary .mod least three).value s) :=
  ⟨.literal (.num (.int (-2 ^ 63) (by decide))), .literal (.ofNat 3), .ofBindings [], _, _, rfl, rfl,
    rfl, rfl, integer_arithmetic rfl rfl rfl rfl⟩

end Expr
end FlowEngine
