import FlowEngine.Json.Number
import Mathlib

/-!
# The doubles of integers

The nearest double of an integer that a JSON number can be is finite. It is computed on unpacked
floats: a product is formed and rounded, and the result is packed into bits. `Small` bounds mantissa
and exponent of an unpacked float; each operation keeps it with larger bounds, and what is packed
stays finite as long as the exponent is far below the largest one.
-/
namespace FlowEngine

namespace Doubles
open Float.Model Float.Model.UnpackedFloat

/-- A finite value with a mantissa below `2 ^ bits` and an exponent of at most `top`. -/
inductive Small (bits top : Nat) : UnpackedFloat → Prop
  | zero (s : Sign) : Small bits top (.zero s)
  | finite (s : Sign) {m : Nat} {e : Int} {positive : 0 < m} (digits : m < 2 ^ bits)
    (height : e ≤ top) : Small bits top (.finite s m e positive)

theorem Small.isFinite {bits top : Nat} {f : UnpackedFloat} (h : Small bits top f) :
    f.isFinite = true := by
  cases h <;> rfl

theorem Small.mono {bits top limit : Nat} {f : UnpackedFloat} (h : Small bits top f)
    (hl : top ≤ limit) : Small bits limit f := by
  cases h with
  | zero s => exact .zero s
  | finite s digits height => exact .finite s digits (height.trans (by omega))

theorem Small.neg {bits top : Nat} {f : UnpackedFloat} (h : Small bits top f) :
    Small bits top f.neg := by
  cases h with
  | zero s => exact .zero _
  | finite s digits height => exact .finite _ digits height

theorem mantissa_shiftRight_le (em : ExtendedMantissa) (k : Nat) :
    (em >>> k).mantissa ≤ em.mantissa := by
  induction k with
  | zero => exact le_refl _
  | succ k ih => exact (Nat.div_le_self _ 2).trans ih

theorem roundedMantissa_le (em : ExtendedMantissa) : em.roundedMantissa ≤ em.mantissa + 1 := by
  obtain ⟨mantissa, round, sticky⟩ := em
  cases round <;> cases sticky <;>
    simp only [ExtendedMantissa.roundedMantissa, ExtendedMantissa.accuracy,
      Accuracy.roundToNearestEven] <;> omega

theorem mantissa_of_accuracy (m : Nat) (a : Accuracy) :
    (ExtendedMantissa.ofMantissaAndAccuracy m a).mantissa = m := by
  obtain - | o := a
  · rfl
  · cases o <;> rfl

theorem log2_lt {m bits : Nat} (hm : m < 2 ^ bits) (hb : 0 < bits) : m.log2 < bits := by
  by_cases h0 : m = 0
  · subst h0
    simpa using hb
  · exact (Nat.log2_lt h0).mpr hm

/-- Shifting to the target exponent drops digits only. -/
theorem shiftToTargetExponent_le {m bits top : Nat} {e : Int} (a : Accuracy)
    (hm : m < 2 ^ bits) (hb : 0 < bits) (he : e ≤ top) :
    (shiftToTargetExponent .binary64 m e a).1.mantissa ≤ m ∧
      (shiftToTargetExponent .binary64 m e a).2 ≤ (top + bits : Nat) := by
  have := log2_lt hm hb
  refine ⟨?_, ?_⟩
  · exact (mantissa_shiftRight_le _ _).trans (mantissa_of_accuracy m a).le
  · simp only [shiftToTargetExponent, shiftToExponent, Format.targetExponent, totalExponent,
      Format.mantissaBits, Format.minExponent]
    omega

theorem small_roundWithAccuracy {m bits top : Nat} {e : Int} (s : Sign) (a : Accuracy)
    (hm : m < 2 ^ bits) (hb : 0 < bits) (he : e ≤ top) :
    Small (bits + 1) (top + 2 * bits + 1) (roundWithAccuracy .binary64 s m e a) := by
  have ⟨h₁, e₁⟩ := shiftToTargetExponent_le a hm hb he
  have hr : (shiftToTargetExponent .binary64 m e a).1.roundedMantissa < 2 ^ (bits + 1) := by
    have := roundedMantissa_le (shiftToTargetExponent .binary64 m e a).1
    rw [Nat.pow_succ]
    omega
  have ⟨h₂, e₂⟩ := shiftToTargetExponent_le .exact hr (Nat.succ_pos _) e₁
  simp only [roundWithAccuracy]
  split
  · exact .zero s
  · exact .finite s (h₂.trans_lt hr) (e₂.trans (by omega))

theorem small_mul {b c t u : Nat} {f g : UnpackedFloat} (hf : Small b t f) (hg : Small c u g)
    (hb : 0 < b) : Small (b + c + 1) (t + u + 2 * (b + c) + 1) (mul .binary64 f g) := by
  cases hf with
  | zero => cases hg <;> exact .zero _
  | finite s hm he =>
    cases hg with
    | zero => exact .zero _
    | finite s' hm' he' =>
      refine small_roundWithAccuracy _ _ ?_ (by omega) (by omega)
      rw [Nat.pow_add]
      exact Nat.mul_lt_mul'' hm hm'

theorem small_round {n bits : Nat} (s : Sign) (hn : n < 2 ^ bits) (hb : 0 < bits) :
    Small (bits + 53) (2 * bits + 105) (UnpackedFloat.round .binary64 s n 0) := by
  have hlog := log2_lt hn hb
  simp only [UnpackedFloat.round, decreaseExponent]
  have hshift : ((0 : Int) - Format.targetExponent .binary64 (totalExponent n 0)).toNat ≤ 52 := by
    simp only [Format.targetExponent, totalExponent, Format.mantissaBits, Format.minExponent]
    omega
  generalize ((0 : Int) - Format.targetExponent .binary64 (totalExponent n 0)).toNat = k
    at hshift ⊢
  have hdigits : n <<< k < 2 ^ (bits + 52) := by
    rw [Nat.shiftLeft_eq, Nat.pow_add]
    exact Nat.mul_lt_mul_of_lt_of_le hn (Nat.pow_le_pow_right (by decide) hshift)
      (Nat.pow_pos (by decide))
  have hheight : (0 : Int) - k ≤ (0 : Nat) := by omega
  exact (small_roundWithAccuracy s .exact hdigits (by omega) hheight).mono (by omega)

/-- The float of a natural number, before it is packed. -/
theorem small_ofNat {n bits : Nat} (hn : n < 2 ^ bits) (hb : 0 < bits) :
    Small (bits + 53) (2 * bits + 105) (UnpackedFloat.ofNat .binary64 n) := by
  simp only [UnpackedFloat.ofNat, UnpackedFloat.ofInt, UnpackedFloat.normalize]
  split
  · rename_i h
    rw [Int.compare_eq_lt] at h
    omega
  · exact .zero _
  · exact small_round .positive hn hb

/-- Bits whose exponent is not the greatest one are those of a small value. -/
theorem small_unpack {top : Nat} (s : Sign) {e : BitVec 11} (m : BitVec 52) (he : e ≠ -1#11)
    (ht : e.toNat ≤ top + 1074) :
    Small 53 top (UnpackedFloat.unpack .binary64 (packComponents .binary64 s e m)) := by
  have hm := m.isLt
  have hbias : Format.binary64.exponentBias = 1023 := by decide
  simp only [UnpackedFloat.unpack, unpackExponent_packComponents, unpackMantissa_packComponents,
    if_neg he, hbias]
  split
  · split
    · exact .zero _
    · exact .finite _ (by omega) (by omega)
  · exact .finite _ (1#1 ++ m).isLt (by omega)

/-- What is packed and unpacked again is as small as before, with the digits of a double. -/
theorem small_unpack_pack {bits top : Nat} {f : UnpackedFloat} (hf : Small bits top f)
    (ht : top ≤ 900) :
    Small 53 (top + 1) (UnpackedFloat.unpack .binary64 (UnpackedFloat.pack .binary64 f)) := by
  cases hf with
  | zero s => exact small_unpack s 0 (by decide) (Nat.zero_le _)
  | @finite s m e _ hm he =>
    have hbias : Format.binary64.exponentBias = 1023 := by decide
    simp only [UnpackedFloat.pack, hbias]
    have hexp : (e + (1023 : Nat) + (52 : Nat)).toNat ≤ top + 1075 := by omega
    generalize (e + (1023 : Nat) + (52 : Nat)).toNat = biased at hexp ⊢
    rw [if_neg (by omega)]
    split
    · have hvec : (BitVec.ofNat 11 biased).toNat = biased := by
        rw [BitVec.toNat_ofNat, Nat.mod_eq_of_lt (by omega)]
      refine small_unpack s _ (fun h => ?_) (by omega)
      rw [h] at hvec
      have : (-1#11).toNat = 2047 := by decide
      omega
    · exact small_unpack s _ (by decide) (Nat.zero_le _)

theorem isFinite_pack {bits top : Nat} {f : UnpackedFloat} (hf : Small bits top f)
    (ht : top ≤ 900) : (Float.ofModel (.pack f)).isFinite = true :=
  (small_unpack_pack hf ht).isFinite

theorem small_one : Small 53 1 (Float.ofBits 0x3FF0000000000000).toModel.unpack := by
  have h : Small 53 0 (UnpackedFloat.unpack .binary64 0x3FF0000000000000#64) :=
    small_unpack .positive (e := 1023#11) 0#52 (by decide) (by decide)
  exact small_unpack_pack h (by decide)

theorem small_product {a b : Float} {c d t u : Nat} (ha : Small c t a.toModel.unpack)
    (hb : Small d u b.toModel.unpack) (hc : 0 < c) (ht : t + u + 2 * (c + d) + 1 ≤ 900) :
    Small 53 (t + u + 2 * (c + d) + 2) (a * b).toModel.unpack :=
  small_unpack_pack (small_mul ha hb hc) ht

theorem small_ofScientific {n bits : Nat} (hn : n < 2 ^ bits) :
    Small (bits + 53 + 1 + 1) (2 * (bits + 53 + 1) + 1)
      (UnpackedFloat.ofScientific .binary64 n 0) := by
  have hdigits : n <<< 53 < 2 ^ (bits + 53) := by
    rw [Nat.shiftLeft_eq, Nat.pow_add]
    exact Nat.mul_lt_mul_of_pos_right hn (by decide)
  simp only [UnpackedFloat.ofScientific]
  split
  · exact .zero _
  · rw [if_neg (by decide), if_neg (by omega), if_pos (by decide)]
    have hunit : 10 ^ (0 : Int).toNat < 2 ^ 1 := by decide
    exact (small_mul (t := 0) (u := 0) (.finite _ hdigits (by decide))
      (.finite _ hunit (by decide)) (by omega)).mono (by omega)

/-- The double of a word; a small one is made of its bits, a large one by scaling. -/
theorem small_toModel_ofNat {n : Nat} (hn : n < 2 ^ 64) :
    Small 53 450 (Float.ofNat n).toModel.unpack := by
  change Small 53 450 (Float.ofScientific n false 0).toModel.unpack
  unfold Float.ofScientific
  split
  · have hword : Small 53 234 n.toUInt64.toFloat.toModel.unpack :=
      small_unpack_pack (small_ofNat (n.toUInt64.toNat_lt : _ < 2 ^ 64) (by decide)) (by decide)
    have : Small 53 449 (n.toUInt64.toFloat * Float.ofBits 0x3FF0000000000000).toModel.unpack :=
      small_product hword small_one (by decide) (by decide)
    exact this.mono (by decide)
  · exact (small_unpack_pack (small_ofScientific hn) (by decide)).mono (by decide)

theorem isFinite_ofInt {i : Int} (h : i.natAbs < 2 ^ 64) : (Float.ofInt i).isFinite = true := by
  cases i with
  | ofNat n => exact (small_toModel_ofNat h).isFinite
  | negSucc n => exact isFinite_pack (small_toModel_ofNat h).neg (by decide)

end Doubles

theorem Number.isFinite_toFloat (n : Number) : n.toFloat.isFinite = true := by
  cases n with
  | int i h => exact Doubles.isFinite_ofInt (by omega)
  | double x h => exact h

end FlowEngine
