import FlowEngine.Proofs.Format.Doubles

/-!
# Quotients of integers as doubles

The quotient of two integers that are not zero is a finite double. The doubles of such integers are
normal: their mantissas have all 53 digits, so that a mantissa says nothing about the size of a number
and the exponents bound it from both sides. Rounding keeps a number normal, and so do negation,
products, quotients and packing as long as the exponents are far from the largest and the least one.
-/
namespace FlowEngine
namespace Doubles
open Float.Model Float.Model.UnpackedFloat

inductive Normal (low top : Int) : UnpackedFloat → Prop
  | finite (s : Sign) {m : Nat} {e : Int} {positive : 0 < m} (digits : 2 ^ 52 ≤ m ∧ m < 2 ^ 53)
    (bounds : low ≤ e ∧ e ≤ top) : Normal low top (.finite s m e positive)

variable {low top low' top' : Int} {f g : UnpackedFloat}

theorem Normal.isFinite (h : Normal low top f) : f.isFinite = true := by
  cases h
  rfl

theorem Normal.mono (h : Normal low top f) (hlow : low' ≤ low) (htop : top ≤ top') :
    Normal low' top' f := by
  cases h with
  | finite s digits bounds => exact .finite s digits ⟨hlow.trans bounds.1, bounds.2.trans htop⟩

theorem Normal.neg (h : Normal low top f) : Normal low top f.neg := by
  cases h with
  | finite s digits bounds => exact .finite _ digits bounds

theorem log2_of_digits {m : Nat} (h : 2 ^ 52 ≤ m ∧ m < 2 ^ 53) : m.log2 = 52 :=
  (Nat.log2_eq_iff (by omega)).mpr h

theorem mantissa_shiftRight (em : ExtendedMantissa) (k : Nat) :
    (em >>> k).mantissa = em.mantissa / 2 ^ k := by
  induction k with
  | zero => exact (Nat.div_one _).symm
  | succ k ih =>
      rw [Nat.pow_succ, ← Nat.div_div_eq_div_mul, ← ih]
      rfl

theorem shiftToTargetExponent_digits {m : Nat} {e : Int} (a : Accuracy) (hm : 2 ^ 52 ≤ m)
    (he : -1074 ≤ e) :
    let shifted := shiftToTargetExponent .binary64 m e a
    (2 ^ 52 ≤ shifted.1.mantissa ∧ shifted.1.mantissa < 2 ^ 53) ∧ shifted.2 = e + (m.log2 - 52 : Nat) := by
  have hpos : m ≠ 0 := by omega
  have hlog : 52 ≤ m.log2 := (Nat.le_log2 hpos).mpr hm
  have hshift : (Format.targetExponent .binary64 (totalExponent m e) - e).toNat = m.log2 - 52 := by
    simp only [Format.targetExponent, totalExponent, Format.mantissaBits, Format.minExponent]
    omega
  simp only [shiftToTargetExponent, shiftToExponent, hshift, mantissa_shiftRight,
    mantissa_of_accuracy]
  have hlow : 2 ^ (m.log2 - 52) * 2 ^ 52 ≤ m := by
    rw [← Nat.pow_add, Nat.sub_add_cancel hlog]
    exact Nat.log2_self_le hpos
  have htop : m < 2 ^ 53 * 2 ^ (m.log2 - 52) := by
    rw [← Nat.pow_add, show 53 + (m.log2 - 52) = m.log2 + 1 by omega]
    exact Nat.lt_log2_self
  refine ⟨⟨?_, ?_⟩, trivial⟩
  · exact (Nat.le_div_iff_mul_le (Nat.two_pow_pos _)).mpr (by rwa [Nat.mul_comm])
  · exact (Nat.div_lt_iff_lt_mul (Nat.two_pow_pos _)).mpr htop

theorem le_roundedMantissa (em : ExtendedMantissa) : em.mantissa ≤ em.roundedMantissa := by
  obtain ⟨mantissa, round, sticky⟩ := em
  cases round <;> cases sticky <;>
    simp only [ExtendedMantissa.roundedMantissa, ExtendedMantissa.accuracy,
      Accuracy.roundToNearestEven] <;> omega

theorem normal_roundWithAccuracy {m k : Nat} {e : Int} (s : Sign) (a : Accuracy) (hm : 2 ^ 52 ≤ m)
    (hk : m < 2 ^ (53 + k)) (he : -1074 ≤ e) :
    Normal e (e + k + 1) (roundWithAccuracy .binary64 s m e a) := by
  obtain ⟨hdigits, hexponent⟩ := shiftToTargetExponent_digits a hm he
  have hlog : m.log2 < 53 + k := log2_lt hk (by omega)
  simp only [roundWithAccuracy]
  generalize shiftToTargetExponent .binary64 m e a = shifted at hdigits hexponent ⊢
  have hle := le_roundedMantissa shifted.1
  have hge := roundedMantissa_le shifted.1
  have hrounded : shifted.1.roundedMantissa.log2 < 54 := log2_lt (by omega) (by omega)
  obtain ⟨hdigits', hexponent'⟩ :=
    shiftToTargetExponent_digits .exact (hdigits.1.trans hle) (e := shifted.2) (by omega)
  rw [dif_neg (by omega)]
  exact .finite s hdigits' (by omega)

/-! ## Packing -/

theorem normal_unpack (s : Sign) {e : BitVec 11} (m : BitVec 52) (he : e ≠ -1#11) (h0 : e ≠ 0#11)
    (hlow : low + 1075 ≤ e.toNat) (htop : e.toNat ≤ top + 1075) :
    Normal low top (UnpackedFloat.unpack .binary64 (packComponents .binary64 s e m)) := by
  have hbias : Format.binary64.exponentBias = 1023 := by decide
  simp only [UnpackedFloat.unpack, unpackExponent_packComponents, unpackMantissa_packComponents,
    if_neg he, if_neg h0, hbias]
  refine .finite _ ⟨?_, (1#1 ++ m).isLt⟩ ⟨by omega, by omega⟩
  rw [BitVec.toNat_append]
  exact Nat.left_le_or

theorem normal_unpack_pack (h : Normal low top f) (hlow : -1074 ≤ low) (htop : top ≤ 971) :
    Normal low top (UnpackedFloat.unpack .binary64 (UnpackedFloat.pack .binary64 f)) := by
  cases h with
  | @finite s m e _ digits bounds =>
      have hbias : Format.binary64.exponentBias = 1023 := by decide
      have hlog := log2_of_digits digits
      obtain ⟨biased, hbiased⟩ : ∃ biased : Nat, e + (1023 : Nat) + (52 : Nat) = biased :=
        ⟨(e + 1075).toNat, by omega⟩
      have hvec : (BitVec.ofNat 11 biased).toNat = biased := by
        rw [BitVec.toNat_ofNat, Nat.mod_eq_of_lt (by omega)]
      simp only [UnpackedFloat.pack, hbias, hbiased, Int.toNat_natCast, hlog]
      rw [if_neg (by omega), if_pos (by rfl)]
      refine normal_unpack s _ (fun heq => ?_) (fun heq => ?_) (by omega) (by omega)
      · have : (-1#11).toNat = 2047 := by decide
        rw [heq] at hvec
        omega
      · have : (0#11).toNat = 0 := by decide
        rw [heq] at hvec
        omega

theorem normal_toModel_neg {x : Float} (h : Normal low top x.toModel.unpack) (hlow : -1074 ≤ low)
    (htop : top ≤ 971) : Normal low top (-x).toModel.unpack :=
  normal_unpack_pack h.neg hlow htop

/-! ## Products and quotients -/

theorem normal_mul (hf : Normal low top f) (hg : Normal low' top' g) (hlow : -1074 ≤ low + low') :
    Normal (low + low') (top + top' + 54) (mul .binary64 f g) := by
  cases hf with
  | @finite s m e _ digits bounds =>
      cases hg with
      | @finite s' m' e' _ digits' bounds' =>
          have hmul : m * m' < 2 ^ (53 + 53) := by
            rw [Nat.pow_add]
            exact Nat.mul_lt_mul'' digits.2 digits'.2
          have hlong : 2 ^ 52 ≤ m * m' := digits.1.trans (Nat.le_mul_of_pos_right _ (by omega))
          exact (normal_roundWithAccuracy _ _ hlong hmul (by omega)).mono (by omega) (by omega)

theorem normal_div (hf : Normal low top f) (hg : Normal low' top' g) (hlow : -1021 ≤ low - top') :
    Normal (low - top' - 53) (top - low' - 51) (UnpackedFloat.div .binary64 f g) := by
  cases hf with
  | @finite s m e _ digits bounds =>
      cases hg with
      | @finite s' m' e' _ digits' bounds' =>
          have htarget : min (e - e') (Format.targetExponent .binary64
              (totalExponent m e - totalExponent m' e')) = e - e' - 53 := by
            simp only [Format.targetExponent, totalExponent, Format.mantissaBits,
              Format.minExponent, log2_of_digits digits, log2_of_digits digits']
            omega
          have hshift : (e - e' - (e - e' - 53)).toNat = 53 := by omega
          simp only [UnpackedFloat.div, divCore, htarget, hshift, Nat.shiftLeft_eq]
          have hlong : 2 ^ 52 ≤ m * 2 ^ 53 / m' :=
            (Nat.le_div_iff_mul_le (by omega)).mpr (by omega)
          have hshort : m * 2 ^ 53 / m' < 2 ^ (53 + 1) :=
            (Nat.div_lt_iff_lt_mul (by omega)).mpr (by omega)
          exact (normal_roundWithAccuracy _ _ hlong hshort (by omega)).mono (by omega) (by omega)

/-! ## Integers -/

theorem normal_round {n : Nat} (bits : Nat) (s : Sign) (hn : n ≠ 0) (hbits : n < 2 ^ (53 + bits)) :
    Normal (-52) (bits + 1) (UnpackedFloat.round .binary64 s n 0) := by
  simp only [UnpackedFloat.round, decreaseExponent]
  have hshift : ((0 : Int) - Format.targetExponent .binary64 (totalExponent n 0)).toNat =
      52 - n.log2 := by
    simp only [Format.targetExponent, totalExponent, Format.mantissaBits, Format.minExponent]
    omega
  rw [hshift, Nat.shiftLeft_eq]
  have hlong : 2 ^ 52 ≤ n * 2 ^ (52 - n.log2) :=
    calc 2 ^ 52 ≤ 2 ^ (n.log2 + (52 - n.log2)) := Nat.pow_le_pow_right (by decide) (by omega)
      _ = 2 ^ n.log2 * 2 ^ (52 - n.log2) := Nat.pow_add _ _ _
      _ ≤ n * 2 ^ (52 - n.log2) := Nat.mul_le_mul_right _ (Nat.log2_self_le hn)
  have hshort : n * 2 ^ (52 - n.log2) < 2 ^ (53 + bits) := by
    by_cases hwide : 52 ≤ n.log2
    · rwa [Nat.sub_eq_zero_of_le hwide, Nat.pow_zero, Nat.mul_one]
    · calc n * 2 ^ (52 - n.log2) < 2 ^ (n.log2 + 1) * 2 ^ (52 - n.log2) :=
            Nat.mul_lt_mul_of_pos_right Nat.lt_log2_self (Nat.two_pow_pos _)
        _ = 2 ^ (n.log2 + 1 + (52 - n.log2)) := (Nat.pow_add _ _ _).symm
        _ ≤ 2 ^ (53 + bits) := Nat.pow_le_pow_right (by decide) (by omega)
  exact (normal_roundWithAccuracy s .exact hlong hshort (by omega)).mono (by omega) (by omega)

theorem normal_word {n : Nat} (hn : n ≠ 0) (hword : n < 2 ^ 64) :
    Normal (-52) 12 n.toUInt64.toFloat.toModel.unpack := by
  have hcast : n.toUInt64.toNat = n := UInt64.toNat_ofNat_of_lt' hword
  have hpos : compare (n : Int) 0 = .gt := Int.compare_eq_gt.mpr (by omega)
  have hround : Normal (-52) 12 (UnpackedFloat.ofUInt64 .binary64 n.toUInt64) := by
    simp only [UnpackedFloat.ofUInt64, UnpackedFloat.ofNat, UnpackedFloat.ofInt,
      UnpackedFloat.normalize, hcast, hpos, Int.toNat_natCast]
    exact normal_round 11 .positive hn hword
  exact normal_unpack_pack hround (by decide) (by decide)

theorem normal_one : Normal (-52) (-52) (Float.ofBits 0x3FF0000000000000).toModel.unpack := by
  have h : Normal (-52) (-52) (UnpackedFloat.unpack .binary64 0x3FF0000000000000#64) :=
    normal_unpack .positive (e := 1023#11) 0#52 (by decide) (by decide) (by decide) (by decide)
  exact normal_unpack_pack h (by decide) (by decide)

theorem normal_ofScientific {n : Nat} (hn : n ≠ 0) (hword : n < 2 ^ 64) :
    Normal (-53) 12 (UnpackedFloat.ofScientific .binary64 n 0) := by
  simp only [UnpackedFloat.ofScientific]
  rw [dif_neg hn, if_neg (by decide), if_neg (by omega), if_pos (by decide)]
  simp only [UnpackedFloat.mul, Nat.shiftLeft_eq, Int.toNat_zero, Nat.pow_zero, Nat.mul_one]
  have hlong : 2 ^ 52 ≤ n * 2 ^ 53 := by omega
  have hshort : n * 2 ^ 53 < 2 ^ (53 + 64) := by omega
  have h := normal_roundWithAccuracy (.positive * .positive) .exact hlong hshort (e := -53) (by decide)
  exact h.mono (by decide) (by decide)

/-- The double of a word that is not zero, which is made of its bits or by scaling. -/
theorem normal_ofNat {n : Nat} (hn : n ≠ 0) (hword : n < 2 ^ 64) :
    Normal (-104) 14 (Float.ofNat n).toModel.unpack := by
  change Normal (-104) 14 (Float.ofScientific n false 0).toModel.unpack
  unfold Float.ofScientific
  split
  · exact normal_unpack_pack (normal_mul (normal_word hn hword) normal_one (by decide))
      (by decide) (by decide)
  · exact (normal_unpack_pack (normal_ofScientific hn hword) (by decide) (by decide)).mono
      (by decide) (by decide)

theorem normal_ofInt {i : Int} (hi : i ≠ 0) (hword : i.natAbs < 2 ^ 64) :
    Normal (-104) 14 (Float.ofInt i).toModel.unpack := by
  cases i with
  | ofNat n => exact normal_ofNat (by simpa using hi) hword
  | negSucc n => exact normal_toModel_neg (normal_ofNat (Nat.succ_ne_zero n) hword) (by decide) (by decide)

theorem isFinite_div {i j : Int} (hi : i ≠ 0) (hj : j ≠ 0) (hiword : i.natAbs < 2 ^ 64)
    (hjword : j.natAbs < 2 ^ 64) : (Float.ofInt i / Float.ofInt j).isFinite = true := by
  have h := normal_div (normal_ofInt hi hiword) (normal_ofInt hj hjword) (by decide)
  exact (normal_unpack_pack h (by decide) (by decide)).isFinite

end Doubles
end FlowEngine
