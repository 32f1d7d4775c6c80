import Mathlib

/-!
Rounding to doubles. What has at least the 53 bits of a mantissa is rounded to a normal number,
whose exponent is that of the exact number or one more, and packing a normal number and unpacking it
gives it back.
-/

open Float.Model Float.Model.UnpackedFloat

namespace CodeAtlas.Double

theorem mantissa_shiftRight (em : ExtendedMantissa) (k : Nat) :
    (em >>> k).mantissa = em.mantissa / 2 ^ k := by
  induction k with
  | zero => simp [HShiftRight.hShiftRight, Nat.repeat]
  | succ k ih =>
    show (em >>> k).mantissa / 2 = _
    rw [ih, Nat.div_div_eq_div_mul, Nat.pow_succ]

theorem roundedMantissa_bounds (em : ExtendedMantissa) :
    em.mantissa ≤ em.roundedMantissa ∧ em.roundedMantissa ≤ em.mantissa + 1 := by
  obtain ⟨m, r, s⟩ := em
  cases r <;> cases s <;>
    simp [ExtendedMantissa.roundedMantissa, ExtendedMantissa.accuracy, Accuracy.roundToNearestEven]
  omega

theorem mantissa_ofMantissaAndAccuracy (m : Nat) (accuracy : Accuracy) :
    (ExtendedMantissa.ofMantissaAndAccuracy m accuracy).mantissa = m := by
  cases accuracy with
  | exact => rfl
  | inexact order => cases order <;> rfl

/-- The exponent to which a number with at least 53 bits is rounded, while that is not too small. -/
theorem targetExponent_eq {m : Nat} {e : Int} (he : -1074 ≤ e + m.log2 - 52) :
    Format.binary64.targetExponent (totalExponent m e) = e + m.log2 - 52 := by
  simp only [Format.targetExponent, totalExponent, Format.mantissaBits, Format.minExponent]
  norm_num
  omega

theorem shiftToTargetExponent_eq {m : Nat} {e : Int} (accuracy : Accuracy) (hm : 52 ≤ m.log2)
    (he : -1074 ≤ e + m.log2 - 52) :
    (shiftToTargetExponent Format.binary64 m e accuracy).1.mantissa = m / 2 ^ (m.log2 - 52) ∧
      (shiftToTargetExponent Format.binary64 m e accuracy).2 = e + m.log2 - 52 := by
  have hshift : (e + m.log2 - 52 - e).toNat = m.log2 - 52 := by omega
  rw [shiftToTargetExponent, targetExponent_eq he, shiftToExponent]
  simp only [hshift, mantissa_shiftRight, mantissa_ofMantissaAndAccuracy, true_and]
  omega

theorem ne_zero_of_log2 {m : Nat} (h : 0 < m.log2) : m ≠ 0 := by
  rintro rfl
  exact absurd h (by decide)

theorem log2_eq {m : Nat} (h : 2 ^ 52 ≤ m) (h' : m < 2 ^ 53) : m.log2 = 52 :=
  (Nat.log2_eq_iff (by omega)).mpr ⟨h, h'⟩

theorem bounds_of_log2 {m : Nat} (h : m.log2 = 52) : 2 ^ 52 ≤ m ∧ m < 2 ^ 53 :=
  (Nat.log2_eq_iff (ne_zero_of_log2 (by omega))).mp h

theorem shifted_bounds {m : Nat} (hm : 52 ≤ m.log2) :
    2 ^ 52 ≤ m / 2 ^ (m.log2 - 52) ∧ m / 2 ^ (m.log2 - 52) < 2 ^ 53 := by
  have hne := ne_zero_of_log2 (m := m) (by omega)
  constructor
  · apply (Nat.le_div_iff_mul_le (Nat.two_pow_pos _)).mpr
    rw [← Nat.pow_add, Nat.add_sub_cancel' hm]
    exact Nat.log2_self_le hne
  · apply (Nat.div_lt_iff_lt_mul (Nat.two_pow_pos _)).mpr
    rw [← Nat.pow_add, show 53 + (m.log2 - 52) = m.log2 + 1 by omega]
    exact Nat.lt_log2_self

/-- Rounding up to a power of two takes one more bit, which a second shift drops. -/
theorem log2_second_shift {m : Nat} {e : Int} (hlow : 2 ^ 52 ≤ m) (hhigh : m ≤ 2 ^ 53)
    (he : -1074 ≤ e) : (shiftToTargetExponent Format.binary64 m e .exact).1.mantissa.log2 = 52 ∧
      e ≤ (shiftToTargetExponent Format.binary64 m e .exact).2 ∧
      (shiftToTargetExponent Format.binary64 m e .exact).2 ≤ e + 1 := by
  have hlog : 52 ≤ m.log2 ∧ m.log2 ≤ 53 := by
    constructor
    · exact (Nat.le_log2 (by omega)).mpr hlow
    · exact Nat.le_of_lt_succ ((Nat.log2_lt (by omega)).mpr (by omega))
  obtain ⟨hmantissa, hexponent⟩ :=
    shiftToTargetExponent_eq (m := m) (e := e) .exact hlog.1 (by omega)
  obtain ⟨hs, hs'⟩ := shifted_bounds hlog.1
  rw [hmantissa, hexponent]
  exact ⟨log2_eq hs hs', by omega, by omega⟩

/-- What has at least 53 bits is rounded to 53 bits. -/
theorem roundWithAccuracy_normal (s : Sign) {m : Nat} {e : Int} (accuracy : Accuracy)
    (hm : 52 ≤ m.log2) (he : -1074 ≤ e + m.log2 - 52) :
    ∃ (m' : Nat) (e' : Int) (h : 0 < m'), roundWithAccuracy Format.binary64 s m e accuracy =
      .finite s m' e' h ∧ m'.log2 = 52 ∧ e + m.log2 - 52 ≤ e' ∧ e' ≤ e + m.log2 - 52 + 1 := by
  obtain ⟨hmantissa, hexponent⟩ := shiftToTargetExponent_eq accuracy hm he
  obtain ⟨hs, hs'⟩ := shifted_bounds hm
  obtain ⟨hr, hr'⟩ := roundedMantissa_bounds (shiftToTargetExponent Format.binary64 m e accuracy).1
  rw [hmantissa] at hr hr'
  obtain ⟨hlog, hlow, hhigh⟩ := log2_second_shift
    (m := (shiftToTargetExponent Format.binary64 m e accuracy).1.roundedMantissa) (by omega)
    (by omega) he
  have hpos := bounds_of_log2 hlog
  unfold roundWithAccuracy
  dsimp only
  rw [hexponent, dif_neg (by omega)]
  exact ⟨_, _, _, rfl, hlog, hlow, hhigh⟩

end CodeAtlas.Double
