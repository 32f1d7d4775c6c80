import CodeAtlas.Proofs.Float.Magnitude

/-!
Rounding to the nearest double. The two bits that are kept of what a shift drops tell on which side
of the middle the number lies, and the bits of the result are those of the exponent and the rounded
mantissa added up: a mantissa that rounding carries to the next power of two goes over into the
exponent.
-/

open Float.Model Float.Model.UnpackedFloat

namespace CodeAtlas.Double

/-- Where the quotient of two numbers lies, from a mantissa and its two bits: at the mantissa, below
the middle to the next one, at the middle, or above it. -/
def Marks (n d : Nat) : ExtendedMantissa → Prop
  | ⟨m, false, false⟩ => n = d * m
  | ⟨m, false, true⟩ => d * m < n ∧ 2 * n < 2 * (d * m) + d
  | ⟨m, true, false⟩ => 2 * n = 2 * (d * m) + d
  | ⟨m, true, true⟩ => 2 * (d * m) + d < 2 * n ∧ n < d * m + d

section Shift

variable {n d : Nat} {em : ExtendedMantissa}

theorem Marks.shiftRightOne (h : Marks n d em) (hd : 0 < d) : Marks n (2 * d) em.shiftRightOne := by
  obtain ⟨m, round, sticky⟩ := em
  have hm : d * m = 2 * d * (m / 2) + d * (m % 2) := by
    conv_lhs => rw [← Nat.div_add_mod m 2]
    ring
  rcases Nat.mod_two_eq_zero_or_one m with hbit | hbit <;> cases round <;> cases sticky <;>
    simp only [Marks, ExtendedMantissa.shiftRightOne, hm, hbit, Nat.mul_zero, Nat.mul_one,
      Nat.add_zero, bne_self_eq_false, Bool.or_false, Bool.or_true, show (1 != 0) = true from rfl]
      at h ⊢ <;> omega

theorem marks_shiftRight (n k : Nat) :
    Marks n (2 ^ k) (ExtendedMantissa.ofMantissaAndAccuracy n .exact >>> k) := by
  induction k with
  | zero => exact (Nat.one_mul n).symm
  | succ k ih =>
    rw [Nat.pow_succ, Nat.mul_comm]
    exact ih.shiftRightOne (Nat.two_pow_pos k)

/-- The rounded mantissa is no farther from the quotient than half. -/
theorem Marks.nearest (h : Marks n d em) :
    2 * n ≤ 2 * (d * em.roundedMantissa) + d ∧ 2 * (d * em.roundedMantissa) ≤ 2 * n + d := by
  obtain ⟨m, round, sticky⟩ := em
  cases round <;> cases sticky <;>
    simp only [Marks, ExtendedMantissa.roundedMantissa, ExtendedMantissa.accuracy,
      Accuracy.roundToNearestEven, Nat.mul_add, Nat.mul_one] at h ⊢
  · omega
  · omega
  · rcases Nat.mod_two_eq_zero_or_one m with hbit | hbit <;> rw [hbit] <;> omega
  · omega

end Shift

section Round

variable {m : Nat} {e : Int}

/-- The mantissa to which a number is rounded, with one bit more where all of its bits are
carried. -/
def rounded (m : Nat) (e : Int) (accuracy : Accuracy) : Nat :=
  (shiftToTargetExponent Format.binary64 m e accuracy).1.roundedMantissa

theorem rounded_bounds (accuracy : Accuracy) (hm : 52 ≤ m.log2) (he : -1074 ≤ e + m.log2 - 52) :
    m / 2 ^ (m.log2 - 52) ≤ rounded m e accuracy ∧
      rounded m e accuracy ≤ m / 2 ^ (m.log2 - 52) + 1 := by
  have hr := roundedMantissa_bounds (shiftToTargetExponent Format.binary64 m e accuracy).1
  rwa [(shiftToTargetExponent_eq accuracy hm he).1] at hr

theorem rounded_normal (accuracy : Accuracy) (hm : 52 ≤ m.log2) (he : -1074 ≤ e + m.log2 - 52) :
    2 ^ 52 ≤ rounded m e accuracy ∧ rounded m e accuracy ≤ 2 ^ 53 := by
  obtain ⟨hs, hs'⟩ := shifted_bounds hm
  obtain ⟨hr, hr'⟩ := rounded_bounds accuracy hm he
  omega

theorem rounded_nearest (hm : 52 ≤ m.log2) (he : -1074 ≤ e + m.log2 - 52) :
    2 * m ≤ 2 * (2 ^ (m.log2 - 52) * rounded m e .exact) + 2 ^ (m.log2 - 52) ∧
      2 * (2 ^ (m.log2 - 52) * rounded m e .exact) ≤ 2 * m + 2 ^ (m.log2 - 52) := by
  have hshift : (e + m.log2 - 52 - e).toNat = m.log2 - 52 := by omega
  have hmarks := marks_shiftRight m (m.log2 - 52)
  rw [rounded, shiftToTargetExponent, targetExponent_eq he, shiftToExponent, hshift]
  exact hmarks.nearest

theorem second_shift_eq {r : Nat} (hlow : 2 ^ 52 ≤ r) (hhigh : r ≤ 2 ^ 53) (he : -1074 ≤ e) :
    (shiftToTargetExponent Format.binary64 r e .exact).2 * 2 ^ 52 +
        (shiftToTargetExponent Format.binary64 r e .exact).1.mantissa = e * 2 ^ 52 + r := by
  by_cases hr : r = 2 ^ 53
  · have hlog : r.log2 = 53 := by rw [hr]; exact Nat.log2_two_pow
    obtain ⟨hmantissa, hexponent⟩ :=
      shiftToTargetExponent_eq (m := r) (e := e) .exact (by omega) (by omega)
    rw [hmantissa, hexponent, hlog, hr]
    norm_num
    omega
  · have hlog := log2_eq hlow (by omega)
    obtain ⟨hmantissa, hexponent⟩ :=
      shiftToTargetExponent_eq (m := r) (e := e) .exact (by omega) (by omega)
    rw [hmantissa, hexponent, hlog]
    norm_num

/-- The bits of what is rounded. -/
theorem toBits_round (accuracy : Accuracy) (hm : 52 ≤ m.log2) (hlow : 0 < e + m.log2 + 1023)
    (hhigh : e + m.log2 < 1023) :
    ((Float.ofModel
      (Float.Model.pack (roundWithAccuracy Format.binary64 .positive m e accuracy))).toBits.toNat :
      Int) = (e + m.log2 + 1022) * 2 ^ 52 + rounded m e accuracy := by
  obtain ⟨hr, hr'⟩ := rounded_normal accuracy hm (e := e) (by omega)
  obtain ⟨-, hexponent⟩ := shiftToTargetExponent_eq accuracy hm (e := e) (by omega)
  obtain ⟨hlog, he, he'⟩ := log2_second_shift (e := e + m.log2 - 52) hr hr' (by omega)
  have hsum := second_shift_eq (e := e + m.log2 - 52) hr hr' (by omega)
  have hpos := bounds_of_log2 hlog
  unfold roundWithAccuracy
  dsimp only
  rw [hexponent]
  unfold rounded at hpos hlog hsum he he' ⊢
  rw [dif_neg (by omega), toBits_pack _ hlog (by omega) (by omega)]
  omega

end Round

end CodeAtlas.Double
