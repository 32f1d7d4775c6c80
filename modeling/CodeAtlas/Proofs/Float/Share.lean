import CodeAtlas.Proofs.Float.Nearest

/-!
Shares as doubles. Positive doubles are in order as their bits are, the double of a larger whole
number is no smaller, and the quotient of the doubles of two whole numbers, the second at least the
first, lies between zero and one.
-/

open Float.Model Float.Model.UnpackedFloat

namespace CodeAtlas.Double

section Order

variable {x y : Float}

theorem le_iff : x ≤ y ↔ (x.toModel.unpack.compare y.toModel.unpack).any (·.isLE) = true :=
  decide_eq_true_iff

theorem scale_le (h : x.toBits.toNat ≤ y.toBits.toNat) : scale x ≤ scale y :=
  Nat.div_le_div_right h

/-- Positive doubles are in order as their bits are. -/
theorem le_of_toBits_le (hx : 0 < scale x) (hy : scale y < 2047)
    (h : x.toBits.toNat ≤ y.toBits.toNat) : x ≤ y := by
  have hscale := scale_le h
  rw [le_iff, unpack_eq hx (by omega), unpack_eq (x := y) (by omega) hy]
  show ((compare ((scale x : Int) - 1075) (scale y - 1075)).then _).isLE = true
  rcases Nat.lt_or_eq_of_le hscale with hlt | heq
  · rw [Int.compare_eq_lt.mpr (by omega)]
    rfl
  · have hx := toBits_eq x
    have hy := toBits_eq y
    rw [heq, Int.compare_eq_eq.mpr rfl, Ordering.eq_then, Nat.isLE_compare]
    omega

theorem zero_le_of_scale (hx : 0 < scale x) (hx' : scale x < 2047) : 0.0 ≤ x := by
  rw [le_iff, unpack_eq hx hx']
  rfl

end Order

section Whole

variable {x : Float} {n m : Nat}

theorem le_of_mul_lt (d : Nat) {a b : Nat} (h : d * a < d * b + d) : a ≤ b := by
  rw [← Nat.mul_succ] at h
  exact Nat.le_of_lt_succ (Nat.lt_of_mul_lt_mul_left h)

/-- Rounding keeps what has no more than 53 bits. -/
theorem rounded_shiftLeft {k : Nat} {e : Int} (hm : m.log2 = 52) (he : -1074 ≤ e + k) :
    rounded (m <<< k) e .exact = m := by
  obtain ⟨hlow, -⟩ := bounds_of_log2 hm
  have hlog : (m <<< k).log2 = 52 + k := by rw [log2_shiftLeft (by omega), hm]
  obtain ⟨hr, hr'⟩ := rounded_nearest (m := m <<< k) (e := e) (by omega) (by omega)
  have hpos := Nat.two_pow_pos k
  rw [hlog, Nat.add_sub_cancel_left] at hr hr'
  generalize rounded (m <<< k) e .exact = r at hr hr' ⊢
  rw [Nat.shiftLeft_eq, Nat.mul_comm m] at hr hr'
  exact Nat.le_antisymm (le_of_mul_lt (2 ^ k) (by omega)) (le_of_mul_lt (2 ^ k) (by omega))

/-- The bits of a product with one are those of the other factor. -/
theorem toBits_mul_one (hx : 0 < scale x) (hx' : scale x < 2046) :
    (x * Float.ofBits 0x3FF0000000000000).toBits.toNat = x.toBits.toNat := by
  have hone : scale (Float.ofBits 0x3FF0000000000000) = 1023 := rfl
  have hmantissa : significand (Float.ofBits 0x3FF0000000000000) = 2 ^ 52 := rfl
  have heq := mul_eq (y := Float.ofBits 0x3FF0000000000000) hx (by omega) (by omega) (by omega)
  rw [hone, hmantissa, ← Nat.shiftLeft_eq] at heq
  have hlog := log2_significand x
  have hshift : (significand x <<< 52).log2 = 104 := by
    rw [log2_shiftLeft (significand_pos x), hlog]
  have hround :=
    toBits_round (m := significand x <<< 52) (e := scale x - 1075 + ((1023 : Nat) - 1075)) .exact
      (by omega) (by omega) (by omega)
  rw [← heq, rounded_shiftLeft hlog (by omega), hshift] at hround
  have hbits := toBits_eq x
  omega

theorem toBits_toFloat {n : UInt64} (hpos : 0 < n.toNat) (h : n.toNat < 2 ^ 53) :
    n.toFloat.toBits.toNat = (n.toNat.log2 + 1022) * 2 ^ 52 + n.toNat <<< (52 - n.toNat.log2) := by
  have hlog : n.toNat.log2 < 53 := (Nat.log2_lt hpos.ne').mpr h
  have hshift : (n.toNat <<< (52 - n.toNat.log2)).log2 = 52 := by
    rw [log2_shiftLeft hpos]
    omega
  have hbits :=
    toBits_round (m := n.toNat <<< (52 - n.toNat.log2)) (e := 0 - (52 - n.toNat.log2 : Nat)) .exact
      (by omega) (by omega) (by omega)
  have hrounded := rounded_shiftLeft (k := 0) (e := 0 - (52 - n.toNat.log2 : Nat)) hshift (by omega)
  rw [Nat.shiftLeft_zero] at hrounded
  rw [← toFloat_eq hpos, hrounded, hshift] at hbits
  omega

/-- The bits of the double of a whole number are those of its exponent and of a mantissa next to the
number. -/
theorem toBits_ofNat (hpos : 0 < n) (h : n < 2 ^ 192) :
    ∃ r, (Float.ofNat n).toBits.toNat = (n.log2 + 1022) * 2 ^ 52 + r ∧ 2 ^ 52 ≤ r ∧ r ≤ 2 ^ 53 ∧
      2 ^ 53 * n ≤ 2 ^ (n.log2 + 1) * r + 2 ^ n.log2 ∧
          2 ^ (n.log2 + 1) * r ≤ 2 ^ 53 * n + 2 ^ n.log2 := by
  have hlog : n.log2 < 192 := (Nat.log2_lt hpos.ne').mpr h
  by_cases hn : n < 2 ^ 53
  · have hlog' : n.log2 < 53 := (Nat.log2_lt hpos.ne').mpr hn
    have hword : n.toUInt64.toNat = n := Nat.mod_eq_of_lt (by omega)
    obtain ⟨hs, hs'⟩ := scale_toFloat (n := n.toUInt64) (by omega) (by omega)
    have hbits := toBits_toFloat (n := n.toUInt64) (by omega) (by omega)
    rw [hword] at hs hs' hbits
    have hshift : (n <<< (52 - n.log2)).log2 = 52 := by
      rw [log2_shiftLeft hpos]
      omega
    obtain ⟨hr, hr'⟩ := bounds_of_log2 hshift
    have hexact : 2 ^ (n.log2 + 1) * n <<< (52 - n.log2) = 2 ^ 53 * n := by
      rw [Nat.shiftLeft_eq, Nat.mul_left_comm, ← Nat.pow_add, Nat.mul_comm]
      congr 2
      omega
    refine ⟨n <<< (52 - n.log2), ?_, hr, hr'.le, hexact.ge.trans (Nat.le_add_right _ _),
      hexact.le.trans (Nat.le_add_right _ _)⟩
    rw [ofNat_of_lt hn, toBits_mul_one (by omega) (by omega), hbits]
  · have hshift : ((n <<< 53) * 1).log2 = n.log2 + 53 := by
      rw [Nat.mul_one, log2_shiftLeft hpos]
    have hbits :=
      toBits_round (m := (n <<< 53) * 1) (e := -53 + 0) .exact (by omega) (by omega) (by omega)
    obtain ⟨hr, hr'⟩ :=
      rounded_normal (m := (n <<< 53) * 1) (e := -53 + 0) .exact (by omega) (by omega)
    obtain ⟨hnear, hnear'⟩ :=
      rounded_nearest (m := (n <<< 53) * 1) (e := -53 + 0) (by omega) (by omega)
    rw [← ofNat_eq (by omega)] at hbits
    generalize rounded ((n <<< 53) * 1) (-53 + 0) .exact = r at hbits hr hr' hnear hnear'
    rw [hshift] at hbits hnear hnear'
    rw [show n.log2 + 53 - 52 = n.log2 + 1 by omega, Nat.mul_one, Nat.shiftLeft_eq, Nat.mul_comm n]
      at hnear hnear'
    have hpow := Nat.pow_succ 2 n.log2
    exact ⟨r, by omega, hr, hr', by omega, by omega⟩

/-- The double of a larger whole number is no smaller. -/
theorem toBits_ofNat_le (hpos : 0 < n) (hle : n ≤ m) (h : m < 2 ^ 192) :
    (Float.ofNat n).toBits.toNat ≤ (Float.ofNat m).toBits.toNat := by
  obtain ⟨r, hbits, hr, hr', -, hnear⟩ := toBits_ofNat hpos (by omega)
  obtain ⟨r', hbits', hlow, -, hnear', -⟩ := toBits_ofNat (n := m) (by omega) h
  have hlog : n.log2 ≤ m.log2 := by
    rw [Nat.le_log2 (by omega)]
    exact (Nat.log2_self_le hpos.ne').trans hle
  rcases Nat.lt_or_eq_of_le hlog with hlt | heq
  · omega
  · rcases Nat.lt_or_eq_of_le hle with hlt | rfl
    · -- Two mantissas in the wrong order would be farther apart than the numbers they are next to.
      have hrr : r ≤ r' := by
        rw [← heq] at hnear'
        have hpow := Nat.pow_succ 2 n.log2
        exact le_of_mul_lt (2 ^ (n.log2 + 1)) (by omega)
      omega
    · exact Nat.le_refl _

theorem scale_ofNat_bounds (hpos : 0 < n) (h : n < 2 ^ 192) :
    1023 ≤ scale (Float.ofNat n) ∧ scale (Float.ofNat n) ≤ 1215 := by
  obtain ⟨r, hbits, hr, hr', -, -⟩ := toBits_ofNat hpos h
  have hlog : n.log2 < 192 := (Nat.log2_lt hpos.ne').mpr h
  unfold scale
  omega

end Whole

section Quotient

variable {x y : Float}

theorem eq_of_toBits (h : x.toBits.toNat = y.toBits.toNat) : x = y := by
  obtain ⟨⟨xbits, hx⟩⟩ := x
  obtain ⟨⟨ybits, hy⟩⟩ := y
  obtain rfl : xbits = ybits := UInt64.toNat_inj.mp h
  rfl

theorem toBits_one : (1.0 : Float).toBits.toNat = 1023 * 2 ^ 52 :=
  rfl

theorem div_self (hx : 0 < scale x) (hx' : scale x < 2047) : x / x = 1.0 := by
  have hquotient : (significand x <<< 53) / significand x = 2 ^ 52 <<< 1 := by
    rw [Nat.shiftLeft_eq, Nat.mul_div_cancel_left _ (significand_pos x)]
    rfl
  have hrest : accuracyOfFraction ((significand x <<< 53) % significand x) (significand x) =
      .exact := by
    rw [Nat.shiftLeft_eq, Nat.mul_mod_right]
    rfl
  have heq := div_eq hx hx' hx hx' (by omega)
  rw [hquotient, hrest] at heq
  have hlog : (2 ^ 52 <<< 1).log2 = 53 := Nat.log2_two_pow (n := 53)
  have hround :=
    toBits_round (m := 2 ^ 52 <<< 1) (e := scale x - scale x - 53) .exact (by omega)
      (by omega) (by omega)
  rw [← heq, rounded_shiftLeft Nat.log2_two_pow (by omega), hlog] at hround
  apply eq_of_toBits
  rw [toBits_one]
  omega

/-- The quotient of two doubles in order is no larger than one. -/
theorem div_le_one (hx : 0 < scale x) (hy : scale y < 2047) (hnear : scale y ≤ scale x + 1021)
    (h : x.toBits.toNat ≤ y.toBits.toNat) : x / y ≤ 1.0 := by
  have hscale := scale_le h
  obtain ⟨hdiv, hdiv'⟩ := scale_div hx (by omega) (by omega) hy hnear (by omega)
  have hone := scale_one
  apply le_of_toBits_le (by omega) (by omega)
  rw [toBits_one]
  rcases Nat.lt_or_eq_of_le h with hlt | heq
  · obtain ⟨hlog, hlog'⟩ := log2_shiftLeft_div (log2_significand x) (log2_significand y)
    have hround :=
      toBits_round (m := (significand x <<< 53) / significand y) (e := scale x - scale y - 53)
        (accuracyOfFraction ((significand x <<< 53) % significand y) (significand y)) hlog
          (by omega) (by omega)
    obtain ⟨-, hr⟩ :=
      rounded_normal (m := (significand x <<< 53) / significand y) (e := scale x - scale y - 53)
        (accuracyOfFraction ((significand x <<< 53) % significand y) (significand y)) hlog
          (by omega)
    rw [← div_eq hx (by omega) (by omega) hy hnear] at hround
    -- Of two doubles with one exponent the smaller has the smaller mantissa, and the quotient one
    -- bit less.
    have hcarry : scale x = scale y → ((significand x <<< 53) / significand y).log2 = 52 := by
      intro hsame
      have hbits := toBits_eq x
      have hbits' := toBits_eq y
      have hlow : (significand x <<< 53) / significand y < 2 ^ 53 := by
        rw [Nat.div_lt_iff_lt_mul (significand_pos y), Nat.shiftLeft_eq]
        omega
      have hshort := (Nat.log2_lt (ne_zero_of_log2 (by omega))).mpr hlow
      omega
    omega
  · rw [eq_of_toBits heq, div_self (by omega) hy, toBits_one]

end Quotient

section Share

variable {n m : Nat}

theorem share_zero (hm : 0 < m) (h : m < 2 ^ 192) : Float.ofNat 0 / Float.ofNat m = 0.0 := by
  obtain ⟨hs, hs'⟩ := scale_ofNat_bounds hm h
  exact zero_div (by omega) (by omega)

theorem share_self (hm : 0 < m) (h : m < 2 ^ 192) : Float.ofNat m / Float.ofNat m = 1.0 := by
  obtain ⟨hs, hs'⟩ := scale_ofNat_bounds hm h
  exact div_self (by omega) (by omega)

/-- The share of a part in a whole is between zero and one. -/
theorem share_bounds (hm : 0 < m) (hle : n ≤ m) (h : m < 2 ^ 192) :
    0.0 ≤ Float.ofNat n / Float.ofNat m ∧ Float.ofNat n / Float.ofNat m ≤ 1.0 := by
  rcases Nat.eq_zero_or_pos n with rfl | hn
  · rw [share_zero hm h]
    exact ⟨rfl, rfl⟩
  · obtain ⟨hs, hs'⟩ := scale_ofNat_bounds hn (by omega)
    obtain ⟨ht, ht'⟩ := scale_ofNat_bounds hm h
    have hbits := toBits_ofNat_le hn hle h
    have hscale := scale_le hbits
    obtain ⟨hdiv, hdiv'⟩ :=
      scale_div (x := Float.ofNat n) (y := Float.ofNat m) (by omega) (by omega)
        (by omega) (by omega) (by omega) (by omega)
    exact ⟨zero_le_of_scale (by omega) (by omega), div_le_one (by omega) (by omega)
      (by omega) hbits⟩

end Share

end CodeAtlas.Double
