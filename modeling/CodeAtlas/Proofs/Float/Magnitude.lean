import CodeAtlas.Proofs.Float.Rounding

/-!
The size of doubles. The exponent of a positive normal double says between which two powers of two
it lies. Those of a product, of a quotient and of the double of a whole number can be told from
those they are computed from, up to the few steps that carries and roundings make.
-/

open Float.Model Float.Model.UnpackedFloat

namespace CodeAtlas.Double

/-- The bits of a double before its mantissa: its sign and its exponent, which of a positive number
is the exponent alone. -/
def scale (x : Float) : Nat :=
  x.toBits.toNat / 2 ^ 52

/-- The mantissa of a normal double, with the highest bit, which is left out of its bits. -/
def significand (x : Float) : Nat :=
  2 ^ 52 + x.toBits.toNat % 2 ^ 52

section Bits

theorem log2_significand (x : Float) : (significand x).log2 = 52 := by
  unfold significand
  exact log2_eq (by omega) (by omega)

theorem significand_pos (x : Float) : 0 < significand x :=
  Nat.add_pos_left (Nat.two_pow_pos 52) _

theorem toBits_eq (x : Float) : x.toBits.toNat + 2 ^ 52 = scale x * 2 ^ 52 + significand x := by
  unfold scale significand
  omega

theorem toNat_packComponents (e : BitVec 11) (m : BitVec 52) :
    (packComponents Format.binary64 .positive e m).toNat = e.toNat * 2 ^ 52 + m.toNat := by
  simp only [packComponents, Sign.toBitVec, BitVec.toNat_append]
  rw [← Nat.shiftLeft_add_eq_or_of_lt m.isLt, Nat.shiftLeft_eq]
  simp

theorem toNat_unpackExponent (b : BitVec 64) :
    (@unpackExponent Format.binary64 b).toNat = b.toNat / 2 ^ 52 % 2 ^ 11 := by
  simp [unpackExponent, BitVec.extractLsb, Nat.shiftRight_eq_div_pow]

theorem toNat_unpackSign (b : BitVec 64) :
    (@unpackSign Format.binary64 b).toNat = b.toNat / 2 ^ 63 % 2 := by
  simp [unpackSign, BitVec.extractLsb, Nat.shiftRight_eq_div_pow]

theorem toNat_unpackMantissa (b : BitVec 64) :
    (@unpackMantissa Format.binary64 b).toNat = b.toNat % 2 ^ 52 := by
  simp [unpackMantissa, BitVec.extractLsb]

theorem unpack_normal (b : BitVec 64) (hlow : 0 < b.toNat / 2 ^ 52)
    (hhigh : b.toNat / 2 ^ 52 < 2047) : UnpackedFloat.unpack Format.binary64 b =
      .finite .positive (2 ^ 52 + b.toNat % 2 ^ 52) ((b.toNat / 2 ^ 52 : Nat) - 1075)
        (Nat.add_pos_left (Nat.two_pow_pos 52) _) := by
  have hexponent := toNat_unpackExponent b
  have hones : @unpackExponent Format.binary64 b ≠ -1#11 := by
    intro h
    rw [h] at hexponent
    simp at hexponent
    omega
  have hzero : @unpackExponent Format.binary64 b ≠ 0#11 := by
    intro h
    rw [h] at hexponent
    simp at hexponent
    omega
  have hpositive : @unpackSign Format.binary64 b = 0#1 := by
    apply BitVec.eq_of_toNat_eq
    rw [toNat_unpackSign]
    simp
    omega
  have hmantissa : (1#1 ++ @unpackMantissa Format.binary64 b).toNat =
      2 ^ 52 + b.toNat % 2 ^ 52 := by
    rw [BitVec.toNat_append, ← Nat.shiftLeft_add_eq_or_of_lt (BitVec.isLt _), toNat_unpackMantissa]
    rfl
  have he : ((b.toNat / 2 ^ 52 % 2 ^ 11 : Nat) : Int) -
      (Format.binary64.exponentBias + (52 : Nat)) = ((b.toNat / 2 ^ 52 : Nat) : Int) - 1075 := by
    simp [Format.exponentBias]
    omega
  simp only [← hmantissa, ← he, ← hexponent]
  unfold UnpackedFloat.unpack
  dsimp only
  rw [hpositive, if_neg hones, if_neg hzero]
  rfl

theorem unpack_eq {x : Float} (hlow : 0 < scale x) (hhigh : scale x < 2047) :
    x.toModel.unpack = .finite .positive (significand x) (scale x - 1075) (significand_pos x) :=
  unpack_normal x.toModel.toBits.toBitVec hlow hhigh

/-- The bits of a positive normal number, read as one number, are its exponent followed by its
mantissa, whose highest bit is left out. -/
theorem toBits_pack {m : Nat} {e : Int} (h : 0 < m) (hm : m.log2 = 52) (hlow : -1074 ≤ e)
    (hhigh : e ≤ 971) :
    ((Float.ofModel (Float.Model.pack (.finite .positive m e h))).toBits.toNat : Int) =
      (e + 1074) * 2 ^ 52 + m := by
  have hexponent : (e + (Format.binary64.exponentBias : Int) + (52 : Nat)).toNat =
      (e + 1075).toNat := by
    simp [Format.exponentBias]
    omega
  have hbits : UnpackedFloat.pack Format.binary64 (.finite .positive m e h) =
      packComponents Format.binary64 .positive (BitVec.ofNat 11 (e + 1075).toNat)
          (BitVec.ofNat 52 m) := by
    simp only [UnpackedFloat.pack, hm]
    rw [hexponent, if_neg (by simp; omega)]
    exact if_pos rfl
  obtain ⟨hm, hm'⟩ := bounds_of_log2 hm
  show ((UnpackedFloat.pack Format.binary64 (.finite .positive m e h)).toNat : Int) = _
  rw [hbits, toNat_packComponents]
  simp only [BitVec.toNat_ofNat]
  omega

theorem scale_pack {m : Nat} {e : Int} (h : 0 < m) (hm : m.log2 = 52) (hlow : -1074 ≤ e)
    (hhigh : e ≤ 971) :
    (scale (.ofModel (Float.Model.pack (.finite .positive m e h))) : Int) = e + 1075 := by
  have hbits := toBits_pack h hm hlow hhigh
  obtain ⟨hm, hm'⟩ := bounds_of_log2 hm
  unfold scale
  omega

end Bits

section Operations

variable {x y : Float} {m : Nat} {e : Int}

/-- The exponent of what has at least 53 bits when it is rounded. -/
theorem scale_round (accuracy : Accuracy) (hm : 52 ≤ m.log2) (hlow : 0 < e + m.log2 + 1023)
    (hhigh : e + m.log2 < 1023) :
    e + m.log2 + 1023 ≤
        scale (.ofModel
        (Float.Model.pack (roundWithAccuracy Format.binary64 .positive m e accuracy))) ∧
      scale (.ofModel
        (Float.Model.pack (roundWithAccuracy Format.binary64 .positive m e accuracy))) ≤
        e + m.log2 + 1024 := by
  obtain ⟨m', e', h, hround, hm', he, he'⟩ :=
    roundWithAccuracy_normal .positive accuracy hm (e := e) (by omega)
  rw [hround, scale_pack h hm' (by omega) (by omega)]
  omega

theorem log2_mul {a b : Nat} (ha : 0 < a) (hb : 0 < b) :
    a.log2 + b.log2 ≤ (a * b).log2 ∧ (a * b).log2 ≤ a.log2 + b.log2 + 1 := by
  have hab : a * b ≠ 0 := (Nat.mul_pos ha hb).ne'
  constructor
  · rw [Nat.le_log2 hab, Nat.pow_add]
    exact Nat.mul_le_mul (Nat.log2_self_le ha.ne') (Nat.log2_self_le hb.ne')
  · rw [← Nat.lt_succ_iff, Nat.log2_lt hab, show (a.log2 + b.log2 + 1).succ =
      (a.log2 + 1) + (b.log2 + 1) by omega, Nat.pow_add]
    exact Nat.mul_lt_mul'' Nat.lt_log2_self Nat.lt_log2_self

theorem mul_eq (hx : 0 < scale x) (hx' : scale x < 2047) (hy : 0 < scale y) (hy' : scale y < 2047) :
    x * y = .ofModel
      (Float.Model.pack (roundWithAccuracy Format.binary64 .positive (significand x * significand y)
          (scale x - 1075 + (scale y - 1075)) .exact)) := by
  show Float.ofModel
    (Float.Model.pack (UnpackedFloat.mul Format.binary64 x.toModel.unpack y.toModel.unpack)) = _
  rw [unpack_eq hx hx', unpack_eq hy hy']
  rfl

theorem scale_mul (hx : 0 < scale x) (hx' : scale x < 2047) (hy : 0 < scale y)
    (hy' : scale y < 2047) (hlow : 1023 < scale x + scale y) (hhigh : scale x + scale y < 3068) :
    scale x + scale y ≤ scale (x * y) + 1023 ∧ scale (x * y) + 1021 ≤ scale x + scale y := by
  have hm := log2_significand x
  have hm' := log2_significand y
  obtain ⟨hl, hl'⟩ := log2_mul (significand_pos x) (significand_pos y)
  obtain ⟨hs, hs'⟩ :=
    scale_round (m := significand x * significand y) (e := scale x - 1075 + (scale y - 1075)) .exact
      (by omega) (by omega) (by omega)
  rw [← mul_eq hx hx' hy hy'] at hs hs'
  omega

theorem log2_shiftLeft_div {a b : Nat} (ha : a.log2 = 52) (hb : b.log2 = 52) :
    52 ≤ ((a <<< 53) / b).log2 ∧ ((a <<< 53) / b).log2 ≤ 53 := by
  obtain ⟨hla, hla'⟩ := bounds_of_log2 ha
  obtain ⟨hlb, hlb'⟩ := bounds_of_log2 hb
  have hlow : 2 ^ 52 ≤ (a <<< 53) / b := by
    rw [Nat.le_div_iff_mul_le (by omega), Nat.shiftLeft_eq]
    omega
  have hhigh : (a <<< 53) / b < 2 ^ 54 := by
    rw [Nat.div_lt_iff_lt_mul (by omega), Nat.shiftLeft_eq]
    omega
  constructor
  · rwa [Nat.le_log2 (by omega)]
  · rw [← Nat.lt_succ_iff, Nat.log2_lt (by omega)]
    exact hhigh

theorem divCore_eq {m m' : Nat} {e e' : Int} (hm : m.log2 = 52) (hm' : m'.log2 = 52)
    (hlow : -1021 ≤ e - e') : divCore Format.binary64 m e m' e' =
      ((m <<< 53) / m', e - e' - 53, accuracyOfFraction ((m <<< 53) % m') m') := by
  have htarget :
      min (e - e') (Format.binary64.targetExponent (totalExponent m e - totalExponent m' e')) =
      e - e' - 53 := by
    simp only [Format.targetExponent, totalExponent, Format.mantissaBits, Format.minExponent, hm,
      hm']
    norm_num
    omega
  have hshift : (e - e' - (e - e' - 53)).toNat = 53 := by omega
  simp only [divCore, htarget, hshift]

theorem div_normal {m m' : Nat} {e e' : Int} (h : 0 < m) (h' : 0 < m') (hm : m.log2 = 52)
    (hm' : m'.log2 = 52) (hlow : -1021 ≤ e - e') :
    UnpackedFloat.div Format.binary64 (.finite .positive m e h) (.finite .positive m' e' h') =
      roundWithAccuracy Format.binary64 .positive ((m <<< 53) / m') (e - e' - 53)
        (accuracyOfFraction ((m <<< 53) % m') m') := by
  show roundWithAccuracy Format.binary64 .positive (divCore Format.binary64 m e m' e').1
    (divCore Format.binary64 m e m' e').2.1 (divCore Format.binary64 m e m' e').2.2 = _
  rw [divCore_eq hm hm' hlow]

theorem div_eq (hx : 0 < scale x) (hx' : scale x < 2047) (hy : 0 < scale y) (hy' : scale y < 2047)
    (hnear : scale y ≤ scale x + 1021) :
    x / y = .ofModel (Float.Model.pack (roundWithAccuracy Format.binary64 .positive
      ((significand x <<< 53) / significand y) (scale x - scale y - 53)
      (accuracyOfFraction ((significand x <<< 53) % significand y) (significand y)))) := by
  show Float.ofModel
    (Float.Model.pack (UnpackedFloat.div Format.binary64 x.toModel.unpack y.toModel.unpack)) = _
  rw [unpack_eq hx hx', unpack_eq hy hy', div_normal _ _ (log2_significand x) (log2_significand y)
    (by omega), show (scale x : Int) - 1075 - (scale y - 1075) - 53 =
    scale x - scale y - 53 by omega]

theorem scale_div (hx : 0 < scale x) (hx' : scale x < 2047) (hy : 0 < scale y)
    (hy' : scale y < 2047) (hlow : scale y ≤ scale x + 1021) (hhigh : scale x < scale y + 1023) :
    scale x + 1022 ≤ scale (x / y) + scale y ∧ scale (x / y) + scale y ≤ scale x + 1024 := by
  obtain ⟨hl, hl'⟩ := log2_shiftLeft_div (log2_significand x) (log2_significand y)
  obtain ⟨hs, hs'⟩ :=
    scale_round (m := (significand x <<< 53) / significand y) (e := scale x - scale y - 53)
      (accuracyOfFraction ((significand x <<< 53) % significand y) (significand y)) (by omega)
        (by omega) (by omega)
  rw [← div_eq hx hx' hy hy' hlow] at hs hs'
  omega

theorem zero_div (hy : 0 < scale y) (hy' : scale y < 2047) : Float.ofNat 0 / y = 0.0 := by
  have hzero : (Float.ofNat 0).toModel.unpack = .zero .positive := rfl
  have heq : Float.ofNat 0 / y = .ofModel (Float.Model.pack
      (UnpackedFloat.div Format.binary64 (Float.ofNat 0).toModel.unpack y.toModel.unpack)) := rfl
  have hquotient : UnpackedFloat.div Format.binary64 (.zero .positive)
      (.finite .positive (significand y) (scale y - 1075) (significand_pos y)) = .zero .positive :=
        rfl
  rw [heq, hzero, unpack_eq hy hy', hquotient]
  rfl

theorem scale_zero_div (hy : 0 < scale y) (hy' : scale y < 2047) :
    scale (Float.ofNat 0 / y) = 0 := by
  rw [zero_div hy hy']
  rfl

theorem scale_one : scale 1.0 = 1023 := by
  rfl

theorem unpack_one :
    (1.0 : Float).toModel.unpack = .finite .positive (2 ^ 52) (-52) (by decide) := by
  rfl

theorem log2_shiftLeft_sub {a k : Nat} (ha : a.log2 = 52) :
    52 + k ≤ ((a <<< (k + 1)) - 2 ^ 52).log2 ∧ ((a <<< (k + 1)) - 2 ^ 52).log2 ≤ 53 + k := by
  obtain ⟨hla, hla'⟩ := bounds_of_log2 ha
  have hpos : 0 < 2 ^ k := Nat.two_pow_pos k
  have hmul := Nat.mul_le_mul_right (2 ^ k) hla
  have hmul' := Nat.mul_lt_mul_of_pos_right hla' hpos
  rw [Nat.shiftLeft_eq, Nat.pow_succ, ← Nat.mul_assoc]
  have hne : a * 2 ^ k * 2 - 2 ^ 52 ≠ 0 := by omega
  constructor
  · rw [Nat.le_log2 hne, Nat.pow_add]
    omega
  · rw [← Nat.lt_succ_iff, Nat.log2_lt hne, show (53 + k).succ = 54 + k by omega, Nat.pow_add]
    omega

theorem round_eq {m : Nat} {e : Int} (s : Sign) (he : -1074 ≤ e + m.log2 - 52) :
    UnpackedFloat.round Format.binary64 s m e =
      roundWithAccuracy Format.binary64 s (m <<< (52 - m.log2)) (e - (52 - m.log2 : Nat))
          .exact := by
  have hshift : (e - (e + m.log2 - 52)).toNat = 52 - m.log2 := by omega
  simp only [UnpackedFloat.round, targetExponent_eq he, decreaseExponent, hshift]

theorem normalize_natCast {m : Nat} (h : 0 < m) (e : Int) (s : Sign) :
    UnpackedFloat.normalize Format.binary64 m e s =
      UnpackedFloat.round Format.binary64 .positive m e := by
  have hgt : compare (m : Int) 0 = .gt := Int.compare_eq_gt.mpr (by omega)
  simp only [UnpackedFloat.normalize, hgt, Int.toNat_natCast]

theorem sub_one {m k : Nat} (h : 0 < m) (hm : m.log2 = 52) :
    UnpackedFloat.sub Format.binary64 (.finite .positive m (k - 51) h)
      (.finite .positive (2 ^ 52) (-52) (by decide)) =
      roundWithAccuracy Format.binary64 .positive ((m <<< (k + 1)) - 2 ^ 52) (-52) .exact := by
  obtain ⟨hl, -⟩ := log2_shiftLeft_sub (k := k) hm
  have hpos : 0 < (m <<< (k + 1)) - 2 ^ 52 := Nat.pos_of_ne_zero (ne_zero_of_log2 (by omega))
  have hnone : 52 - ((m <<< (k + 1)) - 2 ^ 52).log2 = 0 := Nat.sub_eq_zero_of_le (by omega)
  have hmin : min ((k : Int) - 51) (-52) = -52 := by omega
  have hshift : ((k : Int) - 51 - -52).toNat = k + 1 := by omega
  have hshift' : ((-52 : Int) - -52).toNat = 0 := rfl
  have hcast : ((m <<< (k + 1) : Nat) : Int) - ((2 ^ 52 <<< 0 : Nat) : Int) =
      ((m <<< (k + 1)) - 2 ^ 52 : Nat) := by
    simp only [Nat.shiftLeft_zero]
    omega
  simp only [UnpackedFloat.sub, decreaseExponent, hmin, hshift, hshift', Sign.apply, hcast,
    normalize_natCast hpos]
  rw [round_eq _ (by omega), hnone]
  simp

theorem scale_sub_one (hx : 1024 ≤ scale x) (hx' : scale x < 2045) :
    scale x ≤ scale (x - 1.0) + 1 ∧ scale (x - 1.0) ≤ scale x + 1 := by
  obtain ⟨hl, hl'⟩ := log2_shiftLeft_sub (k := scale x - 1024) (log2_significand x)
  obtain ⟨hs, hs'⟩ :=
    scale_round (m := (significand x <<< (scale x - 1024 + 1)) - 2 ^ 52)
      (e := -52) .exact (by omega) (by omega) (by omega)
  have heq : x - 1.0 = .ofModel (Float.Model.pack
      (UnpackedFloat.sub Format.binary64 x.toModel.unpack (1.0 : Float).toModel.unpack)) := rfl
  have he : (scale x : Int) - 1075 = (scale x - 1024 : Nat) - 51 := by omega
  rw [unpack_eq (by omega) (by omega), unpack_one, he, sub_one (significand_pos x)
    (log2_significand x)] at heq
  rw [← heq] at hs hs'
  omega

theorem log2_shiftLeft {a : Nat} (h : 0 < a) (k : Nat) : (a <<< k).log2 = a.log2 + k := by
  obtain ⟨hl, hl'⟩ := (Nat.log2_eq_iff h.ne').mp rfl
  have hpos := Nat.two_pow_pos k
  rw [Nat.shiftLeft_eq, Nat.log2_eq_iff (Nat.mul_pos h hpos).ne']
  constructor
  · rw [Nat.pow_add]
    exact Nat.mul_le_mul_right _ hl
  · rw [Nat.add_right_comm, Nat.pow_add]
    exact Nat.mul_lt_mul_of_pos_right hl' hpos

theorem ofNat_of_lt {n : Nat} (h : n < 2 ^ 53) :
    Float.ofNat n = n.toUInt64.toFloat * Float.ofBits 0x3FF0000000000000 := by
  show Float.ofScientific n false 0 = _
  unfold Float.ofScientific
  rw [dif_pos ⟨h, by decide⟩]
  rfl

theorem ofNat_of_le {n : Nat} (h : 2 ^ 53 ≤ n) :
    Float.ofNat n = .ofModel (Float.Model.ofScientific n 0) := by
  show Float.ofScientific n false 0 = _
  unfold Float.ofScientific
  rw [dif_neg (by omega)]
  rfl

theorem toFloat_eq {n : UInt64} (hpos : 0 < n.toNat) :
    n.toFloat = .ofModel (Float.Model.pack (roundWithAccuracy Format.binary64 .positive
      (n.toNat <<< (52 - n.toNat.log2)) (0 - (52 - n.toNat.log2 : Nat)) .exact)) := by
  rw [← round_eq _ (by omega), ← normalize_natCast hpos]
  rfl

theorem ofNat_eq {n : Nat} (h : 2 ^ 53 ≤ n) :
    Float.ofNat n = .ofModel (Float.Model.pack
      (roundWithAccuracy Format.binary64 .positive ((n <<< 53) * 1) (-53 + 0) .exact)) := by
  rw [ofNat_of_le h]
  unfold Float.Model.ofScientific UnpackedFloat.ofScientific
  have hlarge : ¬ (0 : Int) < -((2 ^ Format.binary64.exponentBits : Int) + n.log2) := by
    norm_num
  rw [dif_neg (by omega), if_neg (by decide), if_neg hlarge, if_pos (by decide)]
  rfl

theorem scale_toFloat {n : UInt64} (hpos : 0 < n.toNat) (h : n.toNat < 2 ^ 53) :
    n.toNat.log2 + 1023 ≤ scale n.toFloat ∧ scale n.toFloat ≤ n.toNat.log2 + 1024 := by
  have hlog : n.toNat.log2 < 53 := (Nat.log2_lt hpos.ne').mpr h
  have hshift : (n.toNat <<< (52 - n.toNat.log2)).log2 = 52 := by
    rw [log2_shiftLeft hpos]
    omega
  obtain ⟨hs, hs'⟩ :=
    scale_round (m := n.toNat <<< (52 - n.toNat.log2)) (e := 0 - (52 - n.toNat.log2 : Nat)) .exact
      (by omega) (by omega) (by omega)
  rw [← toFloat_eq hpos] at hs hs'
  omega

theorem scale_ofNat {n : Nat} (hpos : 0 < n) (h : n < 2 ^ 64) :
    n.log2 + 1023 ≤ scale (Float.ofNat n) ∧ scale (Float.ofNat n) ≤ n.log2 + 1026 := by
  have hlog : n.log2 < 64 := (Nat.log2_lt hpos.ne').mpr h
  by_cases hn : n < 2 ^ 53
  · have hword : n.toUInt64.toNat = n := Nat.mod_eq_of_lt h
    have hone : scale (Float.ofBits 0x3FF0000000000000) = 1023 := rfl
    obtain ⟨hs, hs'⟩ := scale_toFloat (n := n.toUInt64) (by omega) (by omega)
    rw [hword] at hs hs'
    obtain ⟨hm, hm'⟩ :=
      scale_mul (x := n.toUInt64.toFloat) (y := Float.ofBits 0x3FF0000000000000)
        (by omega) (by omega) (by omega) (by omega) (by omega) (by omega)
    rw [ofNat_of_lt hn]
    omega
  · have hshift : ((n <<< 53) * 1).log2 = n.log2 + 53 := by
      rw [Nat.mul_one, log2_shiftLeft hpos]
    obtain ⟨hs, hs'⟩ :=
      scale_round (m := (n <<< 53) * 1) (e := -53 + 0) .exact (by omega) (by omega) (by omega)
    rw [← ofNat_eq (by omega)] at hs hs'
    omega

end Operations

end CodeAtlas.Double
