import CodeAtlas.Proofs.Document.Number
import CodeAtlas.Proofs.Float.Magnitude

/-!
Real numbers in texts. What is written for a double below `2^53` that is not negative is taken off a
text as a real number. Such a number is below `10^16`, so its digits before the point fit in 64 bits
and more digits follow, or the exponent is negative: in both cases the number that is read is a
quotient, which never is too great for a double.
-/

namespace CodeAtlas.Document

open Decimal

namespace Numeral

theorem takeDigits_of_le {n : Nat} {ds : List Nat}
    (h : ds.foldl (fun n d => n * 10 + d) n ≤ digitLimit) :
    takeDigits n ds = (ds.foldl (fun n d => n * 10 + d) n, 0) := by
  induction ds generalizing n with
  | nil => rfl
  | cons d ds ih =>
    have hgrows : ∀ (ds : List Nat) (n : Nat), n ≤ ds.foldl (fun n d => n * 10 + d) n := by
      intro ds
      induction ds with
      | nil => exact Nat.le_refl
      | cons d ds ih => exact fun n => Nat.le_trans (by omega) (ih (n * 10 + d))
    rw [List.foldl_cons] at h
    rw [takeDigits, if_pos (Nat.le_trans (hgrows ds _) h), ih h, List.foldl_cons]

theorem takeDigits_snd_le (n : Nat) (ds : List Nat) : (takeDigits n ds).2 ≤ ds.length := by
  induction ds generalizing n with
  | nil => exact Nat.le_refl 0
  | cons d ds ih =>
    rw [takeDigits]
    split
    · exact Nat.le_succ_of_le (ih _)
    · exact Nat.le_refl _

theorem foldl_digits_lt {ds : List Nat} (h : ∀ d ∈ ds, d < 10) (n : Nat) :
    ds.foldl (fun n d => n * 10 + d) n < (n + 1) * 10 ^ ds.length := by
  induction ds generalizing n with
  | nil => simp
  | cons d ds ih =>
    have hd : d < 10 := h d List.mem_cons_self
    rw [List.foldl_cons, List.length_cons, Nat.pow_succ']
    calc ds.foldl (fun n d => n * 10 + d) (n * 10 + d)
        < (n * 10 + d + 1) * 10 ^ ds.length := ih (fun e he => h e (List.mem_cons_of_mem d he)) _
      _ ≤ ((n + 1) * 10) * 10 ^ ds.length := Nat.mul_le_mul_right _ (by omega)
      _ = (n + 1) * (10 * 10 ^ ds.length) := Nat.mul_assoc _ _ _

theorem scaled?_of_neg {n : Nat} {e : Int} (h : e < 0) : (scaled? n e).isSome := by
  unfold scaled?
  dsimp only
  rw [if_pos h]
  rfl

variable {v : Numeral}

theorem takeDigits_whole (hdigits : ∀ d ∈ v.whole, d < 10) (hlength : v.whole.length ≤ 16) :
    takeDigits 0 v.whole = (ofDigits v.whole, 0) ∧ ofDigits v.whole < 10 ^ 16 := by
  have hlt : ofDigits v.whole < 10 ^ 16 := by
    calc ofDigits v.whole < (0 + 1) * 10 ^ v.whole.length := foldl_digits_lt hdigits 0
      _ ≤ 10 ^ 16 := by
        rw [Nat.zero_add, Nat.one_mul]
        exact Nat.pow_le_pow_right (by decide) hlength
  refine ⟨takeDigits_of_le ?_, hlt⟩
  have hlimit : 10 ^ 16 ≤ digitLimit := by decide
  exact Nat.le_trans (Nat.le_of_lt hlt) hlimit

theorem magnitude?_of_fraction {d : Nat} {ds : List Nat} (hdigits : ∀ d ∈ v.whole, d < 10)
    (hlength : v.whole.length ≤ 16) (hf : v.fraction = some (d :: ds)) (hd : d < 10)
    (he : v.exponent = none) : v.magnitude?.isSome := by
  obtain ⟨hwhole, hlt⟩ := takeDigits_whole hdigits hlength
  have hfits : ofDigits v.whole * 10 + d ≤ digitLimit := by
    have hlimit : 10 ^ 17 ≤ digitLimit := by decide
    omega
  have huntaken := takeDigits_snd_le (ofDigits v.whole * 10 + d) ds
  unfold magnitude?
  rw [hwhole, hf, he]
  simp only [Option.getD_some, takeDigits, if_pos hfits, List.length_cons]
  apply scaled?_of_neg
  omega

theorem magnitude?_of_exponent {es : List Nat} (hdigits : ∀ d ∈ v.whole, d < 10)
    (hlength : v.whole.length ≤ 16) (he : v.exponent = some (true, es)) (hpos : 0 < ofDigits es) :
    v.magnitude?.isSome := by
  obtain ⟨hwhole, -⟩ := takeDigits_whole hdigits hlength
  unfold magnitude?
  rw [hwhole, he]
  simp only [Bool.or_true, if_true]
  split
  · rfl
  · apply scaled?_of_neg
    omega

theorem toDocument?_of_magnitude? (h : v.fraction.isSome ∨ v.exponent.isSome)
    (hm : v.magnitude?.isSome) : ∃ y, v.toDocument? = some (real y) := by
  obtain ⟨x, hx⟩ := Option.isSome_iff_exists.mp hm
  have hinteger : (v.fraction.isNone && v.exponent.isNone) = false := by
    cases h with
    | inl h => rw [Option.isNone_eq_false_iff.mpr h, Bool.false_and]
    | inr h => rw [Option.isNone_eq_false_iff.mpr h, Bool.and_false]
  unfold toDocument?
  dsimp only
  rw [hinteger, hx]
  exact ⟨_, rfl⟩

end Numeral

section Layouts

/-- Whether a text is made of digits only, and not empty. -/
structure Digits (s : List Char) : Prop where
  nonempty : s ≠ []
  digits : ∀ c ∈ s, c.isDigit = true

def valuesOf (s : List Char) : List Nat :=
  s.map fun c => c.toNat - '0'.toNat

variable {s t fs es : List Char}

theorem Digits.append (hs : Digits s) (ht : ∀ c ∈ t, c.isDigit = true) : Digits (s ++ t) where
  nonempty := List.append_ne_nil_of_left_ne_nil hs.nonempty t
  digits c hc := by
    cases List.mem_append.mp hc with
    | inl hc => exact hs.digits c hc
    | inr hc => exact ht c hc

theorem Digits.take (hs : Digits s) {n : Nat} (hn : 0 < n) : Digits (s.take n) where
  nonempty := by
    simp [hs.nonempty]
    omega
  digits c hc := hs.digits c (List.mem_of_mem_take hc)

theorem Digits.drop (hs : Digits s) {n : Nat} (hn : n < s.length) : Digits (s.drop n) where
  nonempty := by simpa using hn
  digits c hc := hs.digits c (List.mem_of_mem_drop hc)

theorem digits_zero : Digits ['0'] := ⟨by simp, by simp⟩

theorem Digits.valuesOf_lt (hs : Digits s) : ∀ d ∈ valuesOf s, d < 10 := by
  intro d hd
  obtain ⟨c, hc, rfl⟩ := List.mem_map.mp hd
  have hdigit := hs.digits c hc
  simp only [Char.isDigit, Bool.and_eq_true, decide_eq_true_eq] at hdigit
  have hnine : c.toNat ≤ '9'.toNat := hdigit.2
  have hvalue : '9'.toNat = '0'.toNat + 9 := rfl
  omega

theorem Digits.exists_valuesOf (hs : Digits s) : ∃ d ds, valuesOf s = d :: ds ∧ d < 10 := by
  obtain ⟨c, cs, rfl⟩ := List.exists_cons_of_ne_nil hs.nonempty
  exact ⟨_, _, rfl, hs.valuesOf_lt _ List.mem_cons_self⟩

theorem leadingDigits_of_digits (hs : Digits s) (ht : ∀ c ∈ t.head?, c.isDigit = false) :
    leadingDigits (s ++ t) = valuesOf s ∧ afterDigits (s ++ t) = t := by
  have hnone : t.takeWhile Char.isDigit = [] ∧ t.dropWhile Char.isDigit = t := by
    cases t with
    | nil => exact ⟨rfl, rfl⟩
    | cons c t => simp [ht c rfl]
  unfold leadingDigits afterDigits
  rw [List.takeWhile_append_of_pos hs.digits, List.dropWhile_append_of_pos hs.digits,
    hnone.1, hnone.2, List.append_nil]
  exact ⟨rfl, rfl⟩

theorem leadingDigits_self (hs : Digits s) : leadingDigits s = valuesOf s ∧ afterDigits s = [] := by
  simpa using leadingDigits_of_digits (t := []) hs (by simp)

/-- Whether a numeral may start with these digits: a zero stands in front only when it stands
alone. -/
def MayStart (s : List Char) : Prop :=
  (valuesOf s).head? = some 0 → s.length = 1

theorem Digits.not_refused (hs : Digits s) (h : MayStart s) :
    ¬ ((valuesOf s).isEmpty || ((valuesOf s).head? == some 0 && 1 < (valuesOf s).length)) =
      true := by
  intro hrefused
  simp only [Bool.or_eq_true, List.isEmpty_iff, Bool.and_eq_true, beq_iff_eq, decide_eq_true_eq]
    at hrefused
  cases hrefused with
  | inl hnil => exact hs.nonempty (List.map_eq_nil_iff.mp hnil)
  | inr hzero =>
    have hlength := hzero.2
    rw [valuesOf, List.length_map, h hzero.1] at hlength
    exact absurd hlength (by decide)

theorem mayStart_of_head {n : Nat} (hn : 0 < n) (h : s.head? = (digitChars n).head?) :
    MayStart s := by
  intro hzero
  obtain ⟨d, hd, hne⟩ := head?_digitValues hn
  rw [digitValues, List.head?_map] at hd
  rw [valuesOf, List.head?_map, h, hd, Option.some.injEq] at hzero
  exact absurd hzero hne

theorem signedPart_of_digits (hs : Digits s) :
    signedPart (s ++ t) = numeralPart false (s ++ t) := by
  obtain ⟨c, cs, rfl⟩ := List.exists_cons_of_ne_nil hs.nonempty
  have hc : ¬ ((c :: cs) ++ t).head? = some '-' := by
    intro h
    have hminus : c = '-' := by simpa using h
    have hdigit := hs.digits c List.mem_cons_self
    rw [hminus] at hdigit
    exact absurd hdigit (by decide)
  unfold signedPart
  rw [if_neg hc]

/-- Digits with a point between them are taken off a text as a real number. -/
theorem takes_point (hs : Digits s) (hstart : MayStart s) (hlength : s.length ≤ 16)
    (hfs : Digits fs) : ∃ y, Takes number (s ++ '.' :: fs) (real y) [] := by
  obtain ⟨hwhole, hafter⟩ := leadingDigits_of_digits (t := '.' :: fs) hs (by simp)
  obtain ⟨hfraction, hrest⟩ := leadingDigits_self hfs
  obtain ⟨d, ds, hvalues, hd⟩ := hfs.exists_valuesOf
  have hpart : fractionPart ('.' :: fs) = some (some (d :: ds), []) := by
    simp [fractionPart, hfraction, hvalues, hrest]
  have hv : signedPart (s ++ '.' :: fs) = some (⟨false, valuesOf s, some (d :: ds), none⟩, []) := by
    rw [signedPart_of_digits hs]
    unfold numeralPart
    rw [hwhole, hafter]
    dsimp only
    rw [if_neg (hs.not_refused hstart), hpart]
    rfl
  have hsmall : (valuesOf s).length ≤ 16 := by simpa [valuesOf] using hlength
  obtain ⟨y, hy⟩ :=
    Numeral.toDocument?_of_magnitude? (v := ⟨false, valuesOf s, some (d :: ds), none⟩) (.inl rfl)
      (Numeral.magnitude?_of_fraction hs.valuesOf_lt hsmall rfl hd rfl)
  exact ⟨y, takes_number_iff.mpr ⟨by simp, _, hv, hy⟩⟩

/-- Digits with a negative exponent, and maybe a point between them, are taken off a text as a real
number. -/
theorem takes_exponent (hs : Digits s) (hstart : MayStart s) (hlength : s.length ≤ 16)
    (ht : t = [] ∨ ∃ fs, Digits fs ∧ t = '.' :: fs) (hes : Digits es)
    (hpos : 0 < Numeral.ofDigits (valuesOf es)) :
    ∃ y, Takes number (s ++ t ++ 'e' :: '-' :: es) (real y) [] := by
  obtain ⟨hexponent, hend⟩ := leadingDigits_self hes
  obtain ⟨d, ds, hvalues, -⟩ := hes.exists_valuesOf
  have hepart : exponentPart ('e' :: '-' :: es) = some (some (true, valuesOf es), []) := by
    simp [exponentPart, hexponent, hvalues, hend]
  obtain ⟨f, hfpart, hhead⟩ : ∃ f, fractionPart (t ++ 'e' :: '-' :: es) =
      some (f, 'e' :: '-' :: es) ∧ ∀ c ∈ (t ++ 'e' :: '-' :: es).head?, c.isDigit = false := by
    rcases ht with rfl | ⟨fs, hfs, rfl⟩
    · exact ⟨none, rfl, by simp⟩
    · obtain ⟨hfraction, hrest⟩ := leadingDigits_of_digits (t := 'e' :: '-' :: es) hfs (by simp)
      obtain ⟨d, ds, hvalues, -⟩ := hfs.exists_valuesOf
      exact ⟨some (d :: ds), by simp [fractionPart, hfraction, hvalues, hrest], by simp⟩
  obtain ⟨hwhole, hafter⟩ := leadingDigits_of_digits hs hhead
  rw [List.append_assoc]
  have hv : signedPart (s ++ (t ++ 'e' :: '-' :: es)) =
      some (⟨false, valuesOf s, f, some (true, valuesOf es)⟩, []) := by
    rw [signedPart_of_digits hs]
    unfold numeralPart
    rw [hwhole, hafter]
    dsimp only
    rw [if_neg (hs.not_refused hstart), hfpart]
    simp [hepart]
  have hsmall : (valuesOf s).length ≤ 16 := by simpa [valuesOf] using hlength
  obtain ⟨y, hy⟩ :=
    Numeral.toDocument?_of_magnitude? (v := ⟨false, valuesOf s, f, some (true, valuesOf es)⟩)
      (.inr rfl) (Numeral.magnitude?_of_exponent hs.valuesOf_lt hsmall rfl hpos)
  exact ⟨y, takes_number_iff.mpr ⟨by simp, _, hv, hy⟩⟩

theorem digits_digitChars (n : Nat) : Digits (digitChars n) where
  nonempty := Nat.toDigits_ne_nil
  digits _ := isDigit_of_mem_digitChars

theorem isDigit_of_mem_replicate (n : Nat) : ∀ c ∈ List.replicate n '0', c.isDigit = true := by
  intro c hc
  rw [List.eq_of_mem_replicate hc]
  rfl

theorem mayStart_take {n k : Nat} (hn : 0 < n) (hk : 0 < k) : MayStart ((digitChars n).take k) := by
  apply mayStart_of_head hn
  rw [List.head?_take, if_neg (by omega)]

theorem mayStart_append {n : Nat} (hn : 0 < n) : MayStart (digitChars n ++ t) := by
  apply mayStart_of_head hn
  rw [List.head?_append, List.head?_eq_some_head (digits_digitChars n).nonempty]
  rfl

theorem takes_write {d : Scaled} (hpos : 0 < d.digits)
    (hpoint : (digitChars d.digits).length + d.exponent ≤ 16) :
    ∃ y, Takes number (plain.write d) (real y) [] := by
  have hds := digits_digitChars d.digits
  have hlength := List.length_pos_iff.mpr hds.nonempty
  have hleading : plain.leadingZeros = 4 := rfl
  have hwhole : plain.wholeDigits = 16 := rfl
  unfold Layout.write
  dsimp only
  generalize ((digitChars d.digits).length + d.exponent : Int) = point at *
  simp only [Bool.and_eq_true, decide_eq_true_eq]
  split
  · -- zeros between the point and the digits
    have hfs : Digits (List.replicate (-point).toNat '0' ++ digitChars d.digits) := by
      refine ⟨by simp [hds.nonempty], fun c hc => ?_⟩
      cases List.mem_append.mp hc with
      | inl hc => exact isDigit_of_mem_replicate _ c hc
      | inr hc => exact hds.digits c hc
    simpa using takes_point digits_zero (fun _ => rfl) (by simp) hfs
  · split
    · split
      · -- zeros between the digits and the point
        have hs := hds.append
          (isDigit_of_mem_replicate (point.toNat - (digitChars d.digits).length))
        exact takes_point hs (mayStart_append hpos) (by simp; omega) digits_zero
      · exact takes_point (hds.take (by omega)) (mayStart_take hpos (by omega)) (by simp; omega)
          (hds.drop (by omega))
    · -- an exponent, which is negative
      have hfraction : (if (digitChars d.digits).length ≤ 1 then []
          else '.' :: (digitChars d.digits).drop 1) = [] ∨
          ∃ fs, Digits fs ∧ (if (digitChars d.digits).length ≤ 1 then []
            else '.' :: (digitChars d.digits).drop 1) = '.' :: fs := by
        split
        · exact .inl rfl
        · exact .inr ⟨_, hds.drop (by omega), rfl⟩
      have hvalue : Numeral.ofDigits (valuesOf (digitChars (point - 1).natAbs)) =
          (point - 1).natAbs :=
        ofDigits_digitValues _
      rw [if_pos (show point - 1 < 0 by omega)]
      exact takes_exponent (hds.take Nat.one_pos) (mayStart_take hpos Nat.one_pos)
        (by simp) hfraction (digits_digitChars _) (by omega)

end Layouts

section Shortest

variable {b : Binary} {k : Int} {d : Scaled}

theorem covers_of_onGrid? (h : b.onGrid? k = some d) :
    d.exponent = k ∧ b.covers k d.digits = true := by
  unfold Binary.onGrid? at h
  dsimp only at h
  split at h
  · exact absurd h nofun
  · obtain rfl := Option.some.inj h
    exact ⟨rfl, by assumption⟩
  · obtain rfl := Option.some.inj h
    exact ⟨rfl, by assumption⟩
  · split at h
    · obtain rfl := Option.some.inj h
      exact ⟨rfl, by assumption⟩
    · obtain rfl := Option.some.inj h
      exact ⟨rfl, by assumption⟩

theorem bounds_of_covers {c : Nat} (h : b.covers k c = true) :
    (4 * b.mantissa - 2) * (b.ratio k).1 ≤ c * (b.ratio k).2 ∧
      c * (b.ratio k).2 ≤ (4 * b.mantissa + 2) * (b.ratio k).1 := by
  have hlow : (4 * b.mantissa - 2) * (b.ratio k).1 ≤ b.bounds.1 * (b.ratio k).1 := by
    apply Nat.mul_le_mul_right
    unfold Binary.bounds
    dsimp only
    split <;> omega
  unfold Binary.covers at h
  dsimp only at h
  have hhigh : b.bounds.2.2 = 4 * b.mantissa + 2 := rfl
  rw [hhigh] at h
  split at h
  · simp only [Bool.and_eq_true, decide_eq_true_eq] at h
    exact ⟨Nat.le_trans hlow h.1, h.2⟩
  · simp only [Bool.and_eq_true, decide_eq_true_eq] at h
    exact ⟨Nat.le_trans hlow (Nat.le_of_lt h.1), Nat.le_of_lt h.2⟩

theorem length_digitChars_le {c : Nat} (hc : 0 < c)
    (h : c * 10 ^ k.toNat < 10 ^ 16 * 10 ^ (-k).toNat) : (digitChars c).length + k ≤ 16 := by
  have hlength : ∀ n, 0 < n → c < 10 ^ n → (digitChars c).length ≤ n :=
    fun n hn hlt => (Nat.length_toDigits_le_iff (by decide) hn).mpr hlt
  by_cases hk : 0 ≤ k
  · rw [show (-k).toNat = 0 by omega, Nat.pow_zero, Nat.mul_one] at h
    have hk' : k.toNat < 16 := by
      apply (Nat.pow_lt_pow_iff_right (a := 10) (by decide)).mp
      exact Nat.lt_of_le_of_lt (Nat.le_mul_of_pos_left _ hc) h
    have hdigits : c < 10 ^ (16 - k.toNat) := by
      apply Nat.lt_of_mul_lt_mul_right (a := 10 ^ k.toNat)
      rwa [← Nat.pow_add, Nat.sub_add_cancel (Nat.le_of_lt hk')]
    have := hlength _ (by omega) hdigits
    omega
  · rw [show k.toNat = 0 by omega, Nat.pow_zero, Nat.mul_one, ← Nat.pow_add] at h
    have := hlength _ (by omega) h
    omega

/-- Of a number below `2^53` the decimals that round to it lie below `10^16`. -/
theorem small_of_covers {c : Nat} (hm : 0 < b.mantissa) (hm' : b.mantissa < 2 ^ 53)
    (he : b.exponent ≤ 0) (h : b.covers k c = true) : 0 < c ∧ (digitChars c).length + k ≤ 16 := by
  obtain ⟨hlow, hhigh⟩ := bounds_of_covers h
  have hnum : (b.ratio k).1 = 10 ^ (-k).toNat := by
    have hnone : (b.exponent - 2).toNat = 0 := by omega
    simp [Binary.ratio, hnone]
  have hden : 4 * 10 ^ k.toNat ≤ (b.ratio k).2 := by
    have hfour : 2 ^ 2 ≤ 2 ^ (2 - b.exponent).toNat := Nat.pow_le_pow_right (by decide) (by omega)
    show _ ≤ Nat.pow 10 k.toNat <<< (2 - b.exponent).toNat
    rw [Nat.shiftLeft_eq, Nat.mul_comm]
    exact Nat.mul_le_mul_left _ hfour
  rw [hnum] at hlow hhigh
  have hpower : 0 < 10 ^ (-k).toNat := Nat.pow_pos (by decide)
  have hc : 0 < c := by
    apply Nat.pos_of_ne_zero
    intro hzero
    rw [hzero, Nat.zero_mul] at hlow
    have := Nat.mul_pos (show 0 < 4 * b.mantissa - 2 by omega) hpower
    omega
  refine ⟨hc, length_digitChars_le hc ?_⟩
  apply Nat.lt_of_mul_lt_mul_left (a := 4)
  calc 4 * (c * 10 ^ k.toNat) = c * (4 * 10 ^ k.toNat) := Nat.mul_left_comm _ _ _
    _ ≤ c * (b.ratio k).2 := Nat.mul_le_mul_left c hden
    _ ≤ (4 * b.mantissa + 2) * 10 ^ (-k).toNat := hhigh
    _ < (4 * 10 ^ 16) * 10 ^ (-k).toNat := Nat.mul_lt_mul_of_pos_right (by omega) hpower
    _ = 4 * (10 ^ 16 * 10 ^ (-k).toNat) := Nat.mul_assoc _ _ _

theorem takes_zero : ∃ y, Takes number "0.0".toList (real y) [] :=
  takes_point digits_zero (fun _ => rfl) (by simp) digits_zero

theorem takes_shortest (hm : 0 < b.mantissa) (hm' : b.mantissa < 2 ^ 53) (he : b.exponent ≤ 0) :
    ∃ y, Takes number (plain.write b.shortest) (real y) [] := by
  unfold Binary.shortest
  cases hfind : (List.range 20).findSome? fun i : Nat => b.onGrid? (b.ceiling - (i : Int)) with
  | none => exact takes_zero
  | some d =>
    obtain ⟨i, -, hgrid⟩ := List.exists_of_findSome?_eq_some hfind
    obtain ⟨hk, hcovers⟩ := covers_of_onGrid? hgrid
    obtain ⟨hpos, hlength⟩ := small_of_covers hm hm' he hcovers
    exact takes_write hpos (hk ▸ hlength)

/-- What is written for a number below `2^53` that is not negative is taken off a text as a real
number. -/
theorem takes_writeFloat {x : Float} (h : Double.scale x < 1076) :
    ∃ y, Takes number (writeFloat x) (real y) [] := by
  unfold Double.scale at h
  have hword : x.toBits.toNat < 2 ^ 64 := x.toBits.toNat_lt
  have hsign : ¬ (x.toBits.toNat >>> 63 == 1) = true := by
    simp only [Nat.shiftRight_eq_div_pow, beq_iff_eq]
    omega
  have hfinite : ¬ ((x.toBits.toNat >>> 52) % (1 <<< 11) == 2047) = true := by
    simp only [Nat.shiftRight_eq_div_pow, Nat.one_shiftLeft, beq_iff_eq]
    omega
  unfold writeFloat
  dsimp only
  rw [if_neg hsign, if_neg hfinite, List.nil_append, List.nil_append]
  split
  · exact takes_zero
  · rename_i hzero
    have hnonzero : x.toBits.toNat ≠ 0 := by
      intro h
      exact hzero (by simp [h])
    unfold Binary.ofBits
    dsimp only
    simp only [Nat.shiftRight_eq_div_pow, Nat.one_shiftLeft]
    split
    · rename_i hscale
      have hscale : x.toBits.toNat / 2 ^ 52 % 2 ^ 11 = 0 := by simpa using hscale
      apply takes_shortest <;> dsimp only <;> omega
    · rename_i hscale
      apply takes_shortest <;> dsimp only <;> omega

end Shortest

end CodeAtlas.Document
