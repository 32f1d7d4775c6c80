import Mathlib.Data.List.TakeWhile
import CodeAtlas.Document.Printer
import CodeAtlas.Document.Reader

/-!
Numbers in texts. What is taken off the start of a text as a number is also taken if more text
follows, as long as it cannot go on with the number, and a whole number is taken from the digits
that are written for it.
-/

namespace CodeAtlas.Document

/-- Whether a reading step takes something off the start of a text. -/
def Takes {α : Type} (r : Reader α) (s : List Char) (a : α) (rest : List Char) : Prop :=
  ∃ h, r s = some (a, ⟨rest, h⟩)

section Numbers

variable {s t rest : List Char} {d : Document}

/-- Whether a text cannot go on with a number. -/
def Closed (rest : List Char) : Prop :=
  ∀ c ∈ rest.head?, c.isDigit = false ∧ c ≠ '.' ∧ c ≠ 'e' ∧ c ≠ 'E'

theorem closed_nil : Closed [] := nofun

theorem leadingDigits_append (h : Closed rest) : leadingDigits (s ++ rest) = leadingDigits s := by
  induction s with
  | nil =>
    cases rest with
    | nil => rfl
    | cons c rest => simp [leadingDigits, (h c rfl).1]
  | cons c s ih =>
    unfold leadingDigits at ih ⊢
    rw [List.cons_append, List.takeWhile_cons, List.takeWhile_cons]
    split
    · rw [List.map_cons, List.map_cons, ih]
    · rfl

theorem afterDigits_append (h : Closed rest) : afterDigits (s ++ rest) = afterDigits s ++ rest := by
  induction s with
  | nil =>
    cases rest with
    | nil => rfl
    | cons c rest => simp [afterDigits, (h c rfl).1]
  | cons c s ih =>
    unfold afterDigits at ih ⊢
    rw [List.cons_append, List.dropWhile_cons, List.dropWhile_cons]
    split
    · exact ih
    · rfl

theorem exponentPart_append {e : Option (Bool × List Nat)} (h : Closed rest)
    (he : exponentPart s = some (e, t)) : exponentPart (s ++ rest) = some (e, t ++ rest) := by
  cases s with
  | nil =>
    obtain ⟨rfl, rfl⟩ := Prod.mk.inj (Option.some.inj he)
    cases rest with
    | nil => rfl
    | cons c rest =>
      obtain ⟨-, -, he, hE⟩ := h c rfl
      simp [exponentPart, he, hE]
  | cons c s =>
    simp only [List.cons_append, exponentPart] at he ⊢
    by_cases hc : (c == 'e' || c == 'E') = true
    · rw [if_pos hc] at he ⊢
      cases s with
      | nil => simp [leadingDigits] at he
      | cons b s =>
        rw [List.cons_append]
        have hds := leadingDigits_append (s := b :: s) h
        have hafter := afterDigits_append (s := b :: s) h
        rw [List.cons_append] at hds hafter
        by_cases hplus : b = '+'
        · subst hplus
          simp_all [leadingDigits_append h, afterDigits_append h]
        by_cases hminus : b = '-'
        · subst hminus
          simp_all [leadingDigits_append h, afterDigits_append h]
        · simp_all
    · rw [if_neg hc] at he ⊢
      obtain ⟨rfl, rfl⟩ := Prod.mk.inj (Option.some.inj he)
      rfl

theorem fractionPart_append {f : Option (List Nat)} (h : Closed rest)
    (hf : fractionPart s = some (f, t)) : fractionPart (s ++ rest) = some (f, t ++ rest) := by
  cases s with
  | nil =>
    obtain ⟨rfl, rfl⟩ := Prod.mk.inj (Option.some.inj hf)
    cases rest with
    | nil => rfl
    | cons c rest =>
      obtain ⟨-, hpoint, -⟩ := h c rfl
      simp [fractionPart, hpoint]
  | cons c s =>
    rw [List.cons_append]
    by_cases hpoint : c = '.'
    · subst hpoint
      simp_all [fractionPart, leadingDigits_append h, afterDigits_append h]
    · have hnone : ∀ u, fractionPart (c :: u) = some (none, c :: u) := by
        simp [fractionPart, hpoint]
      rw [hnone] at hf ⊢
      obtain ⟨rfl, rfl⟩ := Prod.mk.inj (Option.some.inj hf)
      rfl

theorem numeralPart_append {negative : Bool} {v : Numeral} (h : Closed rest)
    (hv : numeralPart negative s = some (v, t)) :
    numeralPart negative (s ++ rest) = some (v, t ++ rest) := by
  unfold numeralPart at hv ⊢
  rw [leadingDigits_append h, afterDigits_append h]
  dsimp only at hv ⊢
  split at hv
  · exact absurd hv nofun
  · rename_i hdigits
    rw [if_neg hdigits]
    obtain ⟨⟨fraction, u⟩, hf, hv⟩ := Option.bind_eq_some_iff.mp hv
    obtain ⟨⟨exponent, w⟩, he, hv⟩ := Option.bind_eq_some_iff.mp hv
    obtain ⟨rfl, rfl⟩ := Prod.mk.inj (Option.some.inj hv)
    simp [fractionPart_append h hf, exponentPart_append h he]

def signedPart (s : List Char) : Option (Numeral × List Char) :=
  if s.head? = some '-' then numeralPart true s.tail else numeralPart false s

theorem signedPart_append {v : Numeral} (h : Closed rest) (hv : signedPart s = some (v, t)) :
    signedPart (s ++ rest) = some (v, t ++ rest) := by
  cases s with
  | nil => simp [signedPart, numeralPart, leadingDigits] at hv
  | cons c s =>
    unfold signedPart at hv ⊢
    rw [List.head?_cons] at hv
    rw [List.cons_append, List.head?_cons]
    split at hv
    · rename_i hc
      rw [if_pos hc]
      exact numeralPart_append h hv
    · rename_i hc
      rw [if_neg hc, ← List.cons_append]
      exact numeralPart_append h hv

theorem number_eq (s : List Char) : number s = (signedPart s).bind fun e =>
    if h : e.2.length < s.length then e.1.toDocument?.map fun d => (d, ⟨e.2, h⟩) else none := by
  cases s with
  | nil => rfl
  | cons c s =>
    by_cases hc : c = '-'
    · subst hc
      simp only [number, signedPart, List.head?_cons, List.tail_cons, if_true]
      cases numeralPart true s <;> rfl
    · have hhead : ¬ (c :: s).head? = some '-' := by simpa using hc
      simp only [number, signedPart, if_neg hhead]
      split <;> simp_all

theorem takes_number_iff : Takes number s d t ↔
    t.length < s.length ∧ ∃ v, signedPart s = some (v, t) ∧ v.toDocument? = some d := by
  unfold Takes
  rw [number_eq]
  constructor
  · rintro ⟨hlen, h⟩
    obtain ⟨⟨v, u⟩, hv, h⟩ := Option.bind_eq_some_iff.mp h
    dsimp only at h
    split at h
    · obtain ⟨d', hd, h⟩ := Option.map_eq_some_iff.mp h
      simp only [Prod.mk.injEq, Subtype.mk.injEq] at h
      obtain ⟨rfl, rfl⟩ := h
      exact ⟨hlen, v, hv, hd⟩
    · exact absurd h nofun
  · rintro ⟨hlen, v, hv, hd⟩
    refine ⟨hlen, ?_⟩
    rw [hv, Option.bind_some, dif_pos hlen, hd, Option.map_some]

/-- A number that stands alone is also taken off a text that does not go on with it. -/
theorem Takes.append (h : Takes number s d t) (hrest : Closed rest) :
    Takes number (s ++ rest) d (t ++ rest) := by
  obtain ⟨hlen, v, hv, hd⟩ := takes_number_iff.mp h
  exact takes_number_iff.mpr ⟨by simpa using hlen, v, signedPart_append hrest hv, hd⟩

end Numbers

section Integers

def digitValues (n : Nat) : List Nat := (Decimal.digitChars n).map fun c => c.toNat - '0'.toNat

theorem isDigit_of_mem_digitChars {n : Nat} {c : Char} (h : c ∈ Decimal.digitChars n) :
    c.isDigit = true :=
  Nat.isDigit_of_mem_toDigits (by decide) (by decide) h

theorem leadingDigits_digitChars (n : Nat) :
    leadingDigits (Decimal.digitChars n) = digitValues n := by
  unfold leadingDigits digitValues
  rw [List.takeWhile_eq_self_iff.mpr fun c hc => isDigit_of_mem_digitChars hc]

theorem afterDigits_digitChars (n : Nat) : afterDigits (Decimal.digitChars n) = [] :=
  List.dropWhile_eq_nil_iff.mpr fun _ hc => isDigit_of_mem_digitChars hc

theorem ofDigits_digitValues (n : Nat) : Numeral.ofDigits (digitValues n) = n := by
  have h : Nat.ofDigitChars 10 (Decimal.digitChars n) 0 = n := Nat.ofDigitChars_ten_toDigits
  unfold Numeral.ofDigits digitValues
  rw [List.foldl_map]
  unfold Nat.ofDigitChars at h
  simp only [Nat.mul_comm 10] at h
  exact h

theorem digitValues_of_lt {n : Nat} (h : n < 10) : digitValues n = [n] := by
  have hall : ∀ n < 10, digitValues n = [n] := by decide
  exact hall n h

theorem digitValues_of_le {n : Nat} (h : 10 ≤ n) :
    digitValues n = digitValues (n / 10) ++ digitValues (n % 10) := by
  have hsplit : Nat.toDigits 10 (n / 10) ++ Nat.toDigits 10 (n % 10) =
      Nat.toDigits 10 (10 * (n / 10) + n % 10) :=
    Nat.toDigits_append_toDigits (by decide) (by omega) (by omega)
  rw [Nat.div_add_mod] at hsplit
  unfold digitValues Decimal.digitChars
  rw [← hsplit, List.map_append]

theorem head?_digitValues {n : Nat} (h : 0 < n) : ∃ d, (digitValues n).head? = some d ∧ d ≠ 0 := by
  induction n using Nat.strongRecOn with
  | ind n ih =>
    by_cases hn : n < 10
    · exact ⟨n, by rw [digitValues_of_lt hn]; rfl, by omega⟩
    · obtain ⟨d, hd, hne⟩ := ih (n / 10) (by omega) (by omega)
      exact ⟨d, by rw [digitValues_of_le (by omega), List.head?_append, hd]; rfl, hne⟩

theorem numeralPart_digitChars (negative : Bool) (n : Nat) :
    numeralPart negative (Decimal.digitChars n) =
      some (⟨negative, digitValues n, none, none⟩, []) := by
  have hwhole : ¬ ((digitValues n).isEmpty || ((digitValues n).head? == some 0 && 1 <
      (digitValues n).length)) = true := by
    by_cases hn : n = 0
    · subst hn
      decide
    · obtain ⟨d, hd, hne⟩ := head?_digitValues (Nat.pos_of_ne_zero hn)
      cases hds : digitValues n with
      | nil => simp [hds] at hd
      | cons e ds => simp_all
  unfold numeralPart
  rw [leadingDigits_digitChars, afterDigits_digitChars]
  exact if_neg hwhole

theorem signedPart_writeInteger (n : Int) :
    signedPart (writeInteger n) =
      some (⟨decide (n < 0), digitValues n.natAbs, none, none⟩, []) := by
  unfold writeInteger
  split
  · rename_i hn
    rw [decide_eq_true hn]
    exact numeralPart_digitChars true n.natAbs
  · rename_i hn
    have hhead : ¬ (Decimal.digitChars n.natAbs).head? = some '-' := by
      intro h
      have hdigit := isDigit_of_mem_digitChars (List.mem_of_head? h)
      exact absurd hdigit (by decide)
    rw [decide_eq_false hn]
    unfold signedPart
    rw [if_neg hhead]
    exact numeralPart_digitChars false n.natAbs

theorem takes_writeInteger {n : Int} (h : inIntegerRange n = true) :
    Takes number (writeInteger n) (integer n) [] := by
  have hvalue : (if decide (n < 0) = true then -(Numeral.ofDigits (digitValues n.natAbs) : Int)
      else Numeral.ofDigits (digitValues n.natAbs)) = n := by
    rw [ofDigits_digitValues]
    by_cases hn : n < 0
    · rw [if_pos (decide_eq_true hn)]
      omega
    · rw [if_neg (by simpa using hn)]
      omega
  have hzero : (decide (n < 0) && n == 0) = false := by
    by_cases hn : n = 0 <;> simp [hn]
  refine takes_number_iff.mpr ⟨?_, _, signedPart_writeInteger n, ?_⟩
  · refine List.length_pos_iff.mpr fun hnil => ?_
    have hsigned := signedPart_writeInteger n
    rw [hnil] at hsigned
    exact absurd hsigned nofun
  · unfold Numeral.toDocument?
    dsimp only
    rw [hvalue, h, hzero]
    rfl

end Integers

end CodeAtlas.Document
