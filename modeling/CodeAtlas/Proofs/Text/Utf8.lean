import Mathlib
import CodeAtlas.Text.Utf8

/-!
ASCII in text that is read from bytes. Whether the bytes are well formed or not, every ASCII byte is
read as its character and ends whatever stood open before it, and every ASCII character but the null
was read from its byte.
-/

namespace CodeAtlas.Text.Utf8

namespace State

/-- States that only characters beyond ASCII come from. The bits and the next byte make at least 2,
and a character that is completed with one more byte is beyond ASCII from there on. -/
def Open : State → Prop
  | start => True
  | inside bits more low high =>
    0x80 ≤ low ∧ high ≤ 0xbf ∧ if more = 0 then 2 ≤ bits else 0x82 ≤ bits * 64 + low

end State

/-- ASCII characters other than the null, which numbers that belong to no character give too. -/
def Plain (c : Char) : Prop := 0 < c.toNat ∧ c.toNat < 0x80

variable {s : State} {b : Nat} {bytes : List UInt8} {c : Char} {u v : List Char}

theorem toNat_ofNat_ascii (h : b < 0x80) : (Char.ofNat b).toNat = b := by
  rw [Char.toNat_ofNat, if_pos (Or.inl (by omega))]

theorem not_plain_ofNat (h : 0x80 ≤ b) : ¬ Plain (Char.ofNat b) := by
  unfold Plain
  rw [Char.toNat_ofNat]
  split <;> omega

theorem not_plain_replacement : ¬ Plain replacement :=
  fun h => absurd h.2 (by decide)

theorem first_ascii (h : b < 0x80) : first b = ([Char.ofNat b], .start) :=
  if_pos h

theorem first_open (b : Nat) : (first b).2.Open := by
  unfold first State.Open
  split_ifs <;> simp_all <;> omega

theorem not_plain_first (h : 0x80 ≤ b) : ∀ c ∈ (first b).1, ¬ Plain c := by
  unfold first
  rw [if_neg (by omega)]
  split_ifs <;> simp [not_plain_replacement]

theorem decodeFrom_cons (s : State) (b : UInt8) (bs : List UInt8) :
    decodeFrom s (b :: bs) = (step s b.toNat).1 ++ decodeFrom (step s b.toNat).2 bs := by
  cases s <;> rfl

theorem not_plain_decodeFrom_nil (s : State) : ∀ c ∈ decodeFrom s [], ¬ Plain c := by
  cases s with
  | start => exact fun c hc => absurd hc List.not_mem_nil
  | inside bits more low high =>
    intro c hc
    rw [List.mem_singleton.mp hc]
    exact not_plain_replacement

section Inside

variable {bits more low high : Nat}

theorem step_broken (h : ¬ (low ≤ b ∧ b ≤ high)) :
    step (.inside bits more low high) b = (replacement :: (first b).1, (first b).2) := by
  have hif : ¬ (decide (low ≤ b) && decide (b ≤ high)) = true := by simpa using h
  cases more <;> exact if_neg hif

theorem step_last (h : low ≤ b ∧ b ≤ high) :
    step (.inside bits 0 low high) b = ([Char.ofNat (bits * 64 + b % 64)], .start) :=
  if_pos (by simpa using h)

theorem step_more (h : low ≤ b ∧ b ≤ high) :
    step (.inside bits (more + 1) low high) b = ([], .inside (bits * 64 + b % 64) more 0x80 0xbf) :=
  if_pos (by simpa using h)

end Inside

theorem step_open (hs : s.Open) (b : Nat) : (step s b).2.Open := by
  cases s with
  | start => exact first_open b
  | inside bits more low high =>
    obtain ⟨hlow, hhigh, hbits⟩ := hs
    by_cases hin : low ≤ b ∧ b ≤ high
    · cases more with
      | zero =>
        rw [step_last hin]
        trivial
      | succ more =>
        rw [if_neg (Nat.succ_ne_zero more)] at hbits
        rw [step_more hin]
        refine ⟨Nat.le_refl _, Nat.le_refl _, ?_⟩
        split <;> omega
    · rw [step_broken hin]
      exact first_open b

/-- An ASCII byte completes its character behind what stands open. -/
theorem step_ascii (hs : s.Open) (hb : b < 0x80) :
    step s b = (decodeFrom s [] ++ [Char.ofNat b], .start) := by
  cases s with
  | start => exact first_ascii hb
  | inside bits more low high =>
    have hout : ¬ (low ≤ b ∧ b ≤ high) := by
      have hlow := hs.1
      omega
    rw [step_broken hout, first_ascii hb]
    rfl

/-- Other bytes complete no ASCII character. -/
theorem not_plain_step (hs : s.Open) (hb : 0x80 ≤ b) : ∀ c ∈ (step s b).1, ¬ Plain c := by
  cases s with
  | start => exact not_plain_first hb
  | inside bits more low high =>
    obtain ⟨-, -, hbits⟩ := hs
    by_cases hin : low ≤ b ∧ b ≤ high
    · cases more with
      | zero =>
        rw [if_pos rfl] at hbits
        rw [step_last hin]
        intro c hc
        rw [List.mem_singleton.mp hc]
        exact not_plain_ofNat (by omega)
      | succ more =>
        rw [step_more hin]
        exact fun c hc => absurd hc List.not_mem_nil
    · rw [step_broken hin]
      intro c hc
      cases List.mem_cons.mp hc with
      | inl hc => exact hc ▸ not_plain_replacement
      | inr hc => exact not_plain_first hb c hc

theorem start_open : State.start.Open := trivial

/-- What stands before an ASCII byte and what stands behind it are read each by itself. -/
theorem decodeFrom_append_ascii (hs : s.Open) (before : List UInt8) {b : UInt8}
    (hb : b.toNat < 0x80) (after : List UInt8) : decodeFrom s (before ++ b :: after) =
      decodeFrom s before ++ Char.ofNat b.toNat :: decodeFrom .start after := by
  induction before generalizing s with
  | nil =>
    rw [List.nil_append, decodeFrom_cons, step_ascii hs hb, List.append_assoc,
      List.singleton_append]
  | cons d rest ih =>
    rw [List.cons_append, decodeFrom_cons, decodeFrom_cons, ih (step_open hs d.toNat),
      List.append_assoc]

theorem decodeFrom_cons_ascii (hs : s.Open) {b : UInt8} (hb : b.toNat < 0x80) (bs : List UInt8) :
    decodeFrom s (b :: bs) = decodeFrom s [] ++ Char.ofNat b.toNat :: decodeFrom .start bs :=
  decodeFrom_append_ascii hs [] hb bs

theorem append_eq_append_cons {p q : List Char} (hc : c ∉ p) (h : p ++ q = u ++ c :: v) :
    ∃ u', u = p ++ u' ∧ q = u' ++ c :: v := by
  rcases List.append_eq_append_iff.mp h with ⟨u', hu, hq⟩ | ⟨p', hp, hq⟩
  · exact ⟨u', hu, hq⟩
  · cases p' with
    | nil => exact ⟨[], by simpa using hp.symm, by simpa using hq.symm⟩
    | cons d rest =>
      obtain ⟨rfl, -⟩ := List.cons.inj hq
      exact absurd (by simp [hp]) hc

/-- An ASCII character was read from its byte. -/
theorem exists_of_decodeFrom (hs : s.Open) (hc : Plain c) (h : decodeFrom s bytes = u ++ c :: v) :
    ∃ before b after, bytes = before ++ b :: after ∧ b.toNat = c.toNat ∧ decodeFrom s before = u ∧
      decodeFrom .start after = v := by
  induction bytes generalizing s u with
  | nil => exact absurd hc (not_plain_decodeFrom_nil s c (h ▸ by simp))
  | cons b bs ih =>
    by_cases hb : b.toNat < 0x80
    · rw [decodeFrom_cons_ascii hs hb] at h
      obtain ⟨u', rfl, hrest⟩ :=
        append_eq_append_cons (fun hm => not_plain_decodeFrom_nil s c hm hc) h
      cases u' with
      | nil =>
        obtain ⟨rfl, rfl⟩ := List.cons.inj hrest
        exact ⟨[], b, bs, rfl, (toNat_ofNat_ascii hb).symm, (List.append_nil _).symm, rfl⟩
      | cons d u' =>
        obtain ⟨rfl, htail⟩ := List.cons.inj hrest
        obtain ⟨before, b', after, rfl, hb', rfl, rfl⟩ := ih start_open htail
        exact ⟨b :: before, b', after, rfl, hb', decodeFrom_cons_ascii hs hb before, rfl⟩
    · rw [decodeFrom_cons] at h
      have hstep := not_plain_step hs (Nat.le_of_not_lt hb)
      obtain ⟨u', rfl, hrest⟩ := append_eq_append_cons (fun hm => hstep c hm hc) h
      obtain ⟨before, b', after, rfl, hb', rfl, rfl⟩ := ih (step_open hs _) hrest
      exact ⟨b :: before, b', after, rfl, hb', decodeFrom_cons s b before, rfl⟩

theorem eq_ofNat_iff (hc : Plain c) {b : UInt8} : b = UInt8.ofNat c.toNat ↔ b.toNat = c.toNat := by
  have hlt : c.toNat < 256 := Nat.lt_trans hc.2 (by decide)
  rw [← UInt8.toNat_inj, UInt8.toNat_ofNat_of_lt' hlt]

/-- ASCII characters stand in a text as often as their bytes in its bytes. -/
theorem count_decodeFrom (hs : s.Open) (hc : Plain c) (bytes : List UInt8) :
    (decodeFrom s bytes).count c = bytes.count (UInt8.ofNat c.toNat) := by
  have hnil : ∀ s, (decodeFrom s []).count c = 0 :=
    fun s => List.count_eq_zero.mpr fun hm => not_plain_decodeFrom_nil s c hm hc
  induction bytes generalizing s with
  | nil => exact hnil s
  | cons b bs ih =>
    by_cases hb : b.toNat < 0x80
    · have hsame : Char.ofNat b.toNat = c ↔ b = UInt8.ofNat c.toNat := by
        rw [eq_ofNat_iff hc]
        exact ⟨fun h => h ▸ (toNat_ofNat_ascii hb).symm, fun h => h ▸ Char.ofNat_toNat c⟩
      rw [decodeFrom_cons_ascii hs hb, List.count_append, hnil, Nat.zero_add, List.count_cons,
        List.count_cons, ih start_open]
      simp only [beq_iff_eq, hsame]
    · have hne : b ≠ UInt8.ofNat c.toNat := fun h => hb ((eq_ofNat_iff hc).mp h ▸ hc.2)
      have hstep : (step s b.toNat).1.count c = 0 :=
        List.count_eq_zero.mpr fun hm => not_plain_step hs (Nat.le_of_not_lt hb) c hm hc
      rw [decodeFrom_cons, List.count_append, hstep, Nat.zero_add, ih (step_open hs _),
        List.count_cons_of_ne hne]

theorem toNat_ofNat_plain (hc : Plain c) : (UInt8.ofNat c.toNat).toNat = c.toNat :=
  (eq_ofNat_iff hc).mp rfl

def asciiBytes (w : List Char) : List UInt8 := w.map fun c => UInt8.ofNat c.toNat

theorem toList_loop (bytes : ByteArray) (i : Nat) (r : List UInt8) :
    ByteArray.toList.loop bytes i r = r.reverse ++ bytes.data.toList.drop i := by
  fun_induction ByteArray.toList.loop bytes i r with
  | case1 i r h ih =>
    have hi : i < bytes.data.toList.length := by simpa using h
    rw [ih, List.drop_eq_getElem_cons hi]
    simp [ByteArray.get!, h]
  | case2 i r h => simp [List.drop_eq_nil_of_le, Nat.le_of_not_lt h]

theorem toList_toByteArray (bytes : List UInt8) : bytes.toByteArray.toList = bytes := by
  rw [ByteArray.toList, toList_loop, List.toList_data_toByteArray]
  rfl

theorem toUTF8_ofList {w : List Char} (h : ∀ c ∈ w, Plain c) :
    (String.ofList w).toUTF8.toList = asciiBytes w := by
  have hchar : ∀ c ∈ w, String.utf8EncodeChar c = [UInt8.ofNat c.toNat] := by
    intro c hc
    exact if_pos (Nat.le_of_lt_succ (h c hc).2)
  show (w.flatMap String.utf8EncodeChar).toByteArray.toList = asciiBytes w
  rw [toList_toByteArray, asciiBytes, List.map_eq_flatMap]
  exact List.flatMap_congr hchar

theorem step_ne_nil (s : State) (b : Nat) : (step s b).1 ++ decodeFrom (step s b).2 [] ≠ [] := by
  have hfirst : (first b).1 ++ decodeFrom (first b).2 [] ≠ [] := by
    unfold first
    split_ifs <;> simp [decodeFrom]
  cases s with
  | start => exact hfirst
  | inside bits more low high =>
    by_cases hin : low ≤ b ∧ b ≤ high
    · cases more with
      | zero => simp [step_last hin]
      | succ more => simp [step_more hin, decodeFrom]
    · simp [step_broken hin]

theorem decodeFrom_ne_nil (s : State) (b : UInt8) (bs : List UInt8) :
    decodeFrom s (b :: bs) ≠ [] := by
  induction bs generalizing s b with
  | nil =>
    rw [decodeFrom_cons]
    exact step_ne_nil s b.toNat
  | cons d rest ih =>
    rw [decodeFrom_cons]
    exact fun h => ih _ d (List.append_eq_nil_iff.mp h).2

section Words

variable {w : List Char}

/-- A word at the beginning of a text is read from its bytes. -/
theorem decodeFrom_asciiBytes (hw : ∀ c ∈ w, Plain c) (after : List UInt8) :
    decodeFrom .start (asciiBytes w ++ after) = w ++ decodeFrom .start after := by
  induction w with
  | nil => rfl
  | cons c rest ih =>
    have hc := hw c List.mem_cons_self
    have hb : (UInt8.ofNat c.toNat).toNat < 0x80 := by
      rw [toNat_ofNat_plain hc]
      exact hc.2
    show decodeFrom .start (UInt8.ofNat c.toNat :: (asciiBytes rest ++ after)) = _
    rw [decodeFrom_cons_ascii start_open hb, ih fun d hd => hw d (List.mem_cons_of_mem c hd),
      toNat_ofNat_plain hc, Char.ofNat_toNat]
    rfl

/-- What stands before a word and what stands behind it are read each by itself. -/
theorem decodeFrom_append_word (hw : ∀ c ∈ w, Plain c) (hne : w ≠ []) (hs : s.Open)
    (before after : List UInt8) :
    decodeFrom s (before ++ asciiBytes w ++ after) =
      decodeFrom s before ++ w ++ decodeFrom .start after := by
  cases w with
  | nil => exact absurd rfl hne
  | cons c rest =>
    have hc := hw c List.mem_cons_self
    have hb : (UInt8.ofNat c.toNat).toNat < 0x80 := by
      rw [toNat_ofNat_plain hc]
      exact hc.2
    have hrest := decodeFrom_asciiBytes (fun d hd => hw d (List.mem_cons_of_mem c hd)) after
    rw [List.append_assoc, List.append_assoc]
    show decodeFrom s (before ++ UInt8.ofNat c.toNat :: (asciiBytes rest ++ after)) = _
    rw [decodeFrom_append_ascii hs before hb, hrest, toNat_ofNat_plain hc, Char.ofNat_toNat]
    simp

theorem exists_of_decodeFrom_start (hw : ∀ c ∈ w, Plain c) (h : decodeFrom .start bytes = w ++ v) :
    ∃ after, bytes = asciiBytes w ++ after ∧ decodeFrom .start after = v := by
  induction w generalizing bytes with
  | nil => exact ⟨bytes, rfl, h⟩
  | cons c rest ih =>
    have hc := hw c List.mem_cons_self
    have hread : decodeFrom .start bytes = [] ++ c :: (rest ++ v) := h
    obtain ⟨before, b, after, rfl, hb, hbefore, hafter⟩ := exists_of_decodeFrom start_open hc hread
    cases before with
    | cons d before => exact absurd hbefore (decodeFrom_ne_nil _ d before)
    | nil =>
      obtain ⟨after', rfl, hv⟩ := ih (fun d hd => hw d (List.mem_cons_of_mem c hd)) hafter
      exact ⟨after', by rw [(eq_ofNat_iff hc).mpr hb]; rfl, hv⟩

/-- A word of ASCII characters was read from its bytes. -/
theorem exists_of_decodeFrom_word (hw : ∀ c ∈ w, Plain c) (hne : w ≠ []) (hs : s.Open)
    (h : decodeFrom s bytes = u ++ w ++ v) :
    ∃ before after, bytes = before ++ asciiBytes w ++ after ∧ decodeFrom s before = u ∧
      decodeFrom .start after = v := by
  cases w with
  | nil => exact absurd rfl hne
  | cons c rest =>
    have hc := hw c List.mem_cons_self
    rw [List.append_assoc] at h
    obtain ⟨before, b, after, rfl, hb, hbefore, hafter⟩ := exists_of_decodeFrom hs hc h
    obtain ⟨after', rfl, hv⟩ :=
      exists_of_decodeFrom_start (fun d hd => hw d (List.mem_cons_of_mem c hd)) hafter
    refine ⟨before, after', ?_, hbefore, hv⟩
    rw [(eq_ofNat_iff hc).mpr hb, List.append_assoc]
    rfl

end Words

end CodeAtlas.Text.Utf8
