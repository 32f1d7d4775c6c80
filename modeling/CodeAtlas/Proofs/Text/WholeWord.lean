import CodeAtlas.Proofs.Text.Run
import CodeAtlas.Text.Alphanumeric

/-!
Identifiers as whole words. An identifier is found in a text exactly where no word character follows
it and none precedes it but digits: one that stands alone is always found, but `xff` is found in
`0xff` too.
-/

namespace CodeAtlas.Text

variable {word text : List Char} {c : Char}

/-- The shape of identifiers: an ASCII letter or an underscore, then ASCII letters, digits and
underscores. -/
def IsIdentifier (word : List Char) : Prop :=
  ∃ c rest, word = c :: rest ∧ (c.isAlpha = true ∨ c = '_') ∧ ∀ d ∈ rest, isWordChar d = true

/-- Letters and digits of all scripts, and the underscore. -/
def isLetterLike (c : Char) : Bool :=
  isAlphanumeric c || c == '_'

/-- Letters and digits outside ASCII. -/
def isForeign (c : Char) : Bool :=
  decide (128 ≤ c.toNat) && isAlphanumeric c

/-- Whether a word stands in a text at a place where no character of a class is next to it. -/
def StandsApart (p : Char → Bool) (word text : List Char) : Prop :=
  ∃ before after, text = before ++ word ++ after ∧ (∀ c ∈ before.getLast?, p c = false) ∧
    ∀ c ∈ after.head?, p c = false

theorem isWordChar_of_isDigit (h : c.isDigit = true) : isWordChar c = true := by
  simp [isWordChar, Char.isAlphanum, h]

theorem isAlpha_or_of_isWordChar (h : isWordChar c = true) (hd : c.isDigit = false) :
    c.isAlpha = true ∨ c = '_' := by
  simpa [isWordChar, Char.isAlphanum, hd] using h

theorem not_isDigit_of_isAlpha_or (h : c.isAlpha = true ∨ c = '_') : c.isDigit = false := by
  rcases h with h | rfl
  · have hcode : (65 ≤ c.toNat ∧ c.toNat ≤ 90) ∨ (97 ≤ c.toNat ∧ c.toNat ≤ 122) := by
      simpa [Char.isAlpha, Char.isUpper, Char.isLower, UInt32.le_iff_toNat_le] using h
    have hnine : '0'.toNat = 48 ∧ '9'.toNat = 57 := ⟨rfl, rfl⟩
    rw [Bool.eq_false_iff, Ne, Char.isDigit_iff_toNat]
    omega
  · rfl

theorem isForeign_of_isLetterLike (h : isLetterLike c = true) (hc : isWordChar c = false) :
    isForeign c = true := by
  obtain ⟨hplain, hunder⟩ := Bool.or_eq_false_iff.mp hc
  have hwide : isAlphanumeric c = true := by simpa [isLetterLike, hunder] using h
  have hcode : ¬ c.toNat < 128 := by
    intro hlt
    rw [isAlphanumeric, if_pos hlt, hplain] at hwide
    cases hwide
  simp [isForeign, hwide, Nat.le_of_not_lt hcode]

namespace IsIdentifier

theorem ne_nil (h : IsIdentifier word) : word ≠ [] := by
  obtain ⟨c, rest, rfl, -, -⟩ := h
  exact List.cons_ne_nil c rest

theorem chars (h : IsIdentifier word) : ∀ c ∈ word, isWordChar c = true := by
  obtain ⟨c, rest, rfl, hc, hrest⟩ := h
  refine List.forall_mem_cons.mpr ⟨?_, hrest⟩
  rcases hc with hc | rfl
  · simp [isWordChar, Char.isAlphanum, hc]
  · rfl

/-- Digits before an identifier are no part of it. -/
theorem dropWhile_append {digits : List Char} (h : IsIdentifier word)
    (hd : ∀ d ∈ digits, d.isDigit = true) : (digits ++ word).dropWhile Char.isDigit = word := by
  obtain ⟨c, rest, rfl, hc, -⟩ := h
  rw [List.dropWhile_append_of_pos hd, List.dropWhile_cons_of_neg]
  simp [not_isDigit_of_isAlpha_or hc]

end IsIdentifier

/-- What is left of a run without its leading digits is an identifier. -/
theorem Run.In.isIdentifier {r : Run} (h : r.In text) (hne : r.word ≠ []) :
    IsIdentifier r.word := by
  obtain ⟨c, rest, hword⟩ := List.exists_cons_of_ne_nil hne
  have hchars : ∀ d ∈ r.word, isWordChar d = true :=
    fun d hd => h.chars d ((List.dropWhile_sublist _).subset hd)
  rw [hword] at hchars ⊢
  obtain ⟨hc, hrest⟩ := List.forall_mem_cons.mp hchars
  have hhead := List.head?_dropWhile_not Char.isDigit r.chars
  rw [← Run.word, hword] at hhead
  exact ⟨c, rest, rfl, isAlpha_or_of_isWordChar hc hhead, hrest⟩

theorem mem_identifiers_iff {text w : String} :
    w ∈ identifiers text ↔ ∃ r : Run, r.In text.toList ∧ r.word ≠ [] ∧ r.word = w.toList := by
  rw [identifiers, List.mem_eraseDups, allIdentifiers, List.mem_map]
  constructor
  · rintro ⟨o, ho, rfl⟩
    obtain ⟨r, hr, hne, rfl⟩ := mem_occurrences_iff.mp ho
    exact ⟨r, hr, hne, String.toList_ofList.symm⟩
  · rintro ⟨r, hr, hne, hw⟩
    refine ⟨r.occurrence, mem_occurrences_iff.mpr ⟨r, hr, hne, rfl⟩, ?_⟩
    rw [Run.occurrence, hw, String.ofList_toList]

/-- A word is found exactly if it is an identifier that no word character follows and none but
digits precedes. -/
theorem mem_identifiers_iff_exists {text w : String} :
    w ∈ identifiers text ↔ IsIdentifier w.toList ∧ ∃ before digits after,
      text.toList = before ++ digits ++ w.toList ++ after ∧ (∀ d ∈ digits, d.isDigit = true) ∧
        (∀ c ∈ before.getLast?, isWordChar c = false) ∧ ∀ c ∈ after.head?,
            isWordChar c = false := by
  rw [mem_identifiers_iff]
  constructor
  · rintro ⟨r, hr, hne, hw⟩
    refine ⟨hw ▸ hr.isIdentifier hne, r.before, r.digits, r.after, ?_, ?_, hr.before, hr.after⟩
    · rw [← hw, List.append_assoc r.before, r.digits_append_word, hr.text_eq]
    · exact fun d hd => List.mem_takeWhile_imp hd
  · rintro ⟨hw, before, digits, after, htext, hdigits, hbefore, hafter⟩
    have hword : (Run.mk before (digits ++ w.toList) after).word = w.toList :=
      hw.dropWhile_append hdigits
    refine ⟨⟨before, digits ++ w.toList, after⟩, ⟨?_, ?_, ?_, hbefore, hafter⟩, ?_, hword⟩
    · rw [htext, List.append_assoc before]
    · exact List.append_ne_nil_of_right_ne_nil digits hw.ne_nil
    · intro c hc
      rcases List.mem_append.mp hc with hc | hc
      · exact isWordChar_of_isDigit (hdigits c hc)
      · exact hw.chars c hc
    · rw [hword]
      exact hw.ne_nil

/-- An identifier that stands apart from all word characters is found. What is found is an
identifier that stands apart from all letters, digits and underscores, unless a digit precedes it or
a letter or digit outside ASCII is next to it. -/
theorem identifiers_wholeWords (text w : String) :
    (w ∈ identifiers text ↔ IsIdentifier w.toList ∧ ∃ before digits after,
      text.toList = before ++ digits ++ w.toList ++ after ∧ (∀ d ∈ digits, d.isDigit = true) ∧
        (∀ c ∈ before.getLast?, isWordChar c = false) ∧ ∀ c ∈ after.head?, isWordChar c = false) ∧
    (IsIdentifier w.toList → StandsApart isWordChar w.toList text.toList → w ∈ identifiers text) ∧
    (w ∈ identifiers text → StandsApart isLetterLike w.toList text.toList ∨
      ∃ before after, text.toList = before ++ w.toList ++ after ∧
        ((∃ c ∈ before.getLast?, c.isDigit = true ∨ isForeign c = true) ∨
            ∃ c ∈ after.head?, isForeign c = true)) := by
  refine ⟨mem_identifiers_iff_exists, ?_, ?_⟩
  · rintro hw ⟨before, after, htext, hbefore, hafter⟩
    refine mem_identifiers_iff_exists.mpr ⟨hw, before, [], after, ?_, List.forall_mem_nil _,
      hbefore, hafter⟩
    rw [htext, List.append_nil]
  · intro h
    obtain ⟨-, before, digits, after, htext, hdigits, hbefore, hafter⟩ :=
      mem_identifiers_iff_exists.mp h
    rcases List.eq_nil_or_concat' digits with rfl | ⟨init, d, rfl⟩
    · rw [List.append_nil] at htext
      by_cases hapart : (∀ c ∈ before.getLast?, isLetterLike c = false) ∧ ∀ c ∈ after.head?,
        isLetterLike c = false
      · exact Or.inl ⟨before, after, htext, hapart⟩
      · refine Or.inr ⟨before, after, htext, ?_⟩
        rw [Classical.not_and_iff_not_or_not] at hapart
        rcases hapart with hapart | hapart
        · simp only [not_forall, Bool.not_eq_false] at hapart
          obtain ⟨c, hc, hlike⟩ := hapart
          exact Or.inl ⟨c, hc, Or.inr (isForeign_of_isLetterLike hlike (hbefore c hc))⟩
        · simp only [not_forall, Bool.not_eq_false] at hapart
          obtain ⟨c, hc, hlike⟩ := hapart
          exact Or.inr ⟨c, hc, isForeign_of_isLetterLike hlike (hafter c hc)⟩
    · refine Or.inr ⟨before ++ (init ++ [d]), after, htext, Or.inl ⟨d, ?_, Or.inl ?_⟩⟩
      · rw [← List.append_assoc, List.getLast?_concat]
        rfl
      · exact hdigits d (List.mem_append_right init List.mem_cons_self)

theorem isIdentifier_ff : IsIdentifier "ff".toList :=
  ⟨'f', ['f'], rfl, Or.inl rfl, by simp [isWordChar]⟩

/-- A call is found, and the hexadecimal digits behind an underscore are not. -/
theorem identifiers_wholeWords_call : IsIdentifier "ff".toList ∧
    StandsApart isWordChar "ff".toList "0_ff + ff(1)".toList ∧
      "ff" ∈ identifiers "0_ff + ff(1)" := by
  have hapart : StandsApart isWordChar "ff".toList "0_ff + ff(1)".toList :=
    ⟨"0_ff + ".toList, "(1)".toList, rfl, fun _ hc => Option.some.inj hc ▸ rfl,
    fun _ hc => Option.some.inj hc ▸ rfl⟩
  exact ⟨isIdentifier_ff, hapart, (identifiers_wholeWords _ _).2.1 isIdentifier_ff hapart⟩

/-- The end of a hexadecimal numeral is found, with a digit before it at its only place. -/
theorem not_standsApart_hexNumeral :
    "xff" ∈ identifiers "0xff" ∧ ¬ StandsApart isLetterLike "xff".toList "0xff".toList := by
  refine ⟨by decide +kernel, ?_⟩
  rintro ⟨before, after, htext, hbefore, -⟩
  have hlen := congrArg List.length htext
  rw [List.length_append, List.length_append] at hlen
  change 4 = before.length + 3 + after.length at hlen
  rcases before with - | ⟨c, - | ⟨d, rest⟩⟩
  · exact absurd (List.cons.inj htext).1 (by decide)
  · obtain rfl : '0' = c := (List.cons.inj htext).1
    exact absurd (hbefore '0' rfl) (by decide)
  · rw [List.length_cons, List.length_cons] at hlen
    omega

end CodeAtlas.Text
