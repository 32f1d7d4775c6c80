import CodeAtlas.Proofs.Text.Line
import CodeAtlas.Proofs.Text.Utf8
import CodeAtlas.Text.Word

/-!
Where the words of a text stand. A word with what is kept before and behind it is the whole text
again. If the text was read from bytes, the bytes of a word stand in them too, behind as many line
feeds and on their line behind as many characters as a call with that name says.
-/

namespace CodeAtlas.Text

variable {text before : List Char} {o : Occurrence}

/-- The characters of words are visible ASCII characters. -/
theorem toNat_of_isWordChar {c : Char} (h : isWordChar c = true) :
    32 < c.toNat ∧ c.toNat < 0x80 := by
  unfold isWordChar Char.isAlphanum Char.isAlpha Char.isUpper Char.isLower Char.isDigit at h
  simp only [Bool.or_eq_true, Bool.and_eq_true, decide_eq_true_eq, beq_iff_eq,
    UInt32.le_iff_toNat_le, ge_iff_le] at h
  rcases h with ((h | h) | h) | rfl
  · simp at h
    omega
  · simp at h
    omega
  · simp at h
    omega
  · decide

/-- Words are ASCII and stand on one line. -/
theorem plain_of_isWordChar {c : Char} (h : isWordChar c = true) : Utf8.Plain c ∧ c ≠ '\n' := by
  obtain ⟨hlow, hhigh⟩ := toNat_of_isWordChar h
  refine ⟨⟨by omega, hhigh⟩, ?_⟩
  rintro rfl
  exact absurd hlow (by decide)

structure Occurrence.In (o : Occurrence) (text : List Char) : Prop where
  text_eq : text = o.before.reverse ++ o.word ++ o.after
  word_ne : o.word ≠ []
  chars : ∀ c ∈ o.word, isWordChar c = true

/-- A word character with the ones that follow it and what stands behind them. -/
theorem run_append (c : Char) (rest : List Char) :
    (c :: rest.takeWhile isWordChar) ++ rest.dropWhile isWordChar = c :: rest := by
  rw [List.cons_append, List.takeWhile_append_dropWhile]

theorem isWordChar_of_mem_run {c d : Char} {rest : List Char} (hc : isWordChar c = true)
    (hd : d ∈ c :: rest.takeWhile isWordChar) : isWordChar d = true := by
  rcases List.mem_cons.mp hd with rfl | hd
  · exact hc
  · exact List.mem_takeWhile_imp hd

theorem occurrencesAfter_in (before text : List Char) :
    ∀ o ∈ occurrencesAfter before text, o.In (before.reverse ++ text) := by
  fun_induction occurrencesAfter before text with
  | case1 before => exact fun o ho => absurd ho List.not_mem_nil
  | case2 before c rest hc run after word others hword ih =>
    rwa [List.reverse_append, List.reverse_reverse, List.append_assoc, run_append] at ih
  | case3 before c rest hc run after word others hword ih =>
    intro o ho
    cases List.mem_cons.mp ho with
    | inl ho =>
      subst ho
      have hrun : run.takeWhile Char.isDigit ++ word = run := List.takeWhile_append_dropWhile
      refine ⟨?_, by simpa using hword, fun d hd => ?_⟩
      · show before.reverse ++ c :: rest =
          ((run.takeWhile Char.isDigit).reverse ++ before).reverse ++ word ++ after
        rw [List.reverse_append, List.reverse_reverse, List.append_assoc, List.append_assoc,
          ← List.append_assoc _ word, hrun, run_append]
      · exact isWordChar_of_mem_run hc ((List.dropWhile_sublist _).subset hd)
    | inr ho =>
      rw [List.reverse_append, List.reverse_reverse, List.append_assoc, run_append] at ih
      exact ih o ho
  | case4 before c rest hc ih =>
    rwa [List.reverse_cons, List.append_assoc] at ih

theorem occurrences_in (h : o ∈ occurrences text) : o.In text :=
  occurrencesAfter_in [] text o h

theorem name_ne_of_mem_callSites {text : String} {s : CallSite} (h : s ∈ callSites text) :
    s.name.toList ≠ [] := by
  obtain ⟨o, ho, rfl⟩ := List.mem_map.mp h
  rw [Occurrence.toCallSite, String.toList_ofList]
  exact (occurrences_in (List.mem_of_mem_filter ho)).word_ne

theorem name_mem_identifiers {text : String} {s : CallSite} (h : s ∈ callSites text) :
    s.name ∈ identifiers text := by
  obtain ⟨o, ho, rfl⟩ := List.mem_map.mp h
  rw [identifiers, List.mem_eraseDups]
  exact List.mem_map.mpr ⟨o, List.mem_of_mem_filter ho, rfl⟩

structure CallSite.At (s : CallSite) (bytes above before after : List UInt8) : Prop where
  bytes_eq : bytes = above ++ before ++ Utf8.asciiBytes s.name.toList ++ after
  ends : EndsLine 10 above
  onLine : 10 ∉ before
  line : above.count 10 = s.lineOffset
  column : (Utf8.decodeFrom .start before).length + 1 = s.column
  name_ne : s.name.toList ≠ []
  chars : ∀ c ∈ s.name.toList, isWordChar c = true

theorem newline_not_mem_asciiBytes {w : List Char} (h : ∀ c ∈ w, isWordChar c = true) :
    10 ∉ Utf8.asciiBytes w := by
  intro hm
  obtain ⟨c, hc, he⟩ := List.mem_map.mp hm
  obtain ⟨hplain, hne⟩ := plain_of_isWordChar (h c hc)
  have hten : c.toNat = 10 := ((Utf8.eq_ofNat_iff hplain).mp he.symm).symm
  exact hne (Char.toNat_inj.mp hten)

theorem plain_newline : Utf8.Plain '\n' := by
  unfold Utf8.Plain
  decide

/-- The lines above a place and the start of its line are read each by itself. -/
theorem exists_line_bytes {bytes : List UInt8} {above before : List Char}
    (habove : EndsLine '\n' above) (hbefore : '\n' ∉ before)
    (h : Utf8.decodeFrom .start bytes = above ++ before) :
    ∃ above' before', bytes = above' ++ before' ∧ EndsLine 10 above' ∧ 10 ∉ before' ∧
      above'.count 10 = above.count '\n' ∧ Utf8.decodeFrom .start before' = before := by
  have hcount := fun bytes => Utf8.count_decodeFrom Utf8.start_open plain_newline bytes
  rcases habove with rfl | ⟨rest, rfl⟩
  · refine ⟨[], bytes, rfl, Or.inl rfl, ?_, rfl, h⟩
    have hc := hcount bytes
    rw [h] at hc
    exact List.count_eq_zero.mp (hc.symm.trans (List.count_eq_zero.mpr hbefore))
  · rw [List.append_assoc] at h
    obtain ⟨p, b, q, rfl, hb, hp, hq⟩ := Utf8.exists_of_decodeFrom Utf8.start_open plain_newline h
    obtain rfl : b = 10 := (Utf8.eq_ofNat_iff plain_newline).mpr hb
    refine ⟨p ++ [10], q, by simp, Or.inr ⟨p, rfl⟩, ?_, ?_, hq⟩
    · have hc := hcount q
      rw [hq] at hc
      exact List.count_eq_zero.mp (hc.symm.trans (List.count_eq_zero.mpr hbefore))
    · have hc := hcount p
      rw [hp] at hc
      rw [List.count_append, List.count_append, hc]
      rfl

/-- The name of a call stands in the bytes where the call says. -/
theorem exists_at {bytes : List UInt8} {s : CallSite} (h : s ∈ callSites (Utf8.decode bytes)) :
    ∃ above before after, s.At bytes above before after := by
  obtain ⟨o, ho, rfl⟩ := List.mem_map.mp h
  have hin := occurrences_in (List.mem_of_mem_filter ho)
  have hplain : ∀ c ∈ o.word, Utf8.Plain c := fun c hc => (plain_of_isWordChar (hin.chars c hc)).1
  have htext : Utf8.decodeFrom .start bytes = o.before.reverse ++ o.word ++ o.after := by
    rw [← hin.text_eq, Utf8.decode, String.toList_ofList]
  obtain ⟨start, after, hbytes, hstart, -⟩ :=
    Utf8.exists_of_decodeFrom_word hplain hin.word_ne Utf8.start_open htext
  obtain ⟨lines, hlines, hends, hcount⟩ := exists_above '\n' o.before.reverse
  have hline : lastLine '\n' o.before.reverse = o.lineBefore.reverse := by
    rw [lastLine, List.reverse_reverse, Occurrence.lineBefore]
  obtain ⟨above, before, rfl, habove, hbefore, hline', hread⟩ :=
    exists_line_bytes hends (not_mem_lastLine _ _) (hstart.trans hlines)
  refine ⟨above, before, after, ?_⟩
  constructor
  · rw [hbytes, Occurrence.toCallSite, String.toList_ofList]
  · exact habove
  · exact hbefore
  · rw [hline', hcount, List.count_reverse]
    rfl
  · rw [hread, hline, List.length_reverse]
    rfl
  · exact name_ne_of_mem_callSites h
  · rw [Occurrence.toCallSite, String.toList_ofList]
    exact hin.chars

end CodeAtlas.Text
