import CodeAtlas.Proofs.Text.Run
import CodeAtlas.Proofs.Text.Strip

/-!
The calls of a text, read off its runs of word characters: a run is called if an opening parenthesis
follows it behind blanks, line feeds among them, and its word is no control word. Each called run
has one call, which says where its word stands.
-/

namespace CodeAtlas.Text

variable {r : Run} {o : Occurrence} {text : List Char}

theorem Occurrence.opensCall_iff :
    o.opensCall = true ↔ ∃ blanks rest, o.after = blanks ++ '(' :: rest ∧ ∀ c ∈ blanks,
      isBlank c = true := by
  rw [opensCall, beq_iff_eq]
  constructor
  · intro hhead
    obtain ⟨rest, hrest⟩ := List.head?_eq_some_iff.mp hhead
    obtain ⟨blanks, hafter, hblanks, -⟩ := dropWhile_eq_iff.mp hrest
    exact ⟨blanks, rest, hafter, hblanks⟩
  · rintro ⟨blanks, rest, hafter, hblanks⟩
    have hrest : trimStart o.after = '(' :: rest :=
      dropWhile_eq_iff.mpr ⟨blanks, hafter, hblanks, fun c hc => Option.some.inj hc ▸ rfl⟩
    rw [hrest, List.head?_cons]

namespace Run

/-- Whether a run, its leading digits dropped, is a word that is called. -/
structure IsCalled (r : Run) : Prop where
  word_ne : r.word ≠ []
  not_control : String.ofList r.word ∉ controlWords
  opens : ∃ blanks rest, r.after = blanks ++ '(' :: rest ∧ ∀ c ∈ blanks, isBlank c = true

/-- What a call says of its word: the line by the number of line feeds above, the column by the
characters before it on the line, and the line without the blanks at its ends. -/
structure HasSite (text : List Char) (r : Run) (s : CallSite) : Prop where
  name : s.name.toList = r.word
  lineOffset : s.lineOffset = r.lead.count '\n'
  onLine : ∃ above start rest line, r.lead = above ++ start ∧ EndsLine '\n' above ∧ '\n' ∉ start ∧
    s.column = start.length + 1 ∧ line = start ++ r.word ++ rest ∧
      (text.splitOn '\n')[s.lineOffset]? = some line ∧ Stripped isBlank s.snippet.toList line

theorem isCalled_iff :
    r.IsCalled ↔ r.word.isEmpty = false ∧ (r.occurrence.opensCall &&
      !controlWords.contains (String.ofList r.occurrence.word)) = true := by
  rw [Bool.and_eq_true, Occurrence.opensCall_iff, List.isEmpty_eq_false_iff, Bool.not_eq_true',
    Bool.eq_false_iff]
  constructor
  · rintro ⟨hne, hcontrol, hopens⟩
    exact ⟨hne, hopens, fun h => hcontrol (List.contains_iff_mem.mp h)⟩
  · rintro ⟨hne, hopens, hcontrol⟩
    exact ⟨hne, fun h => hcontrol (List.contains_iff_mem.mpr h), hopens⟩

theorem In.newline_not_mem_word (h : r.In text) : '\n' ∉ r.word := fun hm =>
  (plain_of_isWordChar (h.chars _ ((List.dropWhile_sublist _).subset hm))).2 rfl

theorem In.text_eq_word (h : r.In text) : text = r.lead ++ r.word ++ r.after := by
  rw [lead_append_word, h.text_eq]

/-- The line of a word is that of the text with the number of line feeds above the word. -/
theorem In.line_eq (h : r.In text) {above start : List Char} (hlead : r.lead = above ++ start)
    (habove : EndsLine '\n' above) (hstart : '\n' ∉ start) :
    (text.splitOn '\n')[above.count '\n']? =
      some (start ++ r.word ++ r.after.takeWhile (· != '\n')) := by
  have hline : ∀ c ∈ start ++ r.word, (c != '\n') = true := by
    intro c hc
    rw [bne_iff_ne]
    rintro rfl
    rcases List.mem_append.mp hc with hc | hc
    · exact hstart hc
    · exact h.newline_not_mem_word hc
  have htext : text = above ++ (start ++ r.word ++ r.after) := by
    rw [h.text_eq_word, hlead, List.append_assoc, List.append_assoc, List.append_assoc]
  rw [htext, getElem?_splitOn habove, List.takeWhile_append_of_pos hline]

theorem In.hasSite (h : r.In text) : r.HasSite text r.occurrence.toCallSite := by
  obtain ⟨above, hlead, habove, hcount⟩ := exists_above '\n' r.lead
  have hstart : r.occurrence.lineBefore = (lastLine '\n' r.lead).reverse := by
    rw [lastLine, List.reverse_reverse]
    rfl
  have hoffset : r.occurrence.toCallSite.lineOffset = r.lead.count '\n' := List.count_reverse
  have hnotin := not_mem_lastLine '\n' r.lead
  refine ⟨String.toList_ofList, hoffset, above, _, r.after.takeWhile (· != '\n'), _, hlead, habove,
    hnotin, ?_, rfl, ?_, ?_⟩
  · rw [Occurrence.toCallSite, hstart, List.length_reverse]
  · rw [hoffset, ← hcount]
    exact h.line_eq hlead habove hnotin
  · rw [Occurrence.toCallSite, String.toList_ofList, Occurrence.line, hstart, List.reverse_reverse]
    exact strip_eq_iff.mp rfl

end Run

open Run

/-- The calls of a text are its called runs in order, one call for each. -/
theorem callSites_runs (text : String) : ∃ runs : List Run, runs.Pairwise Precedes ∧
    (∀ r, r ∈ runs ↔ r.In text.toList ∧ r.IsCalled) ∧ List.Forall₂ (HasSite text.toList) runs
      (callSites text) := by
  obtain ⟨runs, hordered, hmem, he⟩ := exists_runs text.toList
  have hsites : callSites text =
      ((runs.filter fun r => !r.word.isEmpty && (r.occurrence.opensCall &&
      !controlWords.contains (String.ofList r.occurrence.word))).map fun r =>
          r.occurrence.toCallSite) := by
    rw [callSites, he, List.filter_map, List.filter_filter, List.map_map]
    simp only [Function.comp_def, Bool.and_comm]
  have hcalled : ∀ r, r ∈ runs.filter (fun r => !r.word.isEmpty && (r.occurrence.opensCall &&
      !controlWords.contains (String.ofList r.occurrence.word))) ↔
          r.In text.toList ∧ r.IsCalled := by
    intro r
    rw [List.mem_filter, hmem, isCalled_iff, Bool.and_eq_true, Bool.not_eq_true']
  refine ⟨_, hordered.filter _, hcalled, ?_⟩
  rw [hsites, List.forall₂_map_right_iff, List.forall₂_same]
  exact fun r hr => ((hcalled r).mp hr).1.hasSite

/-- The line is that of the name, wherever the parenthesis stands; a control word is passed over. -/
example : callSites "if (é)\n  x = 2go \n (1)" = [⟨"go", 1, 8, "x = 2go"⟩] := by
  decide +kernel

end CodeAtlas.Text
