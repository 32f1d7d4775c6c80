import CodeAtlas.Proofs.Text.Word

/-!
Maximal runs of word characters. A text is cut into them and what stands between them in one way
only; the words that are found in it are its runs without their leading digits, in order.
-/

namespace CodeAtlas.Text

/-- A piece of a text with what stands before and behind it. -/
structure Run where
  before : List Char
  chars : List Char
  after : List Char

namespace Run

variable {r s : Run} {text before : List Char} {c : Char} {o : Occurrence}

/-- Whether a piece is a run of word characters that no word character precedes or follows. -/
structure In (r : Run) (text : List Char) : Prop where
  text_eq : text = r.before ++ r.chars ++ r.after
  chars_ne : r.chars ≠ []
  chars : ∀ c ∈ r.chars, isWordChar c = true
  before : ∀ c ∈ r.before.getLast?, isWordChar c = false
  after : ∀ c ∈ r.after.head?, isWordChar c = false

def digits (r : Run) : List Char :=
  r.chars.takeWhile Char.isDigit

def word (r : Run) : List Char :=
  r.chars.dropWhile Char.isDigit

def lead (r : Run) : List Char :=
  r.before ++ r.digits

def occurrence (r : Run) : Occurrence :=
  ⟨r.lead.reverse, r.word, r.after⟩

def Precedes (r s : Run) : Prop :=
  r.before.length + r.chars.length ≤ s.before.length

theorem digits_append_word (r : Run) : r.digits ++ r.word = r.chars :=
  List.takeWhile_append_dropWhile

theorem lead_append_word (r : Run) : r.lead ++ r.word = r.before ++ r.chars := by
  rw [lead, List.append_assoc, digits_append_word]

/-- What stands before a run that begins inside another ends in a character of the other, so they
begin together. -/
theorem In.before_eq (hr : r.In text) (hs : s.In text) (hfirst : r.before.length ≤ s.before.length)
    (hmeet : s.before.length < r.before.length + r.chars.length) : s.before = r.before := by
  have hr' : r.before <+: text := ⟨r.chars ++ r.after, by rw [hr.text_eq, List.append_assoc]⟩
  have hs' : s.before <+: text := ⟨s.chars ++ s.after, by rw [hs.text_eq, List.append_assoc]⟩
  obtain ⟨inner, hinner⟩ := List.prefix_of_prefix_length_le hr' hs' hfirst
  have hrest : r.chars ++ r.after = inner ++ (s.chars ++ s.after) := by
    apply (List.append_right_inj r.before).mp
    rw [← List.append_assoc, ← hr.text_eq, ← List.append_assoc, hinner, ← List.append_assoc,
      ← hs.text_eq]
  have hshort : inner.length < r.chars.length := by
    have hlen := congrArg List.length hinner
    rw [List.length_append] at hlen
    omega
  rcases List.eq_nil_or_concat' inner with rfl | ⟨init, c, rfl⟩
  · rw [← hinner, List.append_nil]
  · have hin : init ++ [c] <+: r.chars :=
      List.prefix_of_prefix_length_le ⟨_, hrest.symm⟩ (List.prefix_append _ _) (Nat.le_of_lt hshort)
    have hword := hr.chars c (hin.subset (List.mem_append_right init List.mem_cons_self))
    have hfree := hs.before c (by rw [← hinner, ← List.append_assoc]; simp)
    rw [hword] at hfree
    cases hfree

/-- A run takes all word characters from its first one on. -/
theorem In.takeWhile (h : r.In text) : (r.chars ++ r.after).takeWhile isWordChar = r.chars := by
  rw [List.takeWhile_append_of_pos h.chars]
  cases ha : r.after with
  | nil => simp
  | cons c rest =>
    rw [List.takeWhile_cons_of_neg (by simp [h.after c (by rw [ha]; rfl)]), List.append_nil]

/-- Two runs of a text that meet are the same. -/
theorem In.unique (hr : r.In text) (hs : s.In text) (hfirst : r.before.length ≤ s.before.length)
    (hmeet : s.before.length < r.before.length + r.chars.length) : s = r := by
  have hbefore := hr.before_eq hs hfirst hmeet
  have hrest : s.chars ++ s.after = r.chars ++ r.after := by
    apply (List.append_right_inj r.before).mp
    rw [← List.append_assoc, ← List.append_assoc, ← hr.text_eq, hs.text_eq, hbefore]
  have hchars : s.chars = r.chars := by
    rw [← hr.takeWhile, ← hs.takeWhile, hrest]
  have hafter : s.after = r.after := by
    rw [hchars] at hrest
    exact List.append_cancel_left hrest
  cases r
  cases s
  simp_all

theorem In.length_lt (h : r.In text) : r.before.length < text.length := by
  have hlen := congrArg List.length h.text_eq
  rw [List.length_append, List.length_append] at hlen
  have hpos := List.length_pos_of_ne_nil h.chars_ne
  omega

/-- The first character of a run is one of words. -/
theorem In.isWordChar_head (h : r.In text) {rest : List Char} (he : text = r.before ++ c :: rest) :
    isWordChar c = true := by
  have hrest : r.chars ++ r.after = c :: rest := by
    apply (List.append_right_inj r.before).mp
    rw [← List.append_assoc, ← h.text_eq, he]
  obtain ⟨d, run, hrun⟩ := List.exists_cons_of_ne_nil h.chars_ne
  rw [hrun, List.cons_append] at hrest
  obtain ⟨rfl, -⟩ := List.cons.inj hrest
  exact h.chars d (hrun ▸ List.mem_cons_self)

/-- The piece of word characters that begins with `c`, behind `before` in reverse order. -/
def starting (before : List Char) (c : Char) (rest : List Char) : Run :=
  ⟨before.reverse, c :: rest.takeWhile isWordChar, rest.dropWhile isWordChar⟩

theorem isWordChar_of_mem_head? {rest : List Char} (h : c ∈ (rest.dropWhile isWordChar).head?) :
    isWordChar c = false := by
  have hhead := List.head?_dropWhile_not isWordChar rest
  rwa [Option.mem_def.mp h] at hhead

theorem in_starting {rest : List Char} (hbefore : ∀ d ∈ before.head?, isWordChar d = false)
    (hc : isWordChar c = true) : (starting before c rest).In (before.reverse ++ c :: rest) := by
  constructor
  · rw [starting, List.append_assoc, run_append]
  · exact List.cons_ne_nil _ _
  · exact fun d hd => isWordChar_of_mem_run hc hd
  · rwa [starting, List.getLast?_reverse]
  · exact fun d hd => isWordChar_of_mem_head? hd

/-- The runs of a text that begin at a position or behind it, in order. -/
structure AllFrom (runs : List Run) (text : List Char) (first : Nat) : Prop where
  ordered : runs.Pairwise Precedes
  mem_iff : ∀ r, r ∈ runs ↔ r.In text ∧ first ≤ r.before.length

namespace AllFrom

variable {runs : List Run}

theorem nil (text : List Char) : AllFrom [] text text.length := by
  refine ⟨List.Pairwise.nil, fun r => ⟨fun hr => absurd hr List.not_mem_nil, ?_⟩⟩
  rintro ⟨hr, hle⟩
  have hlt := hr.length_lt
  omega

/-- A run that begins behind the first character of another begins behind all of it. -/
theorem cons (hr : r.In text) (h : AllFrom runs text (r.before.length + r.chars.length)) :
    AllFrom (r :: runs) text r.before.length := by
  refine ⟨List.pairwise_cons.mpr ⟨fun s hs => ((h.mem_iff s).mp hs).2, h.ordered⟩, fun s => ?_⟩
  rw [List.mem_cons, h.mem_iff]
  constructor
  · rintro (rfl | ⟨hs, hle⟩)
    · exact ⟨hr, Nat.le_refl _⟩
    · exact ⟨hs, Nat.le_trans (Nat.le_add_right _ _) hle⟩
  · rintro ⟨hs, hle⟩
    rcases Nat.lt_or_ge s.before.length (r.before.length + r.chars.length) with hmeet | hbehind
    · exact Or.inl (hr.unique hs hle hmeet)
    · exact Or.inr ⟨hs, hbehind⟩

/-- No run begins with a character that is not one of words. -/
theorem skip {rest : List Char} (hc : isWordChar c = false)
    (h : AllFrom runs (before ++ c :: rest) (before.length + 1)) :
    AllFrom runs (before ++ c :: rest) before.length := by
  refine ⟨h.ordered, fun r => ?_⟩
  rw [h.mem_iff]
  constructor
  · rintro ⟨hr, hle⟩
    exact ⟨hr, Nat.le_of_succ_le hle⟩
  · rintro ⟨hr, hle⟩
    refine ⟨hr, Nat.lt_of_le_of_ne hle fun hlen => ?_⟩
    have he := hr.text_eq
    rw [List.append_assoc] at he
    obtain ⟨hbefore, -⟩ := List.append_inj he hlen
    rw [hr.isWordChar_head (by rw [hbefore])] at hc
    cases hc

/-- Behind the run that a word character begins stand the runs of what follows it. -/
theorem starting {before rest : List Char}
    (hborder : ∀ d ∈ before.head?, ∀ e ∈ (c :: rest).head?, isWordChar e = true →
      isWordChar d = false)
    (hc : isWordChar c = true)
    (h : AllFrom runs (((c :: rest.takeWhile isWordChar).reverse ++ before).reverse ++
      rest.dropWhile isWordChar) ((c :: rest.takeWhile isWordChar).reverse ++ before).length) :
    AllFrom (Run.starting before c rest :: runs) (before.reverse ++ c :: rest) before.length := by
  have hin : (Run.starting before c rest).In (before.reverse ++ c :: rest) :=
    in_starting (fun d hd => hborder d hd c rfl hc) hc
  have hlength : before.length = (Run.starting before c rest).before.length :=
    List.length_reverse.symm
  rw [List.reverse_append, List.reverse_reverse, List.append_assoc, run_append, List.length_append,
    List.length_reverse, Nat.add_comm, hlength] at h
  rw [hlength]
  exact cons hin h

end AllFrom

end Run

open Run

/-- The words of a text that continues another are the runs of the whole that begin in the
continuation, without their leading digits. The induction carries that no run goes across the
border. -/
theorem exists_allFrom (before text : List Char)
    (hborder : ∀ c ∈ before.head?, ∀ d ∈ text.head?, isWordChar d = true → isWordChar c = false) :
    ∃ runs, AllFrom runs (before.reverse ++ text) before.length ∧
      occurrencesAfter before text = (runs.filter fun r => !r.word.isEmpty).map occurrence := by
  fun_induction occurrencesAfter before text with
  | case1 before =>
    refine ⟨[], ?_, rfl⟩
    simpa using AllFrom.nil before.reverse
  | case2 before c rest hc run after word others hword ih =>
    obtain ⟨runs, hruns, he⟩ := ih fun _ _ e he hword =>
      absurd (isWordChar_of_mem_head? he) (by simp [hword])
    refine ⟨_, hruns.starting hborder hc, ?_⟩
    have hempty : (Run.starting before c rest).word.isEmpty = true := hword
    rw [List.filter_cons_of_neg (by simp [hempty])]
    exact he
  | case3 before c rest hc run after word others hword ih =>
    obtain ⟨runs, hruns, he⟩ := ih fun _ _ e he hword =>
      absurd (isWordChar_of_mem_head? he) (by simp [hword])
    refine ⟨_, hruns.starting hborder hc, ?_⟩
    have hplace : (Run.starting before c rest).occurrence =
        ⟨(run.takeWhile Char.isDigit).reverse ++ before, word, after⟩ := by
      rw [occurrence, lead, List.reverse_append]
      exact congrArg (fun b => Occurrence.mk (_ ++ b) word after) (List.reverse_reverse before)
    have hnamed : (Run.starting before c rest).word.isEmpty = false := Bool.eq_false_iff.mpr hword
    rw [List.filter_cons_of_pos (by rw [hnamed]; rfl), List.map_cons, ← he, hplace]
  | case4 before c rest hc ih =>
    have hc : isWordChar c = false := by simpa using hc
    obtain ⟨runs, hruns, he⟩ := ih fun d hd _ _ _ => by rwa [← Option.some.inj hd]
    rw [List.reverse_cons, List.append_assoc, List.singleton_append, List.length_cons,
      ← List.length_reverse] at hruns
    refine ⟨runs, ?_, he⟩
    rw [← List.length_reverse]
    exact hruns.skip hc

/-- The words of a text are its runs without their leading digits, in order, those left out of which
nothing is left. -/
theorem exists_runs (text : List Char) :
    ∃ runs : List Run, runs.Pairwise Precedes ∧ (∀ r, r ∈ runs ↔ r.In text) ∧
    occurrences text = (runs.filter fun r => !r.word.isEmpty).map occurrence := by
  obtain ⟨runs, hruns, he⟩ := exists_allFrom [] text fun _ hc => absurd hc (by simp)
  refine ⟨runs, hruns.ordered, fun r => ?_, he⟩
  rw [hruns.mem_iff]
  exact and_iff_left (Nat.zero_le _)

theorem mem_occurrences_iff {text : List Char} {o : Occurrence} :
    o ∈ occurrences text ↔ ∃ r : Run, r.In text ∧ r.word ≠ [] ∧ r.occurrence = o := by
  obtain ⟨runs, -, hmem, he⟩ := exists_runs text
  simp only [he, List.mem_map, List.mem_filter, hmem, Bool.not_eq_true', List.isEmpty_eq_false_iff,
    and_assoc]

end CodeAtlas.Text
