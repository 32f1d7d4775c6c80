import CodeAtlas.Proofs.Text.CallSite
import CodeAtlas.Proofs.Text.WholeWord

/-!
Words and calls as what a search for a shape finds. The search goes through a text from the left;
where the shape can be cut off, it takes the first cut and goes on behind it. A shape that repeats
is cut long before short, and a later part that fails sends the search back to the shorter cuts. For
words and for calls this never finds a shorter one.
-/

namespace CodeAtlas.Text

/-- Shapes of text: nothing, one character of a class, any number of them, one shape behind
another. -/
inductive Shape where
  | nothing
  | one (p : Char → Bool)
  | many (p : Char → Bool)
  | join (first second : Shape)

/-- What is taken off the start of a text, and what is left. -/
structure Cut where
  taken : List Char
  rest : List Char

namespace Shape

/-- The cuts of any number of characters of a class, long ones first. -/
def greedy (p : Char → Bool) : List Char → List Cut
  | [] => [⟨[], []⟩]
  | c :: text =>
    if p c then (greedy p text).map (fun cut => ⟨c :: cut.taken, cut.rest⟩) ++ [⟨[], c :: text⟩]
    else [⟨[], c :: text⟩]

/-- The cuts of a shape off a text, in the order in which they are tried. -/
def cuts : Shape → List Char → List Cut
  | nothing, text => [⟨[], text⟩]
  | one _, [] => []
  | one p, c :: text => if p c then [⟨[c], text⟩] else []
  | many p, text => greedy p text
  | join first second, text =>
    (first.cuts text).flatMap fun cut =>
      (second.cuts cut.rest).map fun next => ⟨cut.taken ++ next.taken, next.rest⟩

/-- The first cut of a shape behind which another can be cut, and the first cut of that one. -/
def first? (word follow : Shape) (text : List Char) : Option (List Char × Cut) :=
  (word.cuts text).findSome? fun cut => (follow.cuts cut.rest).head?.map fun next =>
  (cut.taken, next)

/-- The places in a text that continues `before` where a search finds one shape behind another; what
the first shape takes is the word. -/
def found (word follow : Shape) (before : List Char) : List Char → List Occurrence
  | [] => []
  | c :: text =>
    match first? word follow (c :: text) with
    | none => found word follow (c :: before) text
    | some (taken, next) =>
      if next.rest.length ≤ text.length then
        ⟨before, taken, next.taken ++ next.rest⟩ ::
          found word follow ((taken ++ next.taken).reverse ++ before) next.rest
      else found word follow (c :: before) text
termination_by text => text.length

def isWordStart (c : Char) : Bool :=
  c.isAlpha || c == '_'

/-- A letter or an underscore and the word characters behind it. -/
def identifier : Shape :=
  join (one isWordStart) (many isWordChar)

def opening : Shape :=
  join (many isBlank) (one (· == '('))

variable {p : Char → Bool} {word follow : Shape} {text before run after : List Char} {c : Char}

theorem found_cons_of_none (h : first? word follow (c :: text) = none) :
    found word follow before (c :: text) = found word follow (c :: before) text := by
  rw [found, h]

/-- Where nothing can be cut, the search goes on behind. -/
theorem found_append_of_none
    (h : ∀ init c rest, run = init ++ c :: rest → first? word follow (c :: rest ++ after) = none) :
    found word follow before (run ++ after) = found word follow (run.reverse ++ before) after := by
  induction run generalizing before with
  | nil => rfl
  | cons c run ih =>
    have hhead : first? word follow (c :: (run ++ after)) = none := h [] c run rfl
    have htail : ∀ init d rest, run = init ++ d :: rest →
        first? word follow (d :: rest ++ after) = none := by
      intro init d rest hrun
      exact h (c :: init) d rest (by rw [hrun, List.cons_append])
    rw [List.cons_append, found_cons_of_none hhead, ih htail, List.reverse_cons, List.append_assoc,
      List.singleton_append]

/-- The long cut stands first; the others leave a character that could have been taken. -/
theorem greedy_append (hrun : ∀ c ∈ run, p c = true) (hafter : ∀ c ∈ after.head?, p c = false) :
    ∃ others, greedy p (run ++ after) = ⟨run, after⟩ :: others ∧
      ∀ cut ∈ others, ∃ c rest, cut.rest = c :: rest ∧ p c = true := by
  induction run with
  | nil =>
    refine ⟨[], ?_, fun cut hcut => absurd hcut List.not_mem_nil⟩
    cases after with
    | nil => rfl
    | cons c rest => rw [List.nil_append, greedy, if_neg (by simp [hafter c rfl])]
  | cons c run ih =>
    obtain ⟨hc, hrun⟩ := List.forall_mem_cons.mp hrun
    obtain ⟨others, he, hothers⟩ := ih hrun
    refine ⟨others.map (fun cut => ⟨c :: cut.taken, cut.rest⟩) ++ [⟨[], c :: (run ++ after)⟩], ?_,
      fun cut hcut => ?_⟩
    · rw [List.cons_append, greedy, if_pos hc, he, List.map_cons, List.cons_append]
    · rcases List.mem_append.mp hcut with hcut | hcut
      · obtain ⟨shorter, hshorter, rfl⟩ := List.mem_map.mp hcut
        exact hothers shorter hshorter
      · obtain rfl := List.mem_singleton.mp hcut
        exact ⟨c, run ++ after, rfl, hc⟩

theorem cuts_identifier_of_not_isWordStart (hc : isWordStart c = false) :
    identifier.cuts (c :: text) = [] := by
  rw [identifier, cuts, cuts, if_neg (by simp [hc]), List.flatMap_nil]

/-- A run that begins with a letter or an underscore is cut whole first, and then before each of its
characters. -/
theorem cuts_identifier (hc : isWordStart c = true) (hrun : ∀ d ∈ run, isWordChar d = true)
    (hafter : ∀ d ∈ after.head?, isWordChar d = false) :
    ∃ others, identifier.cuts (c :: run ++ after) = ⟨c :: run, after⟩ :: others ∧
      ∀ cut ∈ others, ∃ d rest, cut.rest = d :: rest ∧ isWordChar d = true := by
  obtain ⟨others, he, hothers⟩ := greedy_append hrun hafter
  refine ⟨others.map (fun cut => ⟨c :: cut.taken, cut.rest⟩), ?_, fun cut hcut => ?_⟩
  · rw [identifier, List.cons_append, cuts, cuts, if_pos hc, List.flatMap_singleton, cuts, he]
    rfl
  · obtain ⟨shorter, hshorter, rfl⟩ := List.mem_map.mp hcut
    exact hothers shorter hshorter

/-- What may follow a word: it takes no word characters, and where it can fail, it does before word
characters. -/
structure Follows (follow : Shape) : Prop where
  parts : ∀ text, ∀ cut ∈ follow.cuts text, text = cut.taken ++ cut.rest ∧ ∀ c ∈ cut.taken,
    isWordChar c = false
  fails : ∀ text, follow.cuts text = [] → ∀ c rest, isWordChar c = true →
    follow.cuts (c :: rest) = []

/-- Where what must follow fails behind a run of word characters, nothing is cut inside the run. -/
theorem Follows.first?_eq_none (h : Follows follow) (hrun : ∀ d ∈ run, isWordChar d = true)
    (hafter : ∀ d ∈ after.head?, isWordChar d = false) (hfail : follow.cuts after = []) :
    first? identifier follow (c :: run ++ after) = none := by
  rw [first?, List.findSome?_eq_none_iff]
  intro cut hcut
  have hnone : follow.cuts cut.rest = [] := by
    cases hstart : isWordStart c with
    | false =>
      rw [List.cons_append, cuts_identifier_of_not_isWordStart hstart] at hcut
      cases hcut
    | true =>
      obtain ⟨others, he, hothers⟩ := cuts_identifier hstart hrun hafter
      rw [he] at hcut
      rcases List.mem_cons.mp hcut with rfl | hcut
      · exact hfail
      · obtain ⟨d, rest, hrest, hd⟩ := hothers cut hcut
        rw [hrest, h.fails after hfail d rest hd]
  rw [hnone, List.head?_nil, Option.map_none]

theorem first?_identifier {next : Cut} (hc : isWordStart c = true)
    (hrun : ∀ d ∈ run, isWordChar d = true) (hafter : ∀ d ∈ after.head?, isWordChar d = false)
    (hnext : (follow.cuts after).head? = some next) :
    first? identifier follow (c :: run ++ after) = some (c :: run, next) := by
  obtain ⟨others, he, -⟩ := cuts_identifier hc hrun hafter
  rw [first?, he, List.findSome?_cons_of_isSome (by rw [hnext]; rfl), hnext, Option.map_some]

theorem not_isWordStart_of_isDigit (h : c.isDigit = true) : isWordStart c = false := by
  rw [Bool.eq_false_iff]
  intro hc
  rw [isWordStart, Bool.or_eq_true, beq_iff_eq] at hc
  rw [not_isDigit_of_isAlpha_or hc] at h
  cases h

theorem not_isWordStart_of_not_isWordChar (h : isWordChar c = false) : isWordStart c = false := by
  simp only [isWordChar, Char.isAlphanum, Bool.or_eq_false_iff] at h
  simp [isWordStart, h]

/-- What follows the digits of a run begins a word. -/
theorem isWordStart_of_dropWhile {rest : List Char} (hrun : ∀ d ∈ run, isWordChar d = true)
    (h : run.dropWhile Char.isDigit = c :: rest) :
    isWordStart c = true ∧ ∀ d ∈ rest, isWordChar d = true := by
  have hchars : ∀ d ∈ c :: rest, isWordChar d = true := fun d hd =>
    hrun d ((List.dropWhile_sublist _).subset (h ▸ hd))
  obtain ⟨hc, hrest⟩ := List.forall_mem_cons.mp hchars
  have hhead := List.head?_dropWhile_not Char.isDigit run
  rw [h] at hhead
  exact ⟨by simpa [isWordStart] using isAlpha_or_of_isWordChar hc hhead, hrest⟩

/-- No search for words stops before a character that begins none. -/
theorem found_identifier_append (h : ∀ c ∈ run, isWordStart c = false) :
    found identifier follow before (run ++ after) =
      found identifier follow (run.reverse ++ before) after := by
  apply found_append_of_none
  rintro init c rest rfl
  have hc := h c (List.mem_append_right init List.mem_cons_self)
  rw [first?, List.cons_append, cuts_identifier_of_not_isWordStart hc, List.findSome?_nil]

theorem found_identifier_cons {next : Cut} (h : Follows follow) (hc : isWordStart c = true)
    (hrun : ∀ d ∈ run, isWordChar d = true) (hafter : ∀ d ∈ after.head?, isWordChar d = false)
    (hnext : (follow.cuts after).head? = some next) :
    found identifier follow before (c :: run ++ after) =
      ⟨before, c :: run, after⟩ :: found identifier follow
          ((c :: run).reverse ++ before) after := by
  have hfirst := first?_identifier hc hrun hafter hnext
  obtain ⟨hparts, htaken⟩ := h.parts after next (List.mem_of_mem_head? hnext)
  have hlen : next.rest.length ≤ (run ++ after).length := by
    rw [hparts, List.length_append, List.length_append]
    omega
  have hskip : found identifier follow ((c :: run).reverse ++ before) after =
      found identifier follow ((c :: run ++ next.taken).reverse ++ before) next.rest := by
    conv_lhs => rw [hparts]
    rw [found_identifier_append fun d hd => not_isWordStart_of_not_isWordChar (htaken d hd),
      List.reverse_append, List.append_assoc]
  rw [List.cons_append] at hfirst
  rw [List.cons_append, found, hfirst]
  simp only [if_pos hlen, ← hparts]
  rw [hskip, List.cons_append]

/-- A search for words that something must follow finds the words of the text that it follows. -/
theorem found_identifier (h : Follows follow) (before text : List Char) :
    found identifier follow before text =
    (occurrencesAfter before text).filter fun o => !(follow.cuts o.after).isEmpty := by
  fun_induction occurrencesAfter before text with
  | case1 before => rw [found, List.filter_nil]
  | case2 before c rest hc run after word others hword ih =>
    have hdigits : ∀ d ∈ run, isWordStart d = false := fun d hd =>
      not_isWordStart_of_isDigit (List.dropWhile_eq_nil_iff.mp (List.isEmpty_iff.mp hword) d hd)
    rw [← run_append c rest, found_identifier_append hdigits, ih]
  | case3 before c rest hc run after word others hword ih =>
    have hrun : ∀ d ∈ run, isWordChar d = true := fun d hd => isWordChar_of_mem_run hc hd
    have hafter : ∀ d ∈ after.head?, isWordChar d = false :=
      fun d hd => Run.isWordChar_of_mem_head? hd
    have hdigits : ∀ d ∈ run.takeWhile Char.isDigit, isWordStart d = false := fun d hd =>
      not_isWordStart_of_isDigit (List.mem_takeWhile_imp hd)
    have hsplit : run.takeWhile Char.isDigit ++ word = run := List.takeWhile_append_dropWhile
    have hreverse : word.reverse ++ ((run.takeWhile Char.isDigit).reverse ++ before) =
        run.reverse ++ before := by
      rw [← List.append_assoc, ← List.reverse_append, hsplit]
    obtain ⟨d, ds, hd⟩ :=
      List.exists_cons_of_ne_nil (List.isEmpty_eq_false_iff.mp (Bool.eq_false_iff.mpr hword))
    obtain ⟨hstart, hds⟩ := isWordStart_of_dropWhile hrun hd
    have hskip : found identifier follow before (c :: rest) =
        found identifier follow ((run.takeWhile Char.isDigit).reverse ++ before)
            (word ++ after) := by
      rw [← found_identifier_append hdigits, ← List.append_assoc, hsplit, run_append]
    rw [hskip, List.filter_cons]
    cases hcuts : (follow.cuts after).head? with
    | some next =>
      have hnonempty : (!(follow.cuts after).isEmpty) = true := by
        rw [List.isEmpty_eq_false_iff.mpr (List.ne_nil_of_mem (List.mem_of_mem_head? hcuts))]
        rfl
      rw [if_pos hnonempty, hd, found_identifier_cons h hstart hds hafter hcuts, ← hd, hreverse, ih]
    | none =>
      have hfail : follow.cuts after = [] := List.head?_eq_none_iff.mp hcuts
      have hnothing : ∀ init e rest', word = init ++ e :: rest' →
          first? identifier follow (e :: rest' ++ after) = none := by
        intro init e rest' he
        have hsub : rest' ⊆ word :=
          fun f hf => he ▸ List.mem_append_right init (List.mem_cons_of_mem e hf)
        exact h.first?_eq_none (fun f hf => hrun f ((List.dropWhile_sublist _).subset (hsub hf)))
          hafter hfail
      rw [if_neg (by simp [hfail]), found_append_of_none hnothing, hreverse, ih]
  | case4 before c rest hc ih =>
    have hstart : ∀ d ∈ [c], isWordStart d = false :=
      List.forall_mem_singleton.mpr (not_isWordStart_of_not_isWordChar (Bool.eq_false_iff.mpr hc))
    rw [← List.singleton_append, found_identifier_append hstart, List.reverse_singleton,
      List.singleton_append, ih]

theorem follows_nothing : Follows nothing where
  parts text cut hcut := by
    obtain rfl := List.mem_singleton.mp hcut
    exact ⟨rfl, List.forall_mem_nil _⟩
  fails text hnone := absurd hnone (List.cons_ne_nil _ _)

theorem not_isWordChar_of_isBlank (h : isBlank c = true) : isWordChar c = false := by
  have hblank : c.toNat ≤ 32 ∨ 128 ≤ c.toNat := by
    simp only [isBlank, inRanges, blankRanges, List.any_cons, List.any_nil, Bool.or_eq_true,
      Bool.and_eq_true, decide_eq_true_eq, Bool.or_false] at h
    omega
  rw [Bool.eq_false_iff]
  intro hc
  have hword := toNat_of_isWordChar hc
  omega

/-- Only behind all blanks can the parenthesis stand. -/
theorem cuts_opening {blanks : List Char} (hblanks : ∀ c ∈ blanks, isBlank c = true)
    (hafter : ∀ c ∈ after.head?, isBlank c = false) : opening.cuts (blanks ++ after) =
      ((one (· == '(')).cuts after).map fun cut => ⟨blanks ++ cut.taken, cut.rest⟩ := by
  obtain ⟨others, he, hothers⟩ := greedy_append hblanks hafter
  have hfail : ∀ cut ∈ others, (one (· == '(')).cuts cut.rest = [] := by
    intro cut hcut
    obtain ⟨c, rest, hrest, hc⟩ := hothers cut hcut
    rw [hrest, cuts, if_neg]
    rintro hparen
    rw [beq_iff_eq.mp hparen] at hc
    exact absurd hc (by decide)
  have hothers : others.flatMap (fun cut => ((one (· == '(')).cuts cut.rest).map fun next =>
      (⟨cut.taken ++ next.taken, next.rest⟩ : Cut)) = [] := by
    rw [List.flatMap_eq_nil_iff]
    intro cut hcut
    rw [hfail cut hcut, List.map_nil]
  rw [opening, cuts, cuts, he, List.flatMap_cons, hothers, List.append_nil]

theorem cuts_opening_eq_nil_iff (o : Occurrence) :
    (opening.cuts o.after).isEmpty = !o.opensCall := by
  obtain ⟨blanks, hafter, hblanks, hhead⟩ :=
    dropWhile_eq_iff.mp (rfl : o.after.dropWhile isBlank = _)
  rw [hafter, cuts_opening hblanks hhead, Occurrence.opensCall, trimStart]
  cases o.after.dropWhile isBlank with
  | nil => rfl
  | cons c rest => by_cases hc : c = '(' <;> simp [cuts, hc]

theorem cuts_opening_of_isWordChar (hc : isWordChar c = true) : opening.cuts (c :: text) = [] := by
  have hblank : ∀ d ∈ (c :: text).head?, isBlank d = false := by
    intro d hd
    obtain rfl := Option.some.inj hd
    rw [Bool.eq_false_iff]
    intro h
    rw [not_isWordChar_of_isBlank h] at hc
    cases hc
  have hne : (c == '(') = false := by
    rw [beq_eq_false_iff_ne]
    rintro rfl
    exact absurd hc (by decide)
  rw [← List.nil_append (c :: text), cuts_opening (List.forall_mem_nil _) hblank, cuts, hne]
  rfl

theorem follows_opening : Follows opening where
  parts text cut hcut := by
    obtain ⟨blanks, htext, hblanks, hhead⟩ := dropWhile_eq_iff.mp (rfl : text.dropWhile isBlank = _)
    rw [htext, cuts_opening hblanks hhead] at hcut
    obtain ⟨last, hlast, rfl⟩ := List.mem_map.mp hcut
    rw [htext]
    cases hrest : text.dropWhile isBlank with
    | nil =>
      rw [hrest] at hlast
      cases hlast
    | cons c rest =>
      rw [hrest, cuts] at hlast
      split at hlast
      · next hparen =>
        obtain rfl := List.mem_singleton.mp hlast
        refine ⟨by simp, ?_⟩
        intro d hd
        rcases List.mem_append.mp hd with hd | hd
        · exact not_isWordChar_of_isBlank (hblanks d hd)
        · rw [List.mem_singleton.mp hd, beq_iff_eq.mp hparen]
          rfl
      · cases hlast
  fails _ _ _ _ hc := cuts_opening_of_isWordChar hc

/-- The words of a text are what a search for identifiers finds. -/
theorem occurrences_eq_found (text : List Char) :
    occurrences text = found identifier nothing [] text := by
  rw [found_identifier follows_nothing, occurrences, List.filter_eq_self.mpr]
  exact fun o _ => rfl

/-- The calls of a text are what a search for identifiers with an opening parenthesis behind them
finds, control words left out. -/
theorem callSites_eq_found (text : String) : callSites text =
    ((found identifier opening [] text.toList).filter fun o =>
      !controlWords.contains (String.ofList o.word)).map Occurrence.toCallSite := by
  rw [found_identifier follows_opening, List.filter_filter, callSites, occurrences]
  simp only [cuts_opening_eq_nil_iff, Bool.not_not, Bool.and_comm]

end Shape

end CodeAtlas.Text
