import CodeAtlas.Proofs.ImportPath.Brace
import CodeAtlas.Proofs.ImportPath.Words

/-!
Use trees. A use tree is a path, with an alias or not, all names below a path, or a list of use
trees below a path, to any depth. Its text puts blanks around the items of lists and may end a list
with a comma. The dotted forms of the text are the paths to the leaves.
-/

namespace CodeAtlas.ImportPath

open Text

/-- A name in a path: no character of it is a mark or a wildcard. -/
structure Segment where
  chars : List Char
  chars_ne : chars ≠ []
  plain : ∀ c ∈ chars, isMark c = false ∧ c ≠ '*'

def Segment.ofText (text : String)
    (h : (!text.toList.isEmpty && text.toList.all fun c => !isMark c && c != '*') = true) :
    Segment where
  chars := text.toList
  chars_ne := List.isEmpty_eq_false_iff.mp ((Bool.not_eq_true' _).mp (Bool.and_eq_true_iff.mp h).1)
  plain c hc := by simpa using List.all_eq_true.mp (Bool.and_eq_true_iff.mp h).2 c hc

/-- Blanks around the items of a list. -/
structure Blanks where
  chars : List Char
  blank : ∀ c ∈ chars, isBlank c = true

def Blanks.ofText (text : String) (h : text.toList.all isBlank = true) : Blanks :=
  ⟨text.toList, List.all_eq_true.mp h⟩

mutual

/-- What can be imported together. No segments need stand before the wildcard or a list. -/
inductive UseTree where
  | path (segments : List Segment) (last : Segment) (name? : Option Segment)
  | all (segments : List Segment)
  | self (name? : Option Segment)
  | list (segments : List Segment) (items : UseItems)

/-- The items of a list, with the blanks around them; behind the last comma there may be none. -/
inductive UseItems where
  | none (blanks : Blanks)
  | last (before : Blanks) (item : UseTree) (after : Blanks)
  | cons (before : Blanks) (item : UseTree) (after : Blanks) (more : UseItems)

end

def Segment.isRelative (s : Segment) : Bool :=
  relativeWords.contains s.chars

def leading (segments : List Segment) : List Char :=
  segments.flatMap fun s => s.chars ++ "::".toList

/-- The text behind a path that gets another name. -/
def aliasText : Option Segment → List Char
  | none => []
  | some name => " as ".toList ++ name.chars

mutual

def UseTree.text : UseTree → List Char
  | .path segments last name? => leading segments ++ last.chars ++ aliasText name?
  | .all segments => leading segments ++ ['*']
  | .self name? => "self".toList ++ aliasText name?
  | .list segments items => leading segments ++ '\x7b' :: (items.text ++ ['\x7d'])

def UseItems.text : UseItems → List Char
  | .none blanks => blanks.chars
  | .last before item after => before.chars ++ item.text ++ after.chars
  | .cons before item after more => before.chars ++ item.text ++ after.chars ++ ',' :: more.text

end

/-- The segments of a path behind the relative ones at its start. -/
def ordinary (segments : List Segment) : List Segment :=
  segments.dropWhile Segment.isRelative

def pointed (segments : List Segment) : List Char :=
  List.intercalate ['.'] (segments.map Segment.chars)

mutual

def UseTree.leaves (above : List Segment) : UseTree → List (List Char)
  | .path segments last _ => [pointed (ordinary (above ++ segments ++ [last]))]
  | .all segments =>
    match ordinary (above ++ segments) with
    | [] => []
    | named => [pointed named ++ ".*".toList]
  | .self _ => [pointed (ordinary above)]
  | .list segments items => items.leaves (above ++ segments)

def UseItems.leaves (above : List Segment) : UseItems → List (List Char)
  | .none _ => []
  | .last _ item _ => item.leaves above
  | .cons _ item _ more => item.leaves above ++ more.leaves above

end

/-- Whether relative segments stand at the start of a path only. -/
def Rooted (segments : List Segment) : Prop :=
  ∀ s ∈ ordinary segments, s.isRelative = false

mutual

/-- Whether a use tree can stand below some segments: relative segments stand only at the start of
whole paths, paths to names have a segment that is not relative, and what is written for the path
above has such a path above. -/
def UseTree.Valid (above : List Segment) : UseTree → Prop
  | .path segments last _ =>
    Rooted (above ++ segments ++ [last]) ∧ ∃ s ∈ segments ++ [last], s.isRelative = false
  | .all segments => Rooted (above ++ segments)
  | .self _ => Rooted above ∧ ∃ s ∈ above, s.isRelative = false
  | .list segments items => items.Valid (above ++ segments)

def UseItems.Valid (above : List Segment) : UseItems → Prop
  | .none _ => True
  | .last _ item _ => item.Valid above
  | .cons _ item _ more => item.Valid above ∧ more.Valid above

end

instance (segments : List Segment) : Decidable (Rooted segments) :=
  inferInstanceAs (Decidable (∀ s ∈ ordinary segments, s.isRelative = false))

mutual

def UseTree.decideValid (above : List Segment) : (t : UseTree) → Decidable (t.Valid above)
  | .path segments last _ => inferInstanceAs
      (Decidable (Rooted (above ++ segments ++ [last]) ∧
      ∃ s ∈ segments ++ [last], s.isRelative = false))
  | .all segments => inferInstanceAs (Decidable (Rooted (above ++ segments)))
  | .self _ => inferInstanceAs (Decidable (Rooted above ∧ ∃ s ∈ above, s.isRelative = false))
  | .list segments items => items.decideValid (above ++ segments)

def UseItems.decideValid (above : List Segment) : (l : UseItems) → Decidable (l.Valid above)
  | .none _ => .isTrue trivial
  | .last _ item _ => item.decideValid above
  | .cons _ item _ more =>
    match item.decideValid above, more.decideValid above with
    | .isTrue hitem, .isTrue hmore => .isTrue ⟨hitem, hmore⟩
    | .isFalse hitem, _ => .isFalse fun h => hitem h.1
    | _, .isFalse hmore => .isFalse fun h => hmore h.2

end

instance (t : UseTree) (above : List Segment) : Decidable (t.Valid above) :=
  t.decideValid above

variable {s inner text : List Char} {depth : Nat} {c : Char} {segments above : List Segment}
  {last : Segment}

/-! ### Ends of texts -/

def isEdge (c : Char) : Bool :=
  isBlank c || isQuote c || c == ';'

theorem isEdge_eq_false_iff :
    isEdge c = false ↔ isBlank c = false ∧ isQuote c = false ∧ (c == ';') = false := by
  rw [isEdge, Bool.or_eq_false_iff, Bool.or_eq_false_iff, and_assoc]

theorem isEdge_of_isMark (h : isMark c = false) : isEdge c = false := by
  simp only [isMark, Bool.or_eq_false_iff] at h
  have hne : c ≠ ';' := by
    rintro rfl
    exact absurd h.2 (by decide)
  simp [isEdge, h.1, hne]

/-- A text that nothing is taken off. -/
structure Solid (s : List Char) : Prop where
  ne_nil : s ≠ []
  head : ∀ c ∈ s.head?, isEdge c = false
  last : ∀ c ∈ s.getLast?, isEdge c = false

namespace Solid

theorem of_forall (hne : s ≠ []) (h : ∀ c ∈ s, isEdge c = false) : Solid s :=
  ⟨hne, fun c hc => h c (List.mem_of_mem_head? hc), fun c hc => h c (List.mem_of_mem_getLast? hc)⟩

theorem singleton (h : isEdge c = false) : Solid [c] :=
  of_forall (List.cons_ne_nil c []) (List.forall_mem_singleton.mpr h)

theorem append_append (hs : Solid s) (ht : Solid text) (inner : List Char) :
    Solid (s ++ inner ++ text) where
  ne_nil := List.append_ne_nil_of_right_ne_nil _ ht.ne_nil
  head c hc := by
    rw [List.append_assoc, List.head?_append_of_ne_nil _ hs.ne_nil] at hc
    exact hs.head c hc
  last c hc := by
    rw [List.getLast?_append_of_ne_nil _ ht.ne_nil] at hc
    exact ht.last c hc

theorem append (h : ∀ c ∈ s, isEdge c = false) (ht : Solid text) : Solid (s ++ text) := by
  cases s with
  | nil => exact ht
  | cons c s =>
    have hs : Solid (c :: s) := of_forall (List.cons_ne_nil c s) h
    have happend := hs.append_append ht []
    rwa [List.append_nil] at happend

end Solid

theorem trim_of_blanks {before after : List Char} (hs : Solid s)
    (hbefore : ∀ c ∈ before, isBlank c = true) (hafter : ∀ c ∈ after, isBlank c = true) :
    trim (before ++ s ++ after) = s :=
  strip_eq_iff.mpr ⟨⟨before, after, rfl, hbefore, hafter⟩,
    fun c hc => (isEdge_eq_false_iff.mp (hs.head c hc)).1,
    fun c hc => (isEdge_eq_false_iff.mp (hs.last c hc)).1⟩

/-- Semicolons at the end are all that is taken off. -/
theorem bare_append (hs : Solid s) (n : Nat) : bare (s ++ List.replicate n ';') = s := by
  have hhead : ∀ c ∈ s.head?, isBlank c = false ∧ isQuote c = false ∧ (c == ';') = false :=
    fun c hc =>
    isEdge_eq_false_iff.mp (hs.head c hc)
  have hlast : ∀ c ∈ s.getLast?, isBlank c = false ∧ isQuote c = false ∧ (c == ';') = false :=
    fun c hc =>
    isEdge_eq_false_iff.mp (hs.last c hc)
  have htrim : trim (s ++ List.replicate n ';') = s ++ List.replicate n ';' := by
    apply strip_eq_self
    · intro c hc
      rw [List.head?_append_of_ne_nil _ hs.ne_nil] at hc
      exact (hhead c hc).1
    · intro c hc
      cases n with
      | zero =>
        rw [List.replicate_zero, List.append_nil] at hc
        exact (hlast c hc).1
      | succ n =>
        rw [List.getLast?_append_of_ne_nil _ (by simp)] at hc
        rw [List.eq_of_mem_replicate (List.mem_of_mem_getLast? hc)]
        rfl
  have hsemicolons : dropEndWhile (· == ';') (s ++ List.replicate n ';') = s := by
    refine dropEndWhile_eq_iff.mpr ⟨_, rfl, fun c hc => ?_, fun c hc => (hlast c hc).2.2⟩
    rw [List.eq_of_mem_replicate hc]
    rfl
  rw [bare, htrim, hsemicolons]
  exact strip_eq_self (fun c hc => (hhead c hc).2.1) fun c hc => (hlast c hc).2.1

/-! ### Segments -/

theorem Segment.isWord (s : Segment) : IsWord s.chars :=
  ⟨s.chars_ne, fun c hc => (s.plain c hc).1⟩

theorem IsWord.solid {w : List Char} (h : IsWord w) : Solid w :=
  Solid.of_forall h.ne_nil fun c hc => isEdge_of_isMark (h.plain c hc)

theorem leading_eq (segments : List Segment) :
    leading segments = led [':', ':'] (segments.map Segment.chars) := by
  rw [led, List.flatMap_map]
  rfl

theorem leading_append (above segments : List Segment) :
    leading (above ++ segments) = leading above ++ leading segments :=
  List.flatMap_append

theorem not_isEdge_of_mem_leading (segments : List Segment) :
    ∀ c ∈ leading segments, isEdge c = false := by
  intro c hc
  obtain ⟨s, -, hc⟩ := List.mem_flatMap.mp hc
  rcases List.mem_append.mp hc with hc | hc
  · exact isEdge_of_isMark (s.plain c hc).1
  · obtain rfl : c = ':' := by simpa using hc
    rfl

theorem solid_aliased (name? : Option Segment) (hs : Solid s) : Solid (s ++ aliasText name?) := by
  cases name? with
  | none => rwa [aliasText, List.append_nil]
  | some name =>
    rw [aliasText, ← List.append_assoc]
    exact hs.append_append name.isWord.solid _

theorem UseTree.solid (t : UseTree) : Solid t.text := by
  cases t with
  | path segments last name? =>
    exact solid_aliased name? (Solid.append (not_isEdge_of_mem_leading segments) last.isWord.solid)
  | all segments =>
    exact Solid.append (not_isEdge_of_mem_leading segments) (Solid.singleton rfl)
  | self name? => exact solid_aliased name? isWord_self.solid
  | list segments items =>
    have hopen : Solid (leading segments ++ ['\x7b']) :=
      Solid.append (not_isEdge_of_mem_leading segments) (Solid.singleton rfl)
    have htext := hopen.append_append (Solid.singleton (c := '\x7d') rfl) items.text
    rwa [List.append_assoc, List.append_assoc, List.singleton_append] at htext

/-! ### Items -/

/-- Whether a text stands in one piece, at any number of open braces from `least` on. -/
def Whole (least : Nat) (s : List Char) : Prop :=
  ∀ depth, least ≤ depth → ∀ rest, pieces depth (s ++ rest) = (pieces depth rest).modifyHead
    (s ++ ·)

namespace Whole

variable {least : Nat}

theorem nil (least : Nat) : Whole least [] := by
  intro depth _ rest
  exact (congrFun List.modifyHead_id _).symm

theorem append (hs : Whole least s) (ht : Whole least text) : Whole least (s ++ text) := by
  intro depth hdepth rest
  rw [List.append_assoc, hs depth hdepth, ht depth hdepth, List.modifyHead_modifyHead]
  congr 1
  funext piece
  exact (List.append_assoc s text piece).symm

theorem of_pieces_cons (h : ∀ depth, least ≤ depth → (c ≠ ',' ∨ depth ≠ 0) ∧
      depthAfter depth c = depth) :
    Whole least [c] := by
  intro depth hdepth rest
  obtain ⟨hc, hafter⟩ := h depth hdepth
  rw [List.singleton_append, pieces_cons hc, hafter]
  rfl

theorem of_not_mem (hcomma : ',' ∉ s) (hopen : '\x7b' ∉ s) (hclose : '\x7d' ∉ s) :
    Whole least s := by
  induction s with
  | nil => exact nil least
  | cons c s ih =>
    obtain ⟨hcomma, hcommas⟩ := not_or.mp (List.mem_cons.not.mp hcomma)
    obtain ⟨hopen, hopens⟩ := not_or.mp (List.mem_cons.not.mp hopen)
    obtain ⟨hclose, hcloses⟩ := not_or.mp (List.mem_cons.not.mp hclose)
    have hc : Whole least [c] := by
      refine of_pieces_cons fun depth _ => ⟨Or.inl (Ne.symm hcomma), ?_⟩
      rw [depthAfter, if_neg (by simpa using Ne.symm hopen), if_neg (by simpa using Ne.symm hclose)]
    exact hc.append (ih hcommas hopens hcloses)

theorem comma : Whole 1 [','] :=
  of_pieces_cons fun _ hdepth => ⟨Or.inr (Nat.ne_of_gt hdepth), rfl⟩

/-- Braces shield the commas between them. -/
theorem braced (h : Whole 1 s) : Whole 0 ('\x7b' :: (s ++ ['\x7d'])) := by
  intro depth _ rest
  have hopen : depthAfter depth '\x7b' = depth + 1 := rfl
  have hclose : depthAfter (depth + 1) '\x7d' = depth := rfl
  have hrest : pieces (depth + 1) ('\x7d' :: rest) =
      (pieces depth rest).modifyHead ('\x7d' :: ·) := by
    rw [pieces_cons (Or.inr (Nat.succ_ne_zero depth)), hclose]
  rw [List.cons_append, List.append_assoc, List.singleton_append, pieces_cons (Or.inl (by decide)),
    hopen, h (depth + 1) (Nat.succ_le_succ (Nat.zero_le depth)), hrest, List.modifyHead_modifyHead,
    List.modifyHead_modifyHead]
  congr 1
  funext piece
  simp

theorem mono (h : Whole 0 s) : Whole least s := fun depth _ rest => h depth (Nat.zero_le depth) rest

end Whole

theorem IsWord.whole {w : List Char} (h : IsWord w) : Whole 0 w :=
  Whole.of_not_mem (h.not_mem rfl) (h.not_mem rfl) (h.not_mem rfl)

theorem Blanks.not_mem (b : Blanks) (hc : isBlank c = false) : c ∉ b.chars := fun hm =>
  Bool.false_ne_true (hc.symm.trans (b.blank c hm))

theorem Blanks.whole (b : Blanks) : Whole 0 b.chars :=
  Whole.of_not_mem (b.not_mem rfl) (b.not_mem rfl) (b.not_mem rfl)

theorem whole_leading (segments : List Segment) : Whole 0 (leading segments) := by
  induction segments with
  | nil => exact Whole.nil 0
  | cons s segments ih =>
    have hcolons : Whole 0 "::".toList := Whole.of_not_mem (by decide) (by decide) (by decide)
    exact (s.isWord.whole.append hcolons).append ih

theorem whole_aliasText (name? : Option Segment) : Whole 0 (aliasText name?) := by
  cases name? with
  | none => exact Whole.nil 0
  | some name =>
    have has : Whole 0 " as ".toList := Whole.of_not_mem (by decide) (by decide) (by decide)
    exact has.append name.isWord.whole

mutual

theorem UseTree.whole : (t : UseTree) → Whole 0 t.text
  | .path segments last name? =>
    ((whole_leading segments).append last.isWord.whole).append (whole_aliasText name?)
  | .all segments => (whole_leading segments).append isWord_wildcard.whole
  | .self name? => isWord_self.whole.append (whole_aliasText name?)
  | .list segments items => (whole_leading segments).append (Whole.braced items.whole)

theorem UseItems.whole : (l : UseItems) → Whole 1 l.text
  | .none blanks => blanks.whole.mono
  | .last before item after => ((before.whole.append item.whole).append after.whole).mono
  | .cons before item after more =>
    ((before.whole.append item.whole).append after.whole).mono.append
      (Whole.comma.append more.whole)

end

def UseItems.trees : UseItems → List UseTree
  | .none _ => []
  | .last _ item _ => [item]
  | .cons _ item _ more => item :: more.trees

theorem Whole.pieces_eq (h : Whole 0 s) : pieces 0 s = [s] := by
  have hs := h 0 (Nat.le_refl 0) []
  rw [List.append_nil] at hs
  rw [hs, pieces, List.modifyHead_cons, List.append_nil]

theorem Whole.pieces_comma (h : Whole 0 s) (rest : List Char) :
    pieces 0 (s ++ ',' :: rest) = s :: pieces 0 rest := by
  rw [h 0 (Nat.le_refl 0), ImportPath.pieces_comma, List.modifyHead_cons, List.append_nil]

theorem whole_item (before : Blanks) (item : UseTree) (after : Blanks) :
    Whole 0 (before.chars ++ item.text ++ after.chars) :=
  (before.whole.append item.whole).append after.whole

theorem trim_item (before : Blanks) (item : UseTree) (after : Blanks) :
    trim (before.chars ++ item.text ++ after.chars) = item.text :=
  trim_of_blanks item.solid before.blank after.blank

theorem isEmpty_text (t : UseTree) : t.text.isEmpty = false :=
  List.isEmpty_eq_false_iff.mpr t.solid.ne_nil

/-- The items that are read from the text of a list are the texts of its use trees. -/
theorem items_text : (l : UseItems) → items l.text = l.trees.map UseTree.text
  | .none blanks => by
    have htrim : trim blanks.chars = [] :=
      strip_eq_iff.mpr
      ⟨⟨blanks.chars, [], by simp, blanks.blank, List.forall_mem_nil _⟩, by simp, by simp⟩
    rw [items, UseItems.text, blanks.whole.pieces_eq, List.map_singleton, htrim]
    rfl
  | .last before item after => by
    rw [items, UseItems.text, (whole_item before item after).pieces_eq, List.map_singleton,
      trim_item, List.filter_cons_of_pos (by rw [isEmpty_text]; rfl)]
    rfl
  | .cons before item after more => by
    have hmore := items_text more
    rw [items] at hmore
    rw [items, UseItems.text, (whole_item before item after).pieces_comma, List.map_cons, trim_item,
      List.filter_cons_of_pos (by rw [isEmpty_text]; rfl), hmore, UseItems.trees, List.map_cons]

end CodeAtlas.ImportPath
