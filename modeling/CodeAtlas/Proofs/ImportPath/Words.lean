import Mathlib.Data.List.Infix
import CodeAtlas.Proofs.ImportPath.Path
import CodeAtlas.Proofs.Text.Strip

/-!
Single paths word by word. A path that is written as words with a separator behind each but the last
is read as these words with points between them, the relative ones at the start dropped.
-/

namespace CodeAtlas.ImportPath

open Text

def relativeWords : List (List Char) :=
  ["crate".toList, "self".toList, "super".toList]

/-- Whether a character takes part in the writing of imports other than in names. -/
def isMark (c : Char) : Bool :=
  isBlank c || isQuote c || [':', '.', '/', ',', ';', '\x7b', '\x7d'].contains c

structure IsWord (w : List Char) : Prop where
  ne_nil : w ≠ []
  plain : ∀ c ∈ w, isMark c = false

def led (separator : List Char) (words : List (List Char)) : List Char :=
  words.flatMap (· ++ separator)

variable {w last text rest separator : List Char} {words relative named : List (List Char)}
  {c : Char}

@[simp] theorem led_nil : led separator [] = [] := rfl

@[simp] theorem led_cons : led separator (w :: words) = w ++ separator ++ led separator words := rfl

theorem led_append :
    led separator (relative ++ named) = led separator relative ++ led separator named :=
  List.flatMap_append

theorem intercalate_concat :
    List.intercalate separator (words ++ [last]) = led separator words ++ last := by
  induction words with
  | nil => exact List.intercalate_singleton
  | cons w words ih =>
    rw [List.cons_append, List.intercalate_cons_of_ne_nil (by simp), ih, led_cons,
      List.append_assoc, List.append_assoc, List.append_assoc]

theorem IsWord.not_mem (h : IsWord w) (hc : isMark c = true) : c ∉ w := fun hm => by
  rw [h.plain c hm] at hc
  cases hc

theorem IsWord.not_isBlank (h : IsWord w) (hc : c ∈ w) : isBlank c = false := by
  have hmark := h.plain c hc
  simp only [isMark, Bool.or_eq_false_iff] at hmark
  exact hmark.1.1

/-- Whether a text is a word can be tried out. -/
theorem isWord_of_all (h : (!w.isEmpty && w.all fun c => !isMark c) = true) : IsWord w := by
  rw [Bool.and_eq_true, Bool.not_eq_true', List.isEmpty_eq_false_iff, List.all_eq_true] at h
  exact ⟨h.1, fun c hc => (Bool.not_eq_true' _).mp (h.2 c hc)⟩

theorem isWord_wildcard : IsWord ['*'] :=
  isWord_of_all rfl

theorem isWord_self : IsWord "self".toList :=
  isWord_of_all rfl

theorem isWord_of_mem_relativeWords (h : w ∈ relativeWords) : IsWord w := by
  simp only [relativeWords, List.mem_cons, List.not_mem_nil, or_false] at h
  rcases h with rfl | rfl | rfl
  · exact isWord_of_all rfl
  · exact isWord_self
  · exact isWord_of_all rfl

theorem relativeSegments_eq : relativeSegments = relativeWords.map (· ++ ['.']) := rfl

/-! ### The alias -/

/-- A text is cut at the first place of a word if the first character of the word does not stand
before. -/
theorem cutAt?_append (h : c ∉ text) :
    cutAt? (c :: w) (text ++ c :: (w ++ rest)) = some (text, rest) := by
  induction text with
  | nil =>
    have hdrop : dropWord? (c :: w) (c :: (w ++ rest)) = some rest := dropWord?_eq_some_iff.mpr rfl
    rw [List.nil_append, cutAt?, hdrop]
  | cons d text ih =>
    obtain ⟨hne, h⟩ := not_or.mp (List.mem_cons.not.mp h)
    rw [List.cons_append, cutAt?, dropWord?, if_neg (by simpa using hne), ih h]
    rfl

theorem cutAt?_eq_none (h : c ∉ text) : cutAt? (c :: w) text = none := by
  induction text with
  | nil => rfl
  | cons d text ih =>
    obtain ⟨hne, h⟩ := not_or.mp (List.mem_cons.not.mp h)
    rw [cutAt?, dropWord?, if_neg (by simpa using hne), ih h]
    rfl

theorem trim_eq_self (h : ∀ c ∈ text, isBlank c = false) : trim text = text :=
  strip_eq_self (fun c hc => h c (List.mem_of_mem_head? hc)) fun c hc =>
  h c (List.mem_of_mem_getLast? hc)

/-! ### The separators -/

theorem replaceWord_append (h : ':' ∉ text) (rest : List Char) :
    replaceWord [':', ':'] '.' (text ++ rest) = text ++ replaceWord [':', ':'] '.' rest := by
  induction text with
  | nil => rfl
  | cons d text ih =>
    obtain ⟨hne, h⟩ := not_or.mp (List.mem_cons.not.mp h)
    rw [List.cons_append, replaceWord]
    split
    · next rest' hdrop => exact absurd (List.cons.inj (dropWord?_eq_some_iff.mp hdrop)).1.symm hne
    · rw [ih h, List.cons_append]

theorem replaceWord_colons (rest : List Char) :
    replaceWord [':', ':'] '.' (':' :: ':' :: rest) = '.' :: replaceWord [':', ':'] '.' rest := by
  rw [replaceWord]
  split
  · next rest' hdrop =>
    obtain rfl := Option.some.inj hdrop
    rfl
  · next hdrop => cases hdrop

theorem replaceWord_led (hwords : ∀ w ∈ words, IsWord w) (hlast : IsWord last) :
    replaceWord [':', ':'] '.' (led [':', ':'] words ++ last) = led ['.'] words ++ last := by
  induction words with
  | nil =>
    have hrest := replaceWord_append (hlast.not_mem (c := ':') rfl) []
    rwa [List.append_nil, replaceWord, List.append_nil] at hrest
  | cons w words ih =>
    obtain ⟨hw, hwords⟩ := List.forall_mem_cons.mp hwords
    have hsplit : led [':', ':'] (w :: words) ++ last =
        w ++ ':' :: ':' :: (led [':', ':'] words ++ last) := by
      rw [led_cons, List.append_assoc, List.append_assoc]
      rfl
    rw [hsplit, replaceWord_append (hw.not_mem rfl), replaceWord_colons, ih hwords, led_cons,
      List.append_assoc, List.append_assoc]
    rfl

theorem not_mem_led (hwords : ∀ w ∈ words, IsWord w) (hc : isMark c = true) (hsep : c ∉ separator) :
    c ∉ led separator words := by
  intro hm
  obtain ⟨w, hw, hm⟩ := List.mem_flatMap.mp hm
  rcases List.mem_append.mp hm with hm | hm
  · exact (hwords w hw).not_mem hc hm
  · exact hsep hm

theorem dotted_led (hwords : ∀ w ∈ words, IsWord w) (hlast : IsWord last) :
    dotted (led [':', ':'] words ++ last) = led ['.'] words ++ last := by
  have hslash : '/' ∉ led ['.'] words ++ last := by
    rw [List.mem_append, not_or]
    exact ⟨not_mem_led hwords rfl (by decide), hlast.not_mem rfl⟩
  have hreplace := replaceWord_led hwords hlast
  rw [dotted, show "::".toList = [':', ':'] from rfl, hreplace, List.map_congr_left, List.map_id]
  intro d hd
  have hne : (d == '/') = false := beq_eq_false_iff_ne.mpr fun he => hslash (he ▸ hd)
  rw [hne]
  rfl

/-! ### The relative words -/

theorem dropOne?_relative (h : w ∈ relativeWords) (rest : List Char) :
    dropOne? (w ++ '.' :: rest) = some rest := by
  simp only [relativeWords, List.mem_cons, List.not_mem_nil, or_false] at h
  rcases h with rfl | rfl | rfl <;> rfl

/-- Nothing is dropped before a point that does not follow a relative word. -/
theorem dropOne?_eq_none (hhead : ∀ c ∈ text.head?, c ≠ '.')
    (h : ∀ w ∈ relativeWords, ∀ rest, text ≠ w ++ '.' :: rest) : dropOne? text = none := by
  have hpoints : text.dropWhile (· == '.') = text :=
    dropWhile_eq_iff.mpr ⟨[], rfl, List.forall_mem_nil _, fun c hc => beq_eq_false_iff_ne.mpr
      (hhead c hc)⟩
  rw [dropOne?, hpoints, List.findSome?_eq_none_iff, relativeSegments_eq]
  intro segment hsegment
  obtain ⟨w, hw, rfl⟩ := List.mem_map.mp hsegment
  rw [Option.eq_none_iff_forall_ne_some]
  intro rest hrest
  refine h w hw rest ?_
  rw [dropWord?_eq_some_iff.mp hrest, List.append_assoc, List.singleton_append]

theorem dropRelative_eq_self (hhead : ∀ c ∈ text.head?, c ≠ '.')
    (h : ∀ w ∈ relativeWords, ∀ rest, text ≠ w ++ '.' :: rest) : dropRelative text = text := by
  rw [dropRelative_of_none (dropOne?_eq_none hhead h)]
  exact dropWhile_eq_iff.mpr ⟨[], rfl, List.forall_mem_nil _, fun c hc => beq_eq_false_iff_ne.mpr
    (hhead c hc)⟩

theorem IsWord.head_ne (h : IsWord w) : ∀ c ∈ (w ++ rest).head?, c ≠ '.' := by
  obtain ⟨d, w', rfl⟩ := List.exists_cons_of_ne_nil h.ne_nil
  intro c hc
  obtain rfl := Option.some.inj hc
  rintro rfl
  exact h.not_mem rfl List.mem_cons_self

/-- The relative words at the start are dropped, up to the first other word or the last word. -/
theorem dropRelative_led (hrelative : ∀ w ∈ relative, w ∈ relativeWords)
    (hnamed : ∀ w ∈ named, IsWord w) (hfirst : ∀ w ∈ named.head?, w ∉ relativeWords)
    (hlast : IsWord last) :
    dropRelative (led ['.'] (relative ++ named) ++ last) = led ['.'] named ++ last := by
  induction relative with
  | nil =>
    cases named with
    | nil =>
      apply dropRelative_eq_self
      · rw [← List.append_nil (led _ _ ++ last)]
        exact hlast.head_ne
      · rintro w hw rest he
        have hpoint : '.' ∈ last := by
          rw [show last = w ++ '.' :: rest from he]
          exact List.mem_append_right w List.mem_cons_self
        exact hlast.not_mem rfl hpoint
    | cons w named =>
      have hw := hnamed w List.mem_cons_self
      rw [List.nil_append, led_cons, List.append_assoc, List.append_assoc]
      apply dropRelative_eq_self hw.head_ne
      intro v hv rest he
      have hv' := isWord_of_mem_relativeWords hv
      exact hfirst w rfl ((cut_inj (hw.not_mem rfl) (hv'.not_mem rfl) he).1 ▸ hv)
  | cons w relative ih =>
    obtain ⟨hw, hrelative⟩ := List.forall_mem_cons.mp hrelative
    have hsplit : led ['.'] ((w :: relative) ++ named) ++ last =
        w ++ '.' :: (led ['.'] (relative ++ named) ++ last) := by
      rw [List.cons_append, led_cons, List.append_assoc, List.append_assoc]
      rfl
    rw [hsplit, dropRelative_of_some (dropOne?_relative hw _), ih hrelative]

/-! ### The last word -/

theorem dropSelf_self :
    dropSelf (led ['.'] (named ++ [w]) ++ "self".toList) = led ['.'] named ++ w := by
  have htext : led ['.'] (named ++ [w]) ++ "self".toList =
      (led ['.'] named ++ w) ++ ".self".toList := by
    rw [led_append, led_cons, led_nil, List.append_nil, List.append_assoc, List.append_assoc,
      List.append_assoc]
    rfl
  rw [dropSelf, dropEndWord?_eq_some_iff.mpr htext, Option.getD_some]

/-- A path that does not end in the word for the path before it keeps its last word. -/
theorem dropSelf_led (hlast : IsWord last) (hne : last ≠ "self".toList) :
    dropSelf (led ['.'] named ++ last) = led ['.'] named ++ last := by
  rw [dropSelf, Option.getD_eq_iff]
  refine Or.inr ⟨?_, rfl⟩
  rw [Option.eq_none_iff_forall_ne_some]
  intro before hbefore
  have htext := dropEndWord?_eq_some_iff.mp hbefore
  have hself : cutAtLast? '.' (before ++ ".self".toList) = some (before, "self".toList) :=
    cutAtLast?_append (by decide)
  rw [← htext] at hself
  rcases List.eq_nil_or_concat' named with rfl | ⟨init, w, rfl⟩
  · rw [led_nil, List.nil_append, cutAtLast?_eq_none (hlast.not_mem rfl)] at hself
    cases hself
  · have hsplit : led ['.'] (init ++ [w]) ++ last = (led ['.'] init ++ w) ++ '.' :: last := by
      rw [led_append, led_cons, led_nil, List.append_nil, List.append_assoc, List.append_assoc,
        List.append_assoc]
      rfl
    rw [hsplit, cutAtLast?_append (hlast.not_mem rfl)] at hself
    exact hne (Prod.mk.inj (Option.some.inj hself)).2

/-! ### All stages -/

/-- What may follow a path: nothing, or its alias. -/
def IsAliasText (suffix : List Char) : Prop :=
  suffix = [] ∨ ∃ name, suffix = " as ".toList ++ name

theorem not_isBlank_of_mem_led (hwords : ∀ w ∈ words, IsWord w) (hlast : IsWord last) :
    ∀ c ∈ led [':', ':'] words ++ last, isBlank c = false := by
  intro d hd
  rcases List.mem_append.mp hd with hd | hd
  · obtain ⟨w, hw, hd⟩ := List.mem_flatMap.mp hd
    rcases List.mem_append.mp hd with hd | hd
    · exact (hwords w hw).not_isBlank hd
    · have hcolon : d = ':' := by simpa using hd
      rw [hcolon]
      rfl
  · exact hlast.not_isBlank hd

theorem unaliased_led {suffix : List Char} (hwords : ∀ w ∈ words, IsWord w) (hlast : IsWord last)
    (halias : IsAliasText suffix) :
    unaliased (led [':', ':'] words ++ last ++ suffix) = led [':', ':'] words ++ last := by
  have hblank := not_isBlank_of_mem_led hwords hlast
  have hspace : ' ' ∉ led [':', ':'] words ++ last := fun hm => absurd (hblank ' ' hm) (by decide)
  have hcut : ((cutAt? " as ".toList (led [':', ':'] words ++ last ++ suffix)).map Prod.fst).getD
      (led [':', ':'] words ++ last ++ suffix) = led [':', ':'] words ++ last := by
    rcases halias with rfl | ⟨name, rfl⟩
    · rw [List.append_nil, show " as ".toList = ' ' :: ['a', 's', ' '] from rfl,
        cutAt?_eq_none hspace]
      rfl
    · rw [show " as ".toList = ' ' :: ['a', 's', ' '] from rfl, List.cons_append,
        cutAt?_append hspace]
      rfl
  rw [unaliased, hcut, trim_eq_self hblank]

/-- A path that is written word by word loses its alias and the relative words at its start. -/
theorem cleared_led {suffix : List Char} (hrelative : ∀ w ∈ relative, w ∈ relativeWords)
    (hnamed : ∀ w ∈ named, IsWord w) (hfirst : ∀ w ∈ named.head?, w ∉ relativeWords)
    (hlast : IsWord last) (halias : IsAliasText suffix) :
    cleared (led [':', ':'] (relative ++ named) ++ last ++ suffix) =
      dropSelf (led ['.'] named ++ last) := by
  have hwords : ∀ w ∈ relative ++ named, IsWord w := by
    intro w hw
    rcases List.mem_append.mp hw with hw | hw
    · exact isWord_of_mem_relativeWords (hrelative w hw)
    · exact hnamed w hw
  rw [cleared, unaliased_led hwords hlast halias, dotted_led hwords hlast,
    dropRelative_led hrelative hnamed hfirst hlast]

end CodeAtlas.ImportPath
