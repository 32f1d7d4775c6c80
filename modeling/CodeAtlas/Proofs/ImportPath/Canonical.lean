import Mathlib.Data.List.Chain
import CodeAtlas.Proofs.ImportPath.Brace
import CodeAtlas.Proofs.ImportPath.Path

/-!
The dotted form of every text, however broken. Spreading an import over the items of its brace list
comes to an end, since each import it is spread over has fewer braces; so does the dropping of
relative segments, which shortens the path. What is returned is in canonical form.
-/

namespace CodeAtlas.ImportPath

open Text

/-- A chain along which a measure decreases is no longer than the measure of its start. -/
theorem length_le_of_isChain {α : Type} {R : α → α → Prop} {m : α → Nat}
    (h : ∀ a b, R a b → m b < m a) {a : α} {l : List α} (hl : (a :: l).IsChain R) :
    l.length ≤ m a := by
  induction l generalizing a with
  | nil => exact Nat.zero_le _
  | cons b l ih =>
    obtain ⟨hab, hl⟩ := List.isChain_cons_cons.mp hl
    exact Nat.lt_of_le_of_lt (ih hl) (h a b hab)

/-- Whether an import is spread over others of which one is `raw'`. -/
def Spreads (raw raw' : List Char) : Prop :=
  ∃ raws, spread? raw = some raws ∧ raw' ∈ raws

variable {path text w : List Char} {c : Char}

/-- What no path in canonical form begins with. -/
def barredStarts : List (List Char) :=
  ".".toList :: relativeSegments

/-- The relative segments are dropped at the start of a path until none stands there. -/
theorem dropRelative_suffix (path : List Char) :
    dropRelative path <:+ path ∧ ∀ w ∈ barredStarts, ¬ w <+: dropRelative path := by
  fun_induction dropRelative path with
  | case1 path rest h ih =>
    obtain ⟨w, -, he⟩ := dropOne?_eq_some h
    refine ⟨(ih.1.trans ⟨w, he.symm⟩).trans (List.dropWhile_suffix _), ih.2⟩
  | case2 path h =>
    refine ⟨List.dropWhile_suffix _, ?_⟩
    intro w hw
    rcases List.mem_cons.mp hw with rfl | hw
    · rintro ⟨rest, hrest⟩
      have hhead := List.head?_dropWhile_not (· == '.') path
      rw [← hrest] at hhead
      exact absurd hhead (by simp)
    · rintro ⟨rest, hrest⟩
      have hnone := List.findSome?_eq_none_iff.mp h w hw
      rw [dropWord?_eq_some_iff.mpr hrest.symm] at hnone
      cases hnone

theorem head?_replaceWord (hc : c ≠ ':') (h : (replaceWord [':', ':'] c text).head? = some ':') :
    text.head? = some ':' := by
  cases text with
  | nil =>
    rw [replaceWord] at h
    cases h
  | cons d text =>
    rw [replaceWord] at h
    split at h
    · exact absurd (Option.some.inj h) hc
    · exact h

/-- Two colons side by side are left nowhere: the second of two that are left would have been taken
with the first. -/
theorem not_infix_replaceWord (hc : c ≠ ':') : ¬ [':', ':'] <:+: replaceWord [':', ':'] c text := by
  fun_induction replaceWord [':', ':'] c text with
  | case1 => exact fun h => absurd (List.infix_nil.mp h) (List.cons_ne_nil _ _)
  | case2 d text rest h hempty ih => cases hempty
  | case3 d text rest h hempty ih =>
    intro hwithin
    rcases List.infix_cons_iff.mp hwithin with hstart | hwithin
    · exact hc (List.cons_prefix_cons.mp hstart).1.symm
    · exact ih hwithin
  | case4 d text h ih =>
    intro hwithin
    rcases List.infix_cons_iff.mp hwithin with hstart | hwithin
    · obtain ⟨rfl, rest, hrest⟩ := List.cons_prefix_cons.mp hstart
      have hhead : (replaceWord [':', ':'] c text).head? = some ':' := by rw [← hrest]; rfl
      obtain ⟨rest', rfl⟩ := List.head?_eq_some_iff.mp (head?_replaceWord hc hhead)
      cases h
    · exact ih hwithin

theorem not_infix_map {f : Char → Char} (hf : ∀ d, f d = ':' → d = ':')
    (h : ¬ [':', ':'] <:+: text) : ¬ [':', ':'] <:+: text.map f := by
  rintro ⟨before, after, he⟩
  obtain ⟨init, last, rfl, hinit, -⟩ := List.map_eq_append_iff.mp he.symm
  obtain ⟨before', colons, rfl, -, hcolons⟩ := List.map_eq_append_iff.mp hinit
  obtain ⟨d, rest, rfl, hd, hrest⟩ := List.map_eq_cons_iff.mp hcolons
  obtain ⟨e, rest, rfl, hlast, hrest⟩ := List.map_eq_cons_iff.mp hrest
  obtain rfl := List.map_eq_nil_iff.mp hrest
  refine h ⟨before', last, ?_⟩
  rw [hf d hd, hf e hlast]

theorem not_infix_dotted (named : List Char) : ¬ [':', ':'] <:+: dotted named := by
  apply not_infix_map
  · intro d hd
    split at hd
    · cases hd
    · exact hd
  · exact not_infix_replaceWord (by decide)

theorem slash_not_mem_dotted (named : List Char) : '/' ∉ dotted named := by
  intro hm
  obtain ⟨d, -, hd⟩ := List.mem_map.mp hm
  split at hd
  · cases hd
  · next h => exact h (beq_iff_eq.mpr hd)

/-- The form of all dotted paths that are returned. -/
structure Canonical (path : List Char) : Prop where
  ne_nil : path ≠ []
  ne_wildcard : path ≠ ['*']
  separator : ¬ "::".toList <:+: path
  slash : '/' ∉ path
  starts : ∀ w ∈ barredStarts, ¬ w <+: path

theorem canonical_of_ofPath {s : List Char} (h : ofPath s = some path) : Canonical path := by
  obtain ⟨hne, hwild, rfl⟩ := ofPath_eq_some_iff.mp h
  obtain ⟨hsuffix, hstarts⟩ := dropRelative_suffix (dotted (unaliased s))
  have hpart : cleared s <+: dropRelative (dotted (unaliased s)) := dropSelf_prefix _
  have hwithin := hpart.isInfix.trans hsuffix.isInfix
  constructor
  · exact hne
  · exact hwild
  · exact fun hcolons => not_infix_dotted _ (hcolons.trans hwithin)
  · exact fun hslash => slash_not_mem_dotted _ (hwithin.subset hslash)
  · exact fun w hw hstart => hstarts w hw (hstart.trans hpart)

theorem canonical_of_mem_normalizeChars (raw : List Char) :
    ∀ path ∈ normalizeChars raw, Canonical path := by
  induction hn : raw.count '\x7b' using Nat.strong_induction_on generalizing raw with
  | _ n ih =>
    intro path hpath
    rw [normalizeChars_eq] at hpath
    cases hspread : spread? raw with
    | none =>
      rw [hspread] at hpath
      exact canonical_of_ofPath (Option.mem_toList.mp hpath)
    | some raws =>
      rw [hspread] at hpath
      obtain ⟨raw', hmem, hpath⟩ := List.mem_flatMap.mp hpath
      exact ih _ (hn ▸ count_lt_of_spread? hspread hmem) raw' rfl path hpath

/-- All texts have dotted forms, and these are in canonical form. The calls for the imports that a
text is spread over are nested no deeper than the text has opening braces, and no more segments are
dropped from a path than it has characters. -/
theorem normalize_canonical (raw : String) :
    (∀ raws, (raw.toList :: raws).IsChain Spreads → raws.length ≤ raw.toList.count '\x7b') ∧
    (∀ path rests, (path :: rests).IsChain (fun path rest => dropOne? path = some rest) →
      rests.length ≤ path.length) ∧
    ∀ path ∈ normalize raw, Canonical path.toList := by
  refine ⟨?_, ?_, ?_⟩
  · intro raws
    exact length_le_of_isChain fun raw raw' ⟨raws, h, hmem⟩ => count_lt_of_spread? h hmem
  · intro path rests
    exact length_le_of_isChain fun path rest h => length_lt_of_dropOne? h
  · intro path hpath
    obtain ⟨chars, hchars, rfl⟩ := List.mem_map.mp hpath
    rw [String.toList_ofList]
    exact canonical_of_mem_normalizeChars raw.toList chars hchars

/-- An import with a brace that is never closed, and the second of the imports that it is spread
over. -/
theorem spreads_brokenList :
    Spreads "crate::a::\x7b::b, \x7bc/d\x7d".toList "crate::a::\x7bc/d".toList :=
  ⟨["crate::a::::b".toList, "crate::a::\x7bc/d".toList], rfl,
    List.mem_cons_of_mem _ List.mem_cons_self⟩

theorem normalize_canonical_brokenList :
    ["crate::a::\x7b::b, \x7bc/d\x7d".toList, "crate::a::\x7bc/d".toList].IsChain Spreads ∧
      1 ≤ "crate::a::\x7b::b, \x7bc/d\x7d".toList.count '\x7b' ∧
      ["crate.super..a".toList, "super..a".toList, ".a".toList].IsChain
        (fun path rest => dropOne? path = some rest) ∧
      2 ≤ "crate.super..a".toList.length ∧
      "a.\x7bc.d" ∈ normalize "crate::a::\x7b::b, \x7bc/d\x7d" ∧ Canonical "a.\x7bc.d".toList := by
  obtain ⟨hcalls, hrounds, hcanonical⟩ := normalize_canonical "crate::a::\x7b::b, \x7bc/d\x7d"
  have hspreads := List.isChain_cons_cons.mpr ⟨spreads_brokenList, List.isChain_singleton _⟩
  have hdrops : ["crate.super..a".toList, "super..a".toList, ".a".toList].IsChain
      (fun path rest => dropOne? path = some rest) :=
    List.isChain_cons_cons.mpr ⟨rfl, List.isChain_cons_cons.mpr ⟨rfl, List.isChain_singleton _⟩⟩
  have hpath : "a.\x7bc.d" ∈ normalize "crate::a::\x7b::b, \x7bc/d\x7d" := by decide +kernel
  exact ⟨hspreads, hcalls _ hspreads, hdrops, hrounds _ _ hdrops, hpath, hcanonical _ hpath⟩

end CodeAtlas.ImportPath
