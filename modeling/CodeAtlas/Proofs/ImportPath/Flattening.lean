import CodeAtlas.Proofs.ImportPath.UseTree

/-!
The dotted forms of a use tree. Reading its text puts the path above in front of every item and
reads again, so that the leaves are read with their full paths, in order.
-/

namespace CodeAtlas.ImportPath

open Text

variable {s : List Char} {segments above : List Segment} {last : Segment}

/-- A text without braces is read as a single path. -/
theorem normalizeChars_of_not_mem (hs : Solid s) (h : '\x7b' ∉ s) (n : Nat) :
    normalizeChars (s ++ List.replicate n ';') = (ofPath s).toList := by
  have hlist : braceList? s = none := by
    rw [Option.eq_none_iff_forall_ne_some]
    rintro ⟨before, inside⟩ hlist
    obtain ⟨after, rfl, -, -⟩ := braceList?_eq_some_iff.mp hlist
    exact h (List.mem_append_right before List.mem_cons_self)
  rw [normalizeChars_eq, spread?, bare_append hs, hlist]
  rfl

/-! ### Leaves -/

theorem isRelative_iff (s : Segment) : s.isRelative = true ↔ s.chars ∈ relativeWords :=
  List.contains_iff_mem

/-- A leaf is read as its full path without the relative segments, unless its last word means the
path above. -/
theorem cleared_leading {w suffix : List Char} (hw : IsWord w) (hsuffix : IsAliasText suffix)
    (segments : List Segment) :
    cleared (leading segments ++ w ++ suffix) =
      dropSelf (led ['.'] ((ordinary segments).map Segment.chars) ++ w) := by
  have hsplit : (segments.takeWhile Segment.isRelative).map Segment.chars ++
      (ordinary segments).map Segment.chars = segments.map Segment.chars := by
    rw [← List.map_append, ordinary, List.takeWhile_append_dropWhile]
  rw [leading_eq, ← hsplit, cleared_led _ _ _ hw hsuffix]
  · intro v hv
    obtain ⟨s, hs, rfl⟩ := List.mem_map.mp hv
    exact (isRelative_iff s).mp (List.mem_takeWhile_imp hs)
  · intro v hv
    obtain ⟨s, -, rfl⟩ := List.mem_map.mp hv
    exact s.isWord
  · intro v hv
    rw [List.head?_map, Option.mem_def, Option.map_eq_some_iff] at hv
    obtain ⟨s, hs, rfl⟩ := hv
    have hhead := List.head?_dropWhile_not Segment.isRelative segments
    rw [← ordinary, hs] at hhead
    rw [← isRelative_iff]
    simpa using hhead

theorem isAliasText_aliasText (name? : Option Segment) : IsAliasText (aliasText name?) := by
  cases name? with
  | none => exact Or.inl rfl
  | some name => exact Or.inr ⟨name.chars, rfl⟩

theorem pointed_concat (segments : List Segment) (last : Segment) :
    pointed (segments ++ [last]) = led ['.'] (segments.map Segment.chars) ++ last.chars := by
  rw [pointed, List.map_append, List.map_singleton, intercalate_concat]

/-- The path to a name is never empty or a wildcard. -/
theorem ofPath_of_cleared (h : cleared s = pointed (segments ++ [last])) :
    ofPath s = some (pointed (segments ++ [last])) := by
  rw [ofPath_eq_some_iff, h, pointed_concat]
  refine ⟨List.append_ne_nil_of_right_ne_nil _ last.chars_ne, fun hwild => ?_, rfl⟩
  obtain ⟨c, hc⟩ := List.exists_mem_of_ne_nil _ last.chars_ne
  have hmem := List.mem_append_right (led ['.'] (segments.map Segment.chars)) hc
  rw [hwild, List.mem_singleton] at hmem
  exact (last.plain c hc).2 hmem

theorem ordinary_ne_nil (h : ∃ s ∈ segments, s.isRelative = false) : ordinary segments ≠ [] := by
  intro hnil
  obtain ⟨s, hs, hplain⟩ := h
  rw [List.dropWhile_eq_nil_iff.mp hnil s hs] at hplain
  cases hplain

theorem ordinary_append_of_exists (h : ∃ s ∈ segments, s.isRelative = false) (more : List Segment) :
    ordinary (segments ++ more) = ordinary segments ++ more := by
  have hfound : (ordinary segments).isEmpty = false :=
    List.isEmpty_eq_false_iff.mpr (ordinary_ne_nil h)
  rw [ordinary, List.dropWhile_append, ← ordinary, hfound, if_neg Bool.false_ne_true]

/-- The last segment of a path to a name is not relative. -/
theorem ordinary_concat (hroot : Rooted (segments ++ [last]))
    (hnamed : ∃ s ∈ segments ++ [last], s.isRelative = false) :
    ordinary (segments ++ [last]) = ordinary segments ++ [last] ∧ last.isRelative = false := by
  by_cases hbefore : ∃ s ∈ segments, s.isRelative = false
  · have happend := ordinary_append_of_exists hbefore [last]
    refine ⟨happend, hroot last ?_⟩
    rw [happend]
    exact List.mem_append_right _ List.mem_cons_self
  · have hall : ∀ s ∈ segments, s.isRelative = true := fun s hs => by
      by_contra hs'
      exact hbefore ⟨s, hs, Bool.not_eq_true _ ▸ hs'⟩
    have hlast : last.isRelative = false := by
      obtain ⟨s, hs, hplain⟩ := hnamed
      rcases List.mem_append.mp hs with hs | hs
      · exact absurd ⟨s, hs, hplain⟩ hbefore
      · rwa [List.mem_singleton.mp hs] at hplain
    refine ⟨?_, hlast⟩
    rw [ordinary, ordinary, List.dropWhile_append_of_pos hall, List.dropWhile_eq_nil_iff.mpr hall,
      List.dropWhile_cons_of_neg (by simp [hlast])]
    rfl

theorem ofPath_path (name? : Option Segment) (hroot : Rooted (segments ++ [last]))
    (hnamed : ∃ s ∈ segments ++ [last], s.isRelative = false) :
    ofPath (leading segments ++ last.chars ++ aliasText name?) =
      some (pointed (ordinary (segments ++ [last]))) := by
  obtain ⟨hordinary, hlast⟩ := ordinary_concat hroot hnamed
  have hself : last.chars ≠ "self".toList := fun he => by
    rw [(isRelative_iff last).mpr (he ▸ List.mem_cons_of_mem _ List.mem_cons_self)] at hlast
    cases hlast
  rw [hordinary]
  apply ofPath_of_cleared
  rw [cleared_leading last.isWord (isAliasText_aliasText name?), dropSelf_led last.isWord hself,
    pointed_concat]

theorem ofPath_self (name? : Option Segment) (hnamed : ∃ s ∈ above, s.isRelative = false) :
    ofPath (leading above ++ "self".toList ++ aliasText name?) =
      some (pointed (ordinary above)) := by
  have hcleared := cleared_leading isWord_self (isAliasText_aliasText name?) above
  rcases List.eq_nil_or_concat' (ordinary above) with hnil | ⟨init, last, hconcat⟩
  · exact absurd hnil (ordinary_ne_nil hnamed)
  · rw [hconcat, List.map_append, List.map_singleton, dropSelf_self, ← pointed_concat] at hcleared
    rw [hconcat]
    exact ofPath_of_cleared hcleared

theorem ofPath_all (segments : List Segment) :
    (ofPath (leading segments ++ ['*'])).toList = UseTree.leaves [] (.all segments) := by
  have hcleared := cleared_leading isWord_wildcard (Or.inl rfl) segments
  rw [List.append_nil, dropSelf_led isWord_wildcard (by decide)] at hcleared
  rw [UseTree.leaves, List.nil_append]
  rcases List.eq_nil_or_concat' (ordinary segments) with hnil | ⟨init, last, hconcat⟩
  · rw [hnil] at hcleared ⊢
    rw [ofPath_eq, hcleared]
    rfl
  · have hpath : cleared (leading segments ++ ['*']) = pointed (init ++ [last]) ++ ".*".toList := by
      rw [hcleared, hconcat, List.map_append, List.map_singleton, led_append, led_cons, led_nil,
        List.append_nil, pointed_concat, List.append_assoc, List.append_assoc, List.append_assoc]
      rfl
    have hlong : 1 < (pointed (init ++ [last]) ++ ".*".toList).length := by
      rw [List.length_append]
      exact Nat.le_add_left 2 _
    have hsome : ofPath (leading segments ++ ['*']) =
        some (pointed (init ++ [last]) ++ ".*".toList) := by
      refine ofPath_eq_some_iff.mpr ⟨fun he => ?_, fun he => ?_, hpath.symm⟩
      · rw [he] at hlong
        cases hlong
      · rw [he] at hlong
        exact absurd hlong (by decide)
    rw [hsome, hconcat]
    cases hcase : init ++ [last] with
    | nil => exact absurd hcase (List.append_ne_nil_of_right_ne_nil init (List.cons_ne_nil _ _))
    | cons s rest => rfl

theorem not_mem_leading (segments : List Segment) : '\x7b' ∉ leading segments := by
  rw [leading_eq]
  exact not_mem_led (List.forall_mem_map.mpr fun s _ => s.isWord) rfl (by decide)

theorem not_mem_aliasText (name? : Option Segment) : '\x7b' ∉ aliasText name? := by
  cases name? with
  | none => exact List.not_mem_nil
  | some name =>
    rw [aliasText, List.mem_append, not_or]
    exact ⟨by decide, name.isWord.not_mem rfl⟩

/-- A leaf is read as a single path. -/
theorem normalizeChars_leaf {w : List Char} (hw : IsWord w) (segments : List Segment)
    (name? : Option Segment) (n : Nat) :
    normalizeChars (leading segments ++ w ++ aliasText name? ++ List.replicate n ';') =
      (ofPath (leading segments ++ w ++ aliasText name?)).toList := by
  have hsolid : Solid (leading segments ++ w ++ aliasText name?) :=
    solid_aliased name? (Solid.append (not_isEdge_of_mem_leading segments)
      (Solid.of_forall hw.ne_nil fun c hc => isEdge_of_isMark (hw.plain c hc)))
  have hopen : '\x7b' ∉ leading segments ++ w ++ aliasText name? := by
    simp only [List.mem_append, not_or]
    exact ⟨⟨not_mem_leading segments, hw.not_mem rfl⟩, not_mem_aliasText name?⟩
  exact normalizeChars_of_not_mem hsolid hopen n

/-! ### Trees -/

/-- A list is spread over the texts of its use trees, each behind all segments above it. -/
theorem normalizeChars_list (above segments : List Segment) (l : UseItems) (n : Nat) :
    normalizeChars (leading above ++ UseTree.text (.list segments l) ++ List.replicate n ';') =
      l.trees.flatMap fun t => normalizeChars (leading (above ++ segments) ++ t.text) := by
  have hsolid := Solid.append (not_isEdge_of_mem_leading above) (UseTree.solid (.list segments l))
  have hlist : braceList? (leading above ++ UseTree.text (.list segments l)) =
      some (leading (above ++ segments), l.text) := by
    refine braceList?_eq_some_iff.mpr ⟨[], ?_, not_mem_leading _, List.not_mem_nil⟩
    rw [UseTree.text, leading_append, List.append_assoc]
  have hspread : spread? (leading above ++ UseTree.text (.list segments l) ++
      List.replicate n ';') =
      some (l.trees.map fun t => leading (above ++ segments) ++ t.text) := by
    rw [spread?, bare_append hsolid, hlist, Option.map_some]
    simp only [items_text, List.map_map, Function.comp_def]
  rw [normalizeChars_eq, hspread]
  exact List.flatMap_map _ _ _

mutual

theorem UseTree.normalizeChars_eq (above : List Segment) (n : Nat) : (t : UseTree) → t.Valid above →
    normalizeChars (leading above ++ t.text ++ List.replicate n ';') = t.leaves above
  | .path segments last name?, ⟨hroot, hnamed⟩ => by
    have hfull : leading above ++ UseTree.text (.path segments last name?) =
        leading (above ++ segments) ++ last.chars ++ aliasText name? := by
      rw [UseTree.text, leading_append, List.append_assoc, List.append_assoc, List.append_assoc]
    have hnamed : ∃ s ∈ above ++ segments ++ [last], s.isRelative = false := by
      obtain ⟨s, hs, hplain⟩ := hnamed
      rw [List.append_assoc]
      exact ⟨s, List.mem_append_right above hs, hplain⟩
    rw [hfull, normalizeChars_leaf last.isWord, ofPath_path name? hroot hnamed]
    rfl
  | .all segments, _ => by
    have hfull : leading above ++ UseTree.text (.all segments) =
        leading (above ++ segments) ++ ['*'] ++ aliasText none := by
      rw [UseTree.text, leading_append, aliasText, List.append_nil, List.append_assoc]
    rw [hfull, normalizeChars_leaf isWord_wildcard, aliasText, List.append_nil, ofPath_all]
    rfl
  | .self name?, ⟨_, hnamed⟩ => by
    have hfull : leading above ++ UseTree.text (.self name?) =
        leading above ++ "self".toList ++ aliasText name? := by
      rw [UseTree.text, List.append_assoc]
    rw [hfull, normalizeChars_leaf isWord_self, ofPath_self name? hnamed]
    rfl
  | .list segments l, h => by
    rw [normalizeChars_list, UseItems.flatMap_normalizeChars (above ++ segments) l h]
    rfl

theorem UseItems.flatMap_normalizeChars (above : List Segment) : (l : UseItems) → l.Valid above →
    l.trees.flatMap (fun t => normalizeChars (leading above ++ t.text)) = l.leaves above
  | .none _, _ => rfl
  | .last _ item _, h => by
    have hitem := UseTree.normalizeChars_eq above 0 item h
    rw [List.replicate_zero, List.append_nil] at hitem
    rw [UseItems.trees, List.flatMap_singleton, hitem]
    rfl
  | .cons _ item _ more, ⟨h, hmore⟩ => by
    have hitem := UseTree.normalizeChars_eq above 0 item h
    rw [List.replicate_zero, List.append_nil] at hitem
    rw [UseItems.trees, List.flatMap_cons, hitem, UseItems.flatMap_normalizeChars above more hmore]
    rfl

end

/-- The text of a use tree, with semicolons behind it or without, stands for the paths to its
leaves, in order. -/
theorem normalize_useTree (t : UseTree) (ht : t.Valid []) (n : Nat) :
    normalize (String.ofList (t.text ++ List.replicate n ';')) =
      (t.leaves []).map String.ofList := by
  have hleaves := UseTree.normalizeChars_eq [] n t ht
  rw [leading, List.flatMap_nil, List.nil_append] at hleaves
  rw [normalize, String.toList_ofList, hleaves]

/-- A list below a list, with a name for the path above it, a renamed name and all names. -/
def nestedTree : UseTree :=
  .list [.ofText "crate" rfl, .ofText "a" rfl]
    (.cons (.ofText " " rfl) (.path [] (.ofText "B" rfl) none) (.ofText "" rfl)
      (.cons (.ofText "\n" rfl)
        (.list [.ofText "c" rfl]
          (.cons (.ofText "" rfl) (.self (some (.ofText "s" rfl))) (.ofText " " rfl)
            (.cons (.ofText " " rfl) (.path [] (.ofText "D" rfl) (some (.ofText "E" rfl)))
              (.ofText "" rfl) (.last (.ofText " " rfl) (.all []) (.ofText "" rfl)))))
        (.ofText "" rfl) (.none (.ofText "\n" rfl))))

theorem normalize_useTree_nested :
    nestedTree.Valid [] ∧
      normalize "crate::a::\x7b B,\nc::\x7bself as s , D as E, *\x7d,\n\x7d;" =
          ["a.B", "a.c", "a.c.D", "a.c.*"] := by
  have hvalid : nestedTree.Valid [] := by decide
  have htext : String.ofList (nestedTree.text ++ List.replicate 1 ';') =
      "crate::a::\x7b B,\nc::\x7bself as s , D as E, *\x7d,\n\x7d;" := rfl
  have hleaves : (nestedTree.leaves []).map String.ofList = ["a.B", "a.c", "a.c.D", "a.c.*"] := rfl
  refine ⟨hvalid, ?_⟩
  rw [← htext, normalize_useTree nestedTree hvalid, hleaves]

end CodeAtlas.ImportPath
