import CodeAtlas.ImportPath
import CodeAtlas.Proofs.Text.Pieces
import CodeAtlas.Proofs.Text.Strip

/-!
Brace lists of imports. An import with a brace list stands for the imports with one item in place of
the list, and each of these has fewer braces.
-/

namespace CodeAtlas.ImportPath

open Text

variable {s raw list before inside : List Char} {depth : Nat} {c : Char}

/-- A brace list goes from the first opening to the last closing brace. -/
theorem braceList?_eq_some_iff : braceList? s = some (before, inside) ↔
    ∃ after, s = before ++ '\x7b' :: (inside ++ '\x7d' :: after) ∧ '\x7b' ∉ before ∧
      '\x7d' ∉ after := by
  have hpass : ∀ {cs : List Char}, (∀ c ∈ cs, (c != '\x7b') = true) ↔ '\x7b' ∉ cs := by
    intro cs
    simp only [bne_iff_ne]
    exact ⟨fun h hm => h _ hm rfl, fun h c hc he => h (he ▸ hc)⟩
  unfold braceList?
  constructor
  · intro h
    have hs := List.takeWhile_append_dropWhile (p := (· != '\x7b')) (l := s)
    have hhead := List.head?_dropWhile_not (· != '\x7b') s
    split at h
    · cases h
    · next c rest hrest =>
      rw [hrest] at hs hhead
      obtain rfl : c = '\x7b' := by simpa using hhead
      split at h
      · cases h
      · next inside' after hcut =>
        obtain ⟨rfl, hafter⟩ := cutAtLast?_eq_some_iff.mp hcut
        obtain ⟨rfl, rfl⟩ := Prod.mk.inj (Option.some.inj h)
        exact ⟨after, hs.symm, hpass.mp fun d hd => List.mem_takeWhile_imp (p := (· != '\x7b')) hd,
          hafter⟩
  · rintro ⟨after, rfl, hbefore, hafter⟩
    rw [List.dropWhile_append_of_pos (hpass.mpr hbefore), List.takeWhile_append_of_pos
      (hpass.mpr hbefore), List.dropWhile_cons_of_neg (by simp),
      List.takeWhile_cons_of_neg (by simp)]
    simp only [cutAtLast?_append hafter, List.append_nil]

theorem dropEndWhile_sublist {α : Type} (p : α → Bool) (xs : List α) :
    (dropEndWhile p xs).Sublist xs := by
  have h := (List.dropWhile_sublist (l := xs.reverse) p).reverse
  rwa [List.reverse_reverse] at h

theorem strip_sublist {α : Type} (p : α → Bool) (xs : List α) : (strip p xs).Sublist xs :=
  (dropEndWhile_sublist p _).trans (List.dropWhile_sublist p)

theorem bare_sublist (raw : List Char) : (bare raw).Sublist raw :=
  ((strip_sublist _ _).trans (dropEndWhile_sublist _ _)).trans (strip_sublist _ _)

def depthAfter (depth : Nat) (c : Char) : Nat :=
  if c == '\x7b' then depth + 1 else if c == '\x7d' then depth - 1 else depth

theorem pieces_ne_nil (depth : Nat) (list : List Char) : pieces depth list ≠ [] := by
  cases list with
  | nil => exact List.cons_ne_nil _ _
  | cons c rest =>
    simp only [pieces]
    split
    · exact List.cons_ne_nil _ _
    · split <;> exact List.cons_ne_nil _ _

theorem pieces_comma (rest : List Char) : pieces 0 (',' :: rest) = [] :: pieces 0 rest := by
  simp [pieces]

/-- A character that is no comma outside all braces stands in the first piece. -/
theorem pieces_cons (h : c ≠ ',' ∨ depth ≠ 0) (rest : List Char) :
    pieces depth (c :: rest) = (pieces (depthAfter depth c) rest).modifyHead (c :: ·) := by
  have hpart : (c == ',' && depth == 0) = false := by
    rcases h with h | h
    · rw [beq_eq_false_iff_ne.mpr h, Bool.false_and]
    · rw [beq_eq_false_iff_ne.mpr h, Bool.and_false]
  obtain ⟨first, others, he⟩ := List.exists_cons_of_ne_nil (pieces_ne_nil (depthAfter depth c) rest)
  rw [pieces, if_neg (by simp [hpart]), he, List.modifyHead_cons]
  unfold depthAfter at he
  simp only [he]

theorem sublist_of_mem_pieces {piece : List Char} (h : piece ∈ pieces depth list) :
    piece.Sublist list := by
  induction list generalizing depth piece with
  | nil =>
    obtain rfl := List.mem_singleton.mp h
    exact List.nil_sublist _
  | cons c rest ih =>
    by_cases hpart : c ≠ ',' ∨ depth ≠ 0
    · obtain ⟨first, others, he⟩ :=
        List.exists_cons_of_ne_nil (pieces_ne_nil (depthAfter depth c) rest)
      rw [pieces_cons hpart, he, List.modifyHead_cons] at h
      rcases List.mem_cons.mp h with rfl | h
      · exact (ih (he ▸ List.mem_cons_self)).cons_cons c
      · exact (ih (he ▸ List.mem_cons_of_mem first h)).cons c
    · obtain ⟨rfl, rfl⟩ : c = ',' ∧ depth = 0 := by simpa only [not_or, not_not] using hpart
      rw [pieces_comma] at h
      rcases List.mem_cons.mp h with rfl | h
      · exact List.nil_sublist _
      · exact (ih h).cons _

theorem sublist_of_mem_items {item : List Char} (h : item ∈ items list) : item.Sublist list := by
  obtain ⟨piece, hpiece, rfl⟩ := List.mem_map.mp (List.mem_filter.mp h).1
  exact (strip_sublist _ _).trans (sublist_of_mem_pieces hpiece)

/-- The imports with one item in place of the brace list, in order, if there is a brace list. -/
def spread? (raw : List Char) : Option (List (List Char)) :=
  (braceList? (bare raw)).map fun (before, inside) => (items inside).map (before ++ ·)

/-- Each of the imports that an import is spread over has fewer opening braces. -/
theorem count_lt_of_spread? {raws : List (List Char)} (h : spread? raw = some raws)
    {raw' : List Char} (hmem : raw' ∈ raws) : raw'.count '\x7b' < raw.count '\x7b' := by
  obtain ⟨⟨before, inside⟩, hlist, rfl⟩ := Option.map_eq_some_iff.mp h
  obtain ⟨item, hitem, rfl⟩ := List.mem_map.mp hmem
  obtain ⟨after, hbare, -, -⟩ := braceList?_eq_some_iff.mp hlist
  have hraw := (bare_sublist raw).count_le '\x7b'
  have hinside := (sublist_of_mem_items hitem).count_le '\x7b'
  rw [hbare, List.count_append, List.count_cons_self, List.count_append] at hraw
  rw [List.count_append]
  omega

theorem normalizeChars_eq (raw : List Char) : normalizeChars raw =
    match spread? raw with
    | some raws => raws.flatMap normalizeChars
    | none => (ofPath (bare raw)).toList := by
  rw [normalizeChars, spread?]
  split
  · next before inside h =>
    simp only [h, Option.map_some, List.flatMap_map, List.flatMap_subtype, List.unattach_attach]
  · next h => rw [h, Option.map_none]

end CodeAtlas.ImportPath
