import CodeAtlas.ImportPath
import CodeAtlas.Proofs.Text.Pieces

/-!
The stages in which a single path is read: the alias goes, points are put for the separators, the
relative segments at the start go, and a last segment that means the path before it.
-/

namespace CodeAtlas.ImportPath

open Text

variable {path rest s : List Char}

def unaliased (s : List Char) : List Char :=
  trim (((cutAt? " as ".toList s).map Prod.fst).getD s)

def dotted (named : List Char) : List Char :=
  (replaceWord "::".toList '.' named).map fun c => if c == '/' then '.' else c

/-- What is left of a path when a relative segment is dropped at its start, points before it with
it. -/
def dropOne? (path : List Char) : Option (List Char) :=
  relativeSegments.findSome? fun w => dropWord? w (path.dropWhile (· == '.'))

theorem dropRelative_of_some (h : dropOne? path = some rest) :
    dropRelative path = dropRelative rest := by
  rw [dropRelative]
  split
  · next rest' h' =>
    obtain rfl := Option.some.inj (h'.symm.trans h)
    rfl
  · next h' => cases h'.symm.trans h

theorem dropRelative_of_none (h : dropOne? path = none) :
    dropRelative path = path.dropWhile (· == '.') := by
  rw [dropRelative]
  split
  · next rest' h' => cases h'.symm.trans h
  · rfl

theorem dropOne?_eq_some (h : dropOne? path = some rest) :
    ∃ w ∈ relativeSegments, path.dropWhile (· == '.') = w ++ rest := by
  obtain ⟨w, hw, hrest⟩ := List.exists_of_findSome?_eq_some h
  exact ⟨w, hw, dropWord?_eq_some_iff.mp hrest⟩

theorem length_lt_of_dropOne? (h : dropOne? path = some rest) : rest.length < path.length := by
  obtain ⟨w, hw, he⟩ := dropOne?_eq_some h
  have hpos : 0 < w.length := by
    simp only [relativeSegments, List.mem_cons, List.not_mem_nil, or_false] at hw
    rcases hw with rfl | rfl | rfl <;> decide
  have hlen := congrArg List.length he
  have hle := length_dropWhile_le (· == '.') path
  rw [List.length_append] at hlen
  omega

/-- A path without a last segment that means the path before it. -/
def dropSelf (path : List Char) : List Char :=
  (dropEndWord? ".self".toList path).getD path

theorem dropSelf_prefix (path : List Char) : dropSelf path <+: path := by
  rw [dropSelf]
  cases h : dropEndWord? ".self".toList path with
  | none => exact List.prefix_rfl
  | some rest => exact ⟨_, (dropEndWord?_eq_some_iff.mp h).symm⟩

def cleared (s : List Char) : List Char :=
  dropSelf (dropRelative (dotted (unaliased s)))

theorem ofPath_eq (s : List Char) :
    ofPath s = if (cleared s).isEmpty || cleared s == ['*'] then none else some (cleared s) := rfl

theorem ofPath_eq_some_iff :
    ofPath s = some path ↔ path ≠ [] ∧ path ≠ ['*'] ∧ path = cleared s := by
  rw [ofPath_eq]
  simp only [Bool.or_eq_true, List.isEmpty_iff, beq_iff_eq]
  split
  · next h =>
    constructor
    · intro hpath
      cases hpath
    · rintro ⟨hne, hwild, rfl⟩
      exact absurd h (not_or.mpr ⟨hne, hwild⟩)
  · next h =>
    rw [Option.some.injEq]
    constructor
    · rintro rfl
      exact ⟨fun he => h (Or.inl he), fun he => h (Or.inr he), rfl⟩
    · exact fun hpath => hpath.2.2.symm

end CodeAtlas.ImportPath
