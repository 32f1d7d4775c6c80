import CodeAtlas.Text.Blank
import CodeAtlas.Text.Pieces

/-!
Dotted forms of written imports. `crate::models::{User, Role as R}` stands for `models.User` and
`models.Role`, the quoted `"./util/logger"` for `util.logger`, and `a::*` for `a.*`.

A brace list is spread over its items first, each item behind the text before the brace; what is
left is a single path, from which the alias, the separators and the words for "here" are cleared.
-/

namespace CodeAtlas.ImportPath

open Text

def isQuote (c : Char) : Bool :=
  c == '\x22' || c == '\x27' || c == '\x60'

/-- The import without the blanks, final semicolons and quotation marks around it. -/
def bare (raw : List Char) : List Char :=
  strip isQuote (dropEndWhile (· == ';') (trim raw))

/-- The pieces of a list between the commas outside all braces; `depth` braces are open. -/
def pieces (depth : Nat) : List Char → List (List Char)
  | [] => [[]]
  | c :: rest =>
    if c == ',' && depth == 0 then [] :: pieces depth rest
    else
      let depth := if c == '\x7b' then depth + 1 else if c == '\x7d' then depth - 1 else depth
      match pieces depth rest with
      | [] => [[c]]
      | piece :: others => (c :: piece) :: others

/-- The items of a brace list, without the blanks around them; empty items are left out. -/
def items (list : List Char) : List (List Char) :=
  ((pieces 0 list).map trim).filter fun item => !item.isEmpty

/-- The outermost brace list of an import: the text before it and its inside. -/
def braceList? (s : List Char) : Option (List Char × List Char) :=
  match s.dropWhile (· != '\x7b') with
  | [] => none
  | _ :: rest =>
    match cutAtLast? '\x7d' rest with
    | none => none
    | some (inside, _) => some (s.takeWhile (· != '\x7b'), inside)

/-- The segments that name a place relative to the file, each with the point after it. -/
def relativeSegments : List (List Char) :=
  ["crate.".toList, "self.".toList, "super.".toList]

/-- A dotted path without the points and the relative segments at its start. -/
def dropRelative (path : List Char) : List Char :=
  match _ : relativeSegments.findSome? fun w => dropWord? w (path.dropWhile (· == '.')) with
  | some rest => dropRelative rest
  | none => path.dropWhile (· == '.')
termination_by path.length
decreasing_by
  obtain ⟨w, hw, hrest⟩ := List.exists_of_findSome?_eq_some ‹_›
  have hlen := length_of_dropWord? hrest
  have hpath := length_dropWhile_le (fun c => c == '.') path
  have hpos : 0 < w.length := by
    simp only [relativeSegments, List.mem_cons, List.not_mem_nil, or_false] at hw
    rcases hw with rfl | rfl | rfl <;> decide
  omega

/-- The dotted form of a single path, unless nothing but a wildcard is left of it. -/
def ofPath (s : List Char) : Option (List Char) :=
  let named := trim (((cutAt? " as ".toList s).map Prod.fst).getD s)
  let dotted := (replaceWord "::".toList '.' named).map fun c => if c == '/' then '.' else c
  let path := dropRelative dotted
  let path := (dropEndWord? ".self".toList path).getD path
  if path.isEmpty || path == ['*'] then none else some path

theorem length_strip_le {α : Type} (p : α → Bool) (xs : List α) :
    (strip p xs).length ≤ xs.length := by
  have h₁ := length_dropWhile_le p (xs.dropWhile p).reverse
  have h₂ := length_dropWhile_le p xs
  simp only [strip, dropEndWhile, List.length_reverse] at *
  omega

theorem length_bare_le (raw : List Char) : (bare raw).length ≤ raw.length := by
  have h₁ := length_strip_le isQuote (dropEndWhile (· == ';') (trim raw))
  have h₂ := length_dropWhile_le (fun c => c == ';') (trim raw).reverse
  have h₃ := length_strip_le isBlank raw
  simp only [bare, dropEndWhile, trim, List.length_reverse] at *
  omega

theorem length_le_of_mem_pieces {depth : Nat} {list piece : List Char}
    (h : piece ∈ pieces depth list) : piece.length ≤ list.length := by
  induction list generalizing depth piece with
  | nil => simp_all [pieces]
  | cons c rest ih =>
    simp only [pieces] at h
    split at h
    · rcases List.mem_cons.1 h with rfl | h
      · simp
      · have := ih h
        simp only [List.length_cons]
        omega
    · split at h
      · simp_all
      · next p others heq =>
        rcases List.mem_cons.1 h with rfl | h
        · have := ih (heq ▸ List.mem_cons_self)
          simpa using this
        · have := ih (heq ▸ List.mem_cons_of_mem _ h)
          simp only [List.length_cons]
          omega

theorem length_le_of_mem_items {list item : List Char} (h : item ∈ items list) :
    item.length ≤ list.length := by
  simp only [items, List.mem_filter, List.mem_map] at h
  obtain ⟨⟨piece, hp, rfl⟩, -⟩ := h
  exact Nat.le_trans (length_strip_le isBlank piece) (length_le_of_mem_pieces hp)

theorem length_braceList?_lt {s before inside : List Char}
    (h : braceList? s = some (before, inside)) : before.length + inside.length < s.length := by
  simp only [braceList?] at h
  split at h
  · simp at h
  · next c rest hs =>
    split at h
    · simp at h
    · next ins aft hcut =>
      simp only [Option.some.injEq, Prod.mk.injEq] at h
      obtain ⟨rfl, rfl⟩ := h
      have hsplit := congrArg List.length
        (List.takeWhile_append_dropWhile (p := (· != '\x7b')) (l := s))
      rw [hs] at hsplit
      simp only [List.length_append, List.length_cons] at hsplit
      simp only [cutAtLast?] at hcut
      split at hcut
      · simp at hcut
      · next d pre hpre =>
        simp only [Option.some.injEq, Prod.mk.injEq] at hcut
        have hlen := length_dropWhile_le (· != '\x7d') rest.reverse
        rw [hpre] at hlen
        have : ins.length = pre.length := by rw [← hcut.1, List.length_reverse]
        simp only [List.length_cons, List.length_reverse] at hlen
        omega

/-- The dotted forms of a written import, in order of writing. -/
def normalizeChars (raw : List Char) : List (List Char) :=
  match _ : braceList? (bare raw) with
  | some (before, inside) =>
    (items inside).attach.flatMap fun item => normalizeChars (before ++ item.1)
  | none => (ofPath (bare raw)).toList
termination_by raw.length
decreasing_by
  have h₁ := length_le_of_mem_items item.2
  have h₂ := length_braceList?_lt ‹_›
  have h₃ := length_bare_le raw
  simp only [List.length_append]
  omega

def normalize (raw : String) : List String :=
  (normalizeChars raw.toList).map String.ofList

end CodeAtlas.ImportPath
