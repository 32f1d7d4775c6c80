import Mathlib.Data.List.TakeWhile
import Mathlib.Data.List.Infix

/-!
Lines, in characters or in bytes. What stands before a place is the lines above it and the start of
its own line; the number of line feeds above tells which line that is when all is split at them.
-/

namespace CodeAtlas.Text

variable {α : Type} {newline : α} {above : List α}

/-- Whether nothing stands there, or the end of a line at the end. -/
def EndsLine (newline : α) (above : List α) : Prop :=
  above = [] ∨ ∃ rest, above = rest ++ [newline]

variable [DecidableEq α]

/-- The end of a list from its last line feed on. -/
def lastLine (newline : α) (l : List α) : List α :=
  (l.reverse.takeWhile (· != newline)).reverse

theorem not_mem_lastLine (newline : α) (l : List α) : newline ∉ lastLine newline l := by
  intro hm
  exact absurd (List.mem_takeWhile_imp (List.mem_reverse.mp hm)) (by simp)

/-- What stands before a place is the lines above it and the start of its line. -/
theorem exists_above (newline : α) (l : List α) :
    ∃ above, l = above ++ lastLine newline l ∧ EndsLine newline above ∧
      above.count newline = l.count newline := by
  have hl : l = (l.reverse.dropWhile (· != newline)).reverse ++ lastLine newline l := by
    rw [lastLine, ← List.reverse_append, List.takeWhile_append_dropWhile, List.reverse_reverse]
  refine ⟨_, hl, ?_, ?_⟩
  · have hhead := List.head?_dropWhile_not (· != newline) l.reverse
    cases hdrop : l.reverse.dropWhile (· != newline) with
    | nil => exact Or.inl rfl
    | cons d rest =>
      have hd : d = newline := by simpa [hdrop] using hhead
      exact Or.inr ⟨rest.reverse, by rw [List.reverse_cons, hd]⟩
  · conv_rhs => rw [hl, List.count_append, List.count_eq_zero.mpr (not_mem_lastLine newline l),
      Nat.add_zero]

/-- Behind some lines stands what stood behind the last line before them, unless a line ends among
them. -/
theorem EndsLine.exists_lines (h : EndsLine newline above) (before : List α) :
    ∃ lines, before ++ above =
        lines ++ (if above.count newline = 0 then lastLine newline before else []) ∧
      EndsLine newline lines ∧
      lines.count newline = before.count newline + above.count newline := by
  rcases h with rfl | ⟨rest, rfl⟩
  · obtain ⟨lines, hlines, hends, hcount⟩ := exists_above newline before
    refine ⟨lines, ?_, hends, hcount⟩
    rw [List.append_nil, List.count_nil, if_pos rfl]
    exact hlines
  · have hne : (rest ++ [newline]).count newline ≠ 0 := by simp
    refine ⟨before ++ (rest ++ [newline]), ?_, Or.inr ⟨before ++ rest, by simp⟩, List.count_append⟩
    rw [if_neg hne, List.append_nil]

theorem length_splitOn (newline : α) (l : List α) :
    (l.splitOn newline).length = l.count newline + 1 := by
  unfold List.splitOn
  induction l with
  | nil => rfl
  | cons c rest ih =>
    rw [List.splitOnP_cons_eq_if_modifyHead, List.count_cons]
    split <;> simp [ih]

theorem head?_splitOn (newline : α) (l : List α) :
    (l.splitOn newline)[0]? = some (l.takeWhile (· != newline)) := by
  unfold List.splitOn
  induction l with
  | nil => rfl
  | cons c rest ih =>
    rw [← List.head?_eq_getElem?] at ih ⊢
    rw [List.splitOnP_cons_eq_if_modifyHead, List.takeWhile_cons]
    by_cases hc : c = newline
    · simp [hc]
    · simp [hc, List.head?_modifyHead, ih]

/-- The line of a place, by the number of lines above it. -/
theorem getElem?_splitOn (h : EndsLine newline above) (l : List α) :
    ((above ++ l).splitOn newline)[above.count newline]? = some (l.takeWhile (· != newline)) := by
  rcases h with rfl | ⟨rest, rfl⟩
  · exact head?_splitOn newline l
  · have hsplit : ((rest ++ [newline]) ++ l).splitOn newline =
        rest.splitOn newline ++ l.splitOn newline := by
      rw [List.append_assoc]
      exact List.splitOnP_append_cons _ _ BEq.rfl
    rw [hsplit, List.count_append, List.count_singleton_self, ← length_splitOn newline rest,
      List.getElem?_append_right (Nat.le_refl _), Nat.sub_self, head?_splitOn]

end CodeAtlas.Text
