import Mathlib.Data.List.TakeWhile
import CodeAtlas.Chunk.Name

/-!
What is found when a text is cut at a word at its end or at the first or last place of a character:
the parts, which put together again are the text.
-/

namespace CodeAtlas.Text

variable {word text rest before after : List Char} {sep : Char}

theorem dropWord?_eq_some_iff : dropWord? word text = some rest ↔ text = word ++ rest := by
  induction word generalizing text with
  | nil => simp [dropWord?]
  | cons w word ih =>
    cases text with
    | nil => simp [dropWord?]
    | cons c text =>
      rw [dropWord?, List.cons_append, List.cons.injEq]
      by_cases h : w = c
      · rw [if_pos (beq_iff_eq.mpr h), ih]
        exact (and_iff_right h.symm).symm
      · rw [if_neg (by simpa using h)]
        simp [Ne.symm h]

/-- A text is cut in one way only at the first place where a character stands. -/
theorem cut_inj {us vs xs ys : List Char} (hu : sep ∉ us) (hv : sep ∉ vs)
    (h : us ++ sep :: xs = vs ++ sep :: ys) : us = vs ∧ xs = ys := by
  induction us generalizing vs with
  | nil =>
    cases vs with
    | nil => exact ⟨rfl, (List.cons.inj h).2⟩
    | cons v vs => exact absurd ((List.cons.inj h).1 ▸ List.mem_cons_self) hv
  | cons u us ih =>
    cases vs with
    | nil => exact absurd ((List.cons.inj h).1 ▸ List.mem_cons_self) hu
    | cons v vs =>
      obtain ⟨rfl, ht⟩ := List.cons.inj h
      obtain ⟨rfl, rfl⟩ := ih (fun hm => hu (List.mem_cons_of_mem u hm))
        (fun hm => hv (List.mem_cons_of_mem u hm)) ht
      exact ⟨rfl, rfl⟩

theorem dropEndWord?_eq_some_iff : dropEndWord? word text = some before ↔
    text = before ++ word := by
  rw [dropEndWord?, Option.map_eq_some_iff]
  constructor
  · rintro ⟨rest, h, rfl⟩
    have h := congrArg List.reverse (dropWord?_eq_some_iff.mp h)
    rwa [List.reverse_reverse, List.reverse_append, List.reverse_reverse] at h
  · rintro rfl
    exact ⟨before.reverse, dropWord?_eq_some_iff.mpr (List.reverse_append),
      List.reverse_reverse before⟩

theorem cutAtLast?_append (h : sep ∉ after) :
    cutAtLast? sep (before ++ sep :: after) = some (before, after) := by
  have hpass : ∀ c ∈ after.reverse, (c != sep) = true := by
    intro c hc
    rw [bne_iff_ne]
    rintro rfl
    exact h (List.mem_reverse.mp hc)
  have hreverse : (before ++ sep :: after).reverse = after.reverse ++ sep :: before.reverse := by
    rw [List.reverse_append, List.reverse_cons, List.append_assoc, List.singleton_append]
  rw [cutAtLast?, hreverse, List.dropWhile_append_of_pos hpass, List.takeWhile_append_of_pos hpass,
    List.dropWhile_cons_of_neg (by simp), List.takeWhile_cons_of_neg (by simp)]
  simp

theorem cutAtLast?_eq_none (h : sep ∉ text) : cutAtLast? sep text = none := by
  have hnil : text.reverse.dropWhile (· != sep) = [] := by
    rw [List.dropWhile_eq_nil_iff]
    intro c hc
    rw [bne_iff_ne]
    rintro rfl
    exact h (List.mem_reverse.mp hc)
  rw [cutAtLast?, hnil]

theorem exists_last (h : sep ∈ text) :
    ∃ before after, text = before ++ sep :: after ∧ sep ∉ after := by
  obtain ⟨after, before, he, hafter⟩ := List.eq_append_cons_of_mem (List.mem_reverse.mpr h)
  refine ⟨before.reverse, after.reverse, ?_, fun hm => hafter (List.mem_reverse.mp hm)⟩
  rw [← List.reverse_reverse text, he]
  simp

theorem cutAtLast?_eq_some_iff :
    cutAtLast? sep text = some (before, after) ↔ text = before ++ sep :: after ∧ sep ∉ after := by
  constructor
  · intro h
    by_cases hm : sep ∈ text
    · obtain ⟨before', after', rfl, hafter⟩ := exists_last hm
      rw [cutAtLast?_append hafter] at h
      obtain ⟨rfl, rfl⟩ := Prod.mk.inj (Option.some.inj h)
      exact ⟨rfl, hafter⟩
    · rw [cutAtLast?_eq_none hm] at h
      cases h
  · rintro ⟨rfl, hafter⟩
    exact cutAtLast?_append hafter

theorem cutAtLast?_eq_none_iff : cutAtLast? sep text = none ↔ sep ∉ text := by
  refine ⟨fun h hm => ?_, cutAtLast?_eq_none⟩
  obtain ⟨before, after, rfl, hafter⟩ := exists_last hm
  rw [cutAtLast?_append hafter] at h
  cases h

end CodeAtlas.Text

namespace CodeAtlas.Name

open Text

variable {s last : List Char}

/-- What follows the last point has no point in it, and stands alone or behind a point. -/
theorem afterLastPoint_eq_iff :
    afterLastPoint s = last ↔ '.' ∉ last ∧ (s = last ∨ ∃ head, s = head ++ '.' :: last) := by
  unfold afterLastPoint
  cases h : cutAtLast? '.' s with
  | none =>
    have hpoint := cutAtLast?_eq_none_iff.mp h
    constructor
    · rintro rfl
      exact ⟨hpoint, Or.inl rfl⟩
    · rintro ⟨-, rfl | ⟨head, rfl⟩⟩
      · rfl
      · exact absurd (List.mem_append_right head List.mem_cons_self) hpoint
  | some p =>
    obtain ⟨head, after⟩ := p
    obtain ⟨rfl, hafter⟩ := cutAtLast?_eq_some_iff.mp h
    constructor
    · rintro rfl
      exact ⟨hafter, Or.inr ⟨head, rfl⟩⟩
    · rintro ⟨hlast, rfl | ⟨head', he⟩⟩
      · exact absurd (List.mem_append_right head List.mem_cons_self) hlast
      · rw [he, cutAtLast?_append hlast] at h
        exact (Prod.mk.inj (Option.some.inj h)).2.symm

end CodeAtlas.Name
