import Mathlib.Data.List.TakeWhile
import CodeAtlas.Text.Blank

/-!
What is left of a list when members of a class are dropped at its ends: the one part between such
members that neither begins nor ends with one.
-/

namespace CodeAtlas.Text

variable {α : Type} {p : α → Bool} {xs kept : List α}

theorem dropWhile_eq_iff : xs.dropWhile p = kept ↔
    ∃ dropped, xs = dropped ++ kept ∧ (∀ x ∈ dropped, p x = true) ∧ ∀ x ∈ kept.head?,
      p x = false := by
  constructor
  · rintro rfl
    refine ⟨xs.takeWhile p, List.takeWhile_append_dropWhile.symm,
      fun x hx => List.mem_takeWhile_imp hx, fun x hx => ?_⟩
    have hhead := List.head?_dropWhile_not p xs
    rwa [Option.mem_def.mp hx] at hhead
  · rintro ⟨dropped, rfl, hdropped, hhead⟩
    rw [List.dropWhile_append_of_pos hdropped]
    cases kept with
    | nil => rfl
    | cons x rest => exact List.dropWhile_cons_of_neg (by simp [hhead x rfl])

theorem dropEndWhile_eq_iff : dropEndWhile p xs = kept ↔
    ∃ dropped, xs = kept ++ dropped ∧ (∀ x ∈ dropped, p x = true) ∧ ∀ x ∈ kept.getLast?,
      p x = false := by
  rw [dropEndWhile, List.reverse_eq_iff, dropWhile_eq_iff, List.head?_reverse]
  constructor
  · rintro ⟨dropped, he, hdropped, hlast⟩
    refine ⟨dropped.reverse, ?_, fun x hx => hdropped x (List.mem_reverse.mp hx), hlast⟩
    rw [← List.reverse_reverse xs, he, List.reverse_append, List.reverse_reverse]
  · rintro ⟨dropped, rfl, hdropped, hlast⟩
    exact ⟨dropped.reverse, List.reverse_append, fun x hx => hdropped x (List.mem_reverse.mp hx),
      hlast⟩

/-- Whether a list is another one without some members of a class at its ends, and has none at its
own ends. -/
structure Stripped (p : α → Bool) (kept xs : List α) : Prop where
  parts : ∃ before after, xs = before ++ kept ++ after ∧ (∀ x ∈ before, p x = true) ∧
    ∀ x ∈ after, p x = true
  head : ∀ x ∈ kept.head?, p x = false
  last : ∀ x ∈ kept.getLast?, p x = false

theorem strip_eq_iff : strip p xs = kept ↔ Stripped p kept xs := by
  rw [strip, dropEndWhile_eq_iff]
  constructor
  · rintro ⟨after, he, hafter, hlast⟩
    obtain ⟨before, hxs, hbefore, hhead⟩ := dropWhile_eq_iff.mp he
    refine ⟨⟨before, after, by rw [hxs, List.append_assoc], hbefore, hafter⟩, fun x hx => ?_, hlast⟩
    cases kept with
    | nil => cases hx
    | cons y rest => exact hhead x hx
  · rintro ⟨⟨before, after, rfl, hbefore, hafter⟩, hhead, hlast⟩
    rw [List.append_assoc, List.dropWhile_append_of_pos hbefore]
    cases kept with
    | nil =>
      refine ⟨[], ?_, List.forall_mem_nil _, hlast⟩
      rw [List.nil_append, List.append_nil, List.dropWhile_eq_nil_iff.mpr hafter]
    | cons y rest =>
      rw [List.cons_append, List.dropWhile_cons_of_neg (by simp [hhead y rfl])]
      exact ⟨after, rfl, hafter, hlast⟩

theorem strip_eq_self (hhead : ∀ a ∈ xs.head?, p a = false)
    (hlast : ∀ a ∈ xs.getLast?, p a = false) : strip p xs = xs :=
  strip_eq_iff.mpr ⟨⟨[], [], by simp, List.forall_mem_nil _, List.forall_mem_nil _⟩, hhead, hlast⟩

end CodeAtlas.Text
