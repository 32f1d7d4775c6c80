import Mathlib.Data.List.Pairwise
import Mathlib.Data.Int.Order.Basic
import Mathlib.Data.Nat.Basic
import Mathlib.Order.Lattice

/-!
Sorting by a rank. The sort is stable: elements of one rank keep their order.
-/

namespace CodeAtlas.StableSort

variable {α κ : Type} [LinearOrder κ] (rank : α → κ)

theorem le_rank_trans (a b c : α) (hab : decide (rank a ≤ rank b) = true)
    (hbc : decide (rank b ≤ rank c) = true) : decide (rank a ≤ rank c) = true := by
  simp only [decide_eq_true_eq] at hab hbc ⊢
  exact le_trans hab hbc

theorem le_rank_total (a b : α) :
    (decide (rank a ≤ rank b) || decide (rank b ≤ rank a)) = true := by
  simp only [Bool.or_eq_true, decide_eq_true_eq]
  exact le_total (rank a) (rank b)

theorem pairwise_rank (l : List α) :
    (l.mergeSort fun a b => rank a ≤ rank b).Pairwise fun a b => rank a ≤ rank b := by
  apply (List.pairwise_mergeSort (le_rank_trans rank) (le_rank_total rank) l).imp
  intro a b hab
  exact of_decide_eq_true hab

theorem filter_rank (l : List α) (n : κ) :
    (l.mergeSort fun a b => rank a ≤ rank b).filter (fun a => rank a == n) =
      l.filter fun a => rank a == n := by
  have hsub : (l.filter fun a => rank a == n).Sublist (l.mergeSort fun a b => rank a ≤ rank b) := by
    apply List.sublist_mergeSort (le_rank_trans rank) (le_rank_total rank)
    · apply List.pairwise_of_forall_mem_list
      intro a ha b hb
      have hra : rank a = n := by simpa using (List.mem_filter.mp ha).2
      have hrb : rank b = n := by simpa using (List.mem_filter.mp hb).2
      simp only [decide_eq_true_eq, hra, hrb, le_refl]
    · exact List.filter_sublist
  have h := hsub.filter fun a => rank a == n
  rw [List.filter_filter] at h
  simp only [Bool.and_self] at h
  have hperm := (List.mergeSort_perm l fun a b => rank a ≤ rank b).filter fun a => rank a == n
  exact (h.eq_of_length hperm.length_eq.symm).symm

/-- What orders a list orders the elements of one rank after sorting. -/
theorem pairwise_stable {R : α → α → Prop} {l : List α} (h : l.Pairwise R) :
    (l.mergeSort fun a b => rank a ≤ rank b).Pairwise
      fun a b => rank a < rank b ∨ (rank a = rank b ∧ R a b) := by
  apply List.pairwise_iff_forall_sublist.mpr
  intro a b hs
  have hle : rank a ≤ rank b := List.pairwise_iff_forall_sublist.mp (pairwise_rank rank l) hs
  by_cases he : rank a = rank b
  · have hf := hs.filter fun x => rank x == rank b
    rw [filter_rank] at hf
    simp only [List.filter_cons, he, BEq.rfl, if_true, List.filter_nil] at hf
    exact Or.inr ⟨he, List.pairwise_iff_forall_sublist.mp h (hf.trans List.filter_sublist)⟩
  · exact Or.inl (lt_of_le_of_ne hle he)

end CodeAtlas.StableSort
