import Mathlib.Data.List.Nodup
import CodeAtlas.Keyed
import CodeAtlas.Proofs.First

/-!
Lists whose elements are told apart by a key. Where repetitions are left out, the keys that are left
are the keys of the list, each once, and each stands for the first element that has it.
-/

namespace CodeAtlas

variable {α κ : Type} [BEq κ] {key : α → κ} {seen : List κ} {x : α} {xs : List α}

theorem idAt_eq (id : α → String) {i : Nat} (h : xs[i]? = some x) : idAt id xs i = id x := by
  rw [idAt, h]
  rfl

theorem distinctBy_sublist (xs : List α) (seen : List κ) : (distinctBy key seen xs).Sublist xs := by
  induction xs generalizing seen with
  | nil => exact .slnil
  | cons x rest ih =>
    unfold distinctBy
    split
    · exact (ih seen).cons x
    · exact (ih (key x :: seen)).cons_cons x

variable [LawfulBEq κ]

theorem distinctBy_cons_of_mem (h : key x ∈ seen) :
    distinctBy key seen (x :: xs) = distinctBy key seen xs := by
  rw [distinctBy, if_pos (by simpa using h)]

theorem distinctBy_cons_of_not_mem (h : key x ∉ seen) :
    distinctBy key seen (x :: xs) = x :: distinctBy key (key x :: seen) xs := by
  rw [distinctBy, if_neg (by simpa using h)]

/-- An element is kept where it is the first of its key. -/
theorem mem_distinctBy_iff :
    x ∈ distinctBy key seen xs ↔ key x ∉ seen ∧ First xs (fun y => key y = key x) x := by
  induction xs generalizing seen with
  | nil => simp [distinctBy, First.not_nil]
  | cons y rest ih =>
    by_cases hy : key y ∈ seen
    · -- an element that is left out shares its key with none that is kept
      rw [distinctBy_cons_of_mem hy, ih, First.cons_iff]
      have hkey : key x ∉ seen → key y ≠ key x := fun hx he => hx (he ▸ hy)
      tauto
    · rw [distinctBy_cons_of_not_mem hy, List.mem_cons, ih, First.cons_iff, List.mem_cons, not_or]
      constructor
      · rintro (rfl | ⟨⟨hk, hx⟩, h⟩)
        · exact ⟨hy, Or.inl ⟨rfl, rfl⟩⟩
        · exact ⟨hx, Or.inr ⟨Ne.symm hk, h⟩⟩
      · rintro ⟨hx, ⟨-, rfl⟩ | ⟨hk, h⟩⟩
        · exact Or.inl rfl
        · exact Or.inr ⟨⟨Ne.symm hk, hx⟩, h⟩

theorem not_seen_of_mem_distinctBy (h : x ∈ distinctBy key seen xs) : key x ∉ seen :=
  (mem_distinctBy_iff.mp h).1

theorem nodup_distinctBy (xs : List α) (seen : List κ) :
    ((distinctBy key seen xs).map key).Nodup := by
  induction xs generalizing seen with
  | nil => exact List.nodup_nil
  | cons x rest ih =>
    unfold distinctBy
    split
    · exact ih seen
    · rw [List.map_cons, List.nodup_cons]
      refine ⟨fun hm => ?_, ih (key x :: seen)⟩
      obtain ⟨y, hy, he⟩ := List.mem_map.mp hm
      exact not_seen_of_mem_distinctBy hy (he ▸ List.mem_cons_self)

theorem map_distinctBy (xs : List α) (seen : List κ) :
    (distinctBy key seen xs).map key =
      ((xs.map key).filter fun k => !seen.contains k).eraseDups := by
  induction xs generalizing seen with
  | nil => rfl
  | cons x rest ih =>
    by_cases hx : key x ∈ seen
    · rw [distinctBy_cons_of_mem hx, List.map_cons, List.filter_cons_of_neg (by simpa using hx), ih]
    · rw [distinctBy_cons_of_not_mem hx, List.map_cons, List.map_cons, List.filter_cons_of_pos
        (by simpa using hx), List.eraseDups_cons, ih, List.filter_filter]
      apply congrArg fun keys => key x :: List.eraseDups keys
      apply List.filter_congr
      intro k _
      rw [Bool.eq_iff_iff]
      simp [List.mem_cons]

theorem map_distinctBy_nil (xs : List α) :
    (distinctBy key [] xs).map key = (xs.map key).eraseDups := by
  rw [map_distinctBy, List.filter_eq_self.mpr (by simp)]

theorem mem_map_distinctBy {k : κ} : k ∈ (distinctBy key seen xs).map key ↔
    k ∈ xs.map key ∧ k ∉ seen := by
  rw [map_distinctBy, List.mem_eraseDups, List.mem_filter]
  simp

theorem exists_mem_distinctBy (hx : x ∈ xs) (hs : key x ∉ seen) :
    ∃ y ∈ distinctBy key seen xs, key y = key x :=
  List.mem_map.mp (mem_map_distinctBy.mpr ⟨List.mem_map_of_mem hx, hs⟩)

theorem find?_of_mem_distinctBy (h : x ∈ distinctBy key seen xs) :
    xs.find? (fun y => key y == key x) = some x := by
  rw [First.find?_eq_some_iff]
  simpa only [beq_iff_eq] using (mem_distinctBy_iff.mp h).2

/-- The keys without repetitions, each with the first element that has it. -/
theorem distinctBy_eq_firsts (xs : List α) :
    distinctBy key [] xs = (xs.map key).eraseDups.filterMap fun k => xs.find? fun y =>
      key y == k := by
  have hfirst : ∀ x ∈ distinctBy key [] xs, ((fun k => xs.find? fun y => key y == k) ∘ key) x =
      some x :=
    fun x hx => find?_of_mem_distinctBy hx
  rw [← map_distinctBy_nil, List.filterMap_map, List.filterMap_congr hfirst]
  exact List.filterMap_some.symm

theorem distinctBy_append (xs ys : List α) (seen : List κ) :
    ∃ later : List κ, distinctBy key seen (xs ++ ys) =
      distinctBy key seen xs ++ distinctBy key later ys ∧
      ∀ k, k ∈ later ↔ k ∈ seen ∨ k ∈ xs.map key := by
  induction xs generalizing seen with
  | nil => exact ⟨seen, rfl, by simp⟩
  | cons x xs ih =>
    rw [List.cons_append]
    by_cases hx : key x ∈ seen
    · obtain ⟨later, he, hl⟩ := ih seen
      rw [distinctBy_cons_of_mem hx, distinctBy_cons_of_mem hx]
      refine ⟨later, he, fun k => ?_⟩
      rw [hl, List.map_cons, List.mem_cons]
      constructor
      · exact fun h => h.imp_right Or.inr
      · rintro (h | rfl | h)
        · exact Or.inl h
        · exact Or.inl hx
        · exact Or.inr h
    · obtain ⟨later, he, hl⟩ := ih (key x :: seen)
      rw [distinctBy_cons_of_not_mem hx, distinctBy_cons_of_not_mem hx]
      refine ⟨later, congrArg (x :: ·) he, fun k => ?_⟩
      rw [hl, List.map_cons, List.mem_cons, List.mem_cons]
      tauto

theorem distinctBy_append_of_mem {ys : List α} (h : ∀ y ∈ ys, key y ∈ xs.map key) :
    distinctBy key seen (xs ++ ys) = distinctBy key seen xs := by
  obtain ⟨later, he, hl⟩ := distinctBy_append xs ys seen
  have hnone : distinctBy key later ys = [] := by
    apply List.eq_nil_iff_forall_not_mem.mpr
    intro y hy
    have hys := (distinctBy_sublist ys later).subset hy
    exact not_seen_of_mem_distinctBy hy ((hl (key y)).mpr (Or.inr (h y hys)))
  rw [he, hnone, List.append_nil]

/-- What is kept stands in the order in which the keys come up. -/
theorem pairwise_distinctBy (xs : List α) (seen : List κ) :
    (distinctBy key seen xs).Pairwise fun x y =>
      (xs.map key).idxOf (key x) < (xs.map key).idxOf (key y) := by
  induction xs generalizing seen with
  | nil => exact List.Pairwise.nil
  | cons x rest ih =>
    have hrest : ∀ seen : List κ, key x ∈ seen → (distinctBy key seen rest).Pairwise
        fun y z => ((x :: rest).map key).idxOf (key y) < ((x :: rest).map key).idxOf (key z) := by
      intro seen hs
      apply (ih seen).imp_of_mem
      intro y z hy hz hyz
      have hne : ∀ w ∈ distinctBy key seen rest, key x ≠ key w :=
        fun w hw hxw => not_seen_of_mem_distinctBy hw (hxw ▸ hs)
      rw [List.map_cons, List.idxOf_cons_ne _ (hne y hy), List.idxOf_cons_ne _ (hne z hz)]
      exact Nat.succ_lt_succ hyz
    by_cases hx : key x ∈ seen
    · rw [distinctBy_cons_of_mem hx]
      exact hrest seen hx
    · rw [distinctBy_cons_of_not_mem hx]
      refine List.pairwise_cons.mpr ⟨?_, hrest (key x :: seen) List.mem_cons_self⟩
      intro y hy
      have hne : key x ≠ key y := fun he => not_seen_of_mem_distinctBy hy (he ▸ List.mem_cons_self)
      rw [List.map_cons, List.idxOf_cons_self, List.idxOf_cons_ne _ hne]
      exact Nat.succ_pos _

/-- Elements with distinct keys are all kept. -/
theorem distinctBy_eq_self (h : (xs.map key).Nodup) (hs : ∀ x ∈ xs, key x ∉ seen) :
    distinctBy key seen xs = xs := by
  induction xs generalizing seen with
  | nil => rfl
  | cons x rest ih =>
    rw [List.map_cons, List.nodup_cons] at h
    rw [distinctBy_cons_of_not_mem (hs x List.mem_cons_self), ih h.2]
    intro y hy hm
    rcases List.mem_cons.mp hm with he | hm
    · exact h.1 (List.mem_map.mpr ⟨y, hy, he⟩)
    · exact hs y (List.mem_cons_of_mem x hy) hm

theorem distinctBy_congr {other : List κ} (h : ∀ x ∈ xs, key x ∈ seen ↔ key x ∈ other) :
    distinctBy key seen xs = distinctBy key other xs := by
  induction xs generalizing seen other with
  | nil => rfl
  | cons x rest ih =>
    have hx : key x ∈ seen ↔ key x ∈ other := h x List.mem_cons_self
    have hr : ∀ y ∈ rest, key y ∈ seen ↔ key y ∈ other :=
      fun y hy => h y (List.mem_cons_of_mem x hy)
    unfold distinctBy
    simp only [List.contains_eq_mem, hx]
    split
    · exact ih hr
    · apply congrArg (x :: ·)
      apply ih
      intro y hy
      rw [List.mem_cons, List.mem_cons, hr y hy]

/-- Keeping the first of each key and choosing by key can be done in either order. -/
theorem filter_distinctBy {p : α → Bool} (hp : ∀ x y, key x = key y → p x = p y) (xs : List α) :
    (distinctBy key seen xs).filter p = distinctBy key seen (xs.filter p) := by
  induction xs generalizing seen with
  | nil => rfl
  | cons x rest ih =>
    by_cases hpx : p x
    · rw [List.filter_cons_of_pos hpx, distinctBy, distinctBy]
      split
      · exact ih
      · rw [List.filter_cons_of_pos hpx, ih]
    · rw [List.filter_cons_of_neg hpx, distinctBy]
      split
      · exact ih
      · rw [List.filter_cons_of_neg hpx, ih]
        -- the key of an element that is left out is no key of the others
        apply distinctBy_congr
        intro y hy
        have hne : key y ≠ key x := by
          intro hk
          exact hpx (hp y x hk ▸ (List.mem_filter.mp hy).2)
        simp [hne]

end CodeAtlas
