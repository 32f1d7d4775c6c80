import CodeAtlas.Retrieval.Expansion

/-!
The distance of a node from some seeds, over dependencies that are followed in both directions.
-/

namespace CodeAtlas.Retrieval

open Expanded

/-- What can be met in so many steps: a step goes from a node to the other end of one of its
dependencies. -/
inductive Reached (links : String → List Dependency) (seeds : List String) :
    Nat → String → Prop where
  | seed {v : String} : v ∈ seeds → Reached links seeds 0 v
  | step {n : Nat} {v : String} {d : Dependency} :
      Reached links seeds n v → d ∈ links v → Reached links seeds (n + 1) (otherEnd v d)

/-- The least number of steps in which a node can be met. -/
def IsDistance (links : String → List Dependency) (seeds : List String) (v : String) (n : Nat) :
    Prop :=
  Reached links seeds n v ∧ ∀ m, m < n → ¬ Reached links seeds m v

section Distance

variable {links : String → List Dependency} {seeds : List String} {v : String} {m n : Nat}

theorem Reached.distance (h : Reached links seeds n v) :
    ∃ m, m ≤ n ∧ IsDistance links seeds v m := by
  induction n using Nat.strongRecOn with
  | ind n ih =>
    by_cases hm : ∃ m, m < n ∧ Reached links seeds m v
    · obtain ⟨m, hmn, hr⟩ := hm
      obtain ⟨k, hkm, hk⟩ := ih m hmn hr
      exact ⟨k, by omega, hk⟩
    · exact ⟨n, Nat.le_refl n, h, fun m hmn hr => hm ⟨m, hmn, hr⟩⟩

theorem IsDistance.unique (hm : IsDistance links seeds v m) (hn : IsDistance links seeds v n) :
    m = n := by
  rcases Nat.lt_trichotomy m n with h | h | h
  · exact absurd hm.1 (hn.2 m h)
  · exact h
  · exact absurd hn.1 (hm.2 n h)

theorem isDistance_zero : IsDistance links seeds v 0 ↔ v ∈ seeds := by
  constructor
  · rintro ⟨h, -⟩
    cases h with
    | seed hv => exact hv
  · intro hv
    exact ⟨.seed hv, fun m hm => absurd hm (Nat.not_lt_zero m)⟩

theorem isDistance_succ :
    IsDistance links seeds v (n + 1) ↔
      (∃ u, IsDistance links seeds u n ∧ ∃ d ∈ links u, otherEnd u d = v) ∧
        ∀ m, m ≤ n → ¬ IsDistance links seeds v m := by
  constructor
  · rintro ⟨h, hleast⟩
    have hnot : ∀ m, m ≤ n → ¬ IsDistance links seeds v m :=
      fun m hm hv => hleast m (by omega) hv.1
    cases h with
    | @step _ u d hu hd =>
      obtain ⟨k, hkn, hk⟩ := hu.distance
      -- a shorter way to the node before would be a shorter way to this one
      rcases Nat.lt_or_eq_of_le hkn with hlt | rfl
      · exact absurd (Reached.step hk.1 hd) (hleast (k + 1) (by omega))
      · exact ⟨⟨u, hk, d, hd, rfl⟩, hnot⟩
  · rintro ⟨⟨u, hu, d, hd, rfl⟩, hnot⟩
    refine ⟨.step hu.1 hd, fun m hm hr => ?_⟩
    obtain ⟨k, hkm, hk⟩ := hr.distance
    exact hnot k (by omega) hk

/-- Where no node has a distance, none has a greater one. -/
theorem not_isDistance_of_le (h : ∀ v, ¬ IsDistance links seeds v m) (hmn : m ≤ n) :
    ¬ IsDistance links seeds v n := by
  induction n generalizing v with
  | zero =>
    obtain rfl : m = 0 := by omega
    exact h v
  | succ n ih =>
    rcases Nat.lt_or_eq_of_le hmn with hlt | rfl
    · intro hv
      obtain ⟨⟨u, hu, -⟩, -⟩ := isDistance_succ.mp hv
      exact ih (by omega) hu
    · exact h v

end Distance

end CodeAtlas.Retrieval
