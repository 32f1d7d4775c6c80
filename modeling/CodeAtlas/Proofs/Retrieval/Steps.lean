import Mathlib.Data.List.Nodup
import CodeAtlas.Retrieval.Expansion

/-!
The steps an expansion keeps: of those between two nodes the heaviest, whatever the order they are
met in.
-/

namespace CodeAtlas.Retrieval

open Expanded

def stepOf (d : Dependency) : Step := ⟨d.source, d.target, d.relationship⟩

def Step.ends (s : Step) : String × String := (s.source, s.target)

theorem tenths_inj {r r' : Relationship} (h : r.tenths = r'.tenths) : r = r' := by
  cases r <;> cases r' <;> first | rfl | exact absurd h (by decide)

/-- What is kept of the steps that were met: between two ends the heaviest, once. -/
structure Heaviest (met kept : List Step) : Prop where
  distinct : (kept.map Step.ends).Nodup
  covered : ∀ t ∈ met, ∃ s ∈ kept, s.ends = t.ends
  heaviest : ∀ s ∈ kept, s ∈ met ∧
    ∀ t ∈ met, t.ends = s.ends → t.relationship.tenths ≤ s.relationship.tenths

theorem addStep_cons (t s : Step) (rest : List Step) :
    addStep t (s :: rest) =
      if s.ends = t.ends then
        (if s.relationship.tenths < t.relationship.tenths then t else s) :: rest
      else s :: addStep t rest := by
  rw [addStep]
  by_cases h : s.ends = t.ends
  · have he : s.source = t.source ∧ s.target = t.target := Prod.mk.inj h
    rw [if_pos h, if_pos (by simp [he])]
  · have he : ¬ (s.source = t.source ∧ s.target = t.target) :=
      fun he => h (Prod.ext he.1 he.2)
    rw [if_neg h, if_neg (by simpa using he)]

theorem ends_addStep (t : Step) (kept : List Step) :
    (addStep t kept).map Step.ends =
      if t.ends ∈ kept.map Step.ends then kept.map Step.ends
          else kept.map Step.ends ++ [t.ends] := by
  induction kept with
  | nil => rfl
  | cons s rest ih =>
    rw [addStep_cons]
    by_cases h : s.ends = t.ends
    · have hm : t.ends ∈ s.ends :: rest.map Step.ends := by
        rw [h]
        exact List.mem_cons_self
      rw [if_pos h, List.map_cons, List.map_cons, if_pos hm]
      split
      · rw [h]
      · rfl
    · rw [if_neg h, List.map_cons, List.map_cons, ih]
      by_cases hm : t.ends ∈ rest.map Step.ends
      · rw [if_pos hm, if_pos (List.mem_cons_of_mem _ hm)]
      · have hc : t.ends ∉ s.ends :: rest.map Step.ends := by
          rw [List.mem_cons, not_or]
          exact ⟨Ne.symm h, hm⟩
        rw [if_neg hm, if_neg hc, List.cons_append]

theorem nodup_ends_addStep {kept : List Step} (hd : (kept.map Step.ends).Nodup) (t : Step) :
    ((addStep t kept).map Step.ends).Nodup := by
  rw [ends_addStep]
  split
  · exact hd
  · rename_i ht
    apply List.nodup_append.mpr
    refine ⟨hd, List.nodup_singleton _, ?_⟩
    rintro a ha b hb rfl
    exact ht (List.mem_singleton.mp hb ▸ ha)

theorem mem_addStep {t s : Step} {kept : List Step} (hd : (kept.map Step.ends).Nodup)
    (h : s ∈ addStep t kept) :
    (s = t ∧ ∀ u ∈ kept, u.ends = t.ends → u.relationship.tenths < t.relationship.tenths) ∨
      (s ∈ kept ∧ (s.ends = t.ends → t.relationship.tenths ≤ s.relationship.tenths)) := by
  induction kept with
  | nil =>
    obtain rfl := List.mem_singleton.mp h
    exact Or.inl ⟨rfl, by simp⟩
  | cons u rest ih =>
    rw [List.map_cons, List.nodup_cons] at hd
    rw [addStep_cons] at h
    by_cases hu : u.ends = t.ends
    · have hrest : ∀ r ∈ rest, r.ends ≠ t.ends :=
        fun r hr he => hd.1 (hu ▸ he ▸ List.mem_map_of_mem hr)
      rw [if_pos hu] at h
      rcases List.mem_cons.mp h with h | h
      · split at h
        · rename_i hlt
          subst h
          refine Or.inl ⟨rfl, fun r hr he => ?_⟩
          rcases List.mem_cons.mp hr with rfl | hr
          · exact hlt
          · exact absurd he (hrest r hr)
        · rename_i hge
          subst h
          exact Or.inr ⟨List.mem_cons_self, fun _ => by omega⟩
      · exact Or.inr ⟨List.mem_cons_of_mem u h, fun he => absurd he (hrest s h)⟩
    · rw [if_neg hu] at h
      rcases List.mem_cons.mp h with rfl | h
      · exact Or.inr ⟨List.mem_cons_self, fun he => absurd he hu⟩
      · rcases ih hd.2 h with ⟨he, hl⟩ | ⟨hs, hl⟩
        · refine Or.inl ⟨he, fun r hr hre => ?_⟩
          rcases List.mem_cons.mp hr with rfl | hr
          · exact absurd hre hu
          · exact hl r hr hre
        · exact Or.inr ⟨List.mem_cons_of_mem u hs, hl⟩

theorem heaviest_nil : Heaviest [] [] := ⟨List.nodup_nil, by simp, by simp⟩

theorem Heaviest.addStep {met kept : List Step} (h : Heaviest met kept) (t : Step) :
    Heaviest (met ++ [t]) (addStep t kept) := by
  have hends : ∀ e, e ∈ (Expanded.addStep t kept).map Step.ends ↔ e ∈ kept.map Step.ends ∨
      e = t.ends := by
    intro e
    rw [ends_addStep]
    split
    · rename_i ht
      constructor
      · exact Or.inl
      · rintro (he | rfl)
        · exact he
        · exact ht
    · rw [List.mem_append, List.mem_singleton]
  constructor
  · exact nodup_ends_addStep h.distinct t
  · intro r hr
    apply List.mem_map.mp
    apply (hends r.ends).mpr
    rcases List.mem_append.mp hr with hr | hr
    · obtain ⟨s, hs, he⟩ := h.covered r hr
      exact Or.inl (List.mem_map.mpr ⟨s, hs, he⟩)
    · exact Or.inr (congrArg Step.ends (List.mem_singleton.mp hr))
  · intro s hs
    rcases mem_addStep h.distinct hs with ⟨rfl, hl⟩ | ⟨hk, hl⟩
    · refine ⟨by simp, fun r hr he => ?_⟩
      rcases List.mem_append.mp hr with hr | hr
      · -- what is kept between the same ends is lighter than the new step
        obtain ⟨u, hu, hue⟩ := h.covered r hr
        have hru := (h.heaviest u hu).2 r hr hue.symm
        have hus := hl u hu (hue.trans he)
        omega
      · obtain rfl := List.mem_singleton.mp hr
        exact Nat.le_refl _
    · obtain ⟨hm, hh⟩ := h.heaviest s hk
      refine ⟨List.mem_append_left _ hm, fun r hr he => ?_⟩
      rcases List.mem_append.mp hr with hr | hr
      · exact hh r hr he
      · obtain rfl := List.mem_singleton.mp hr
        exact hl he.symm

theorem Heaviest.foldl {met kept : List Step} (h : Heaviest met kept) (ts : List Step) :
    Heaviest (met ++ ts) (ts.foldl (fun kept t => Expanded.addStep t kept) kept) := by
  induction ts generalizing met kept with
  | nil => simpa using h
  | cons t ts ih =>
    rw [List.foldl_cons, List.append_cons]
    exact ih (h.addStep t)

/-- Between two ends the heaviest step is unique, so the order in which steps are met does not
matter. -/
theorem Heaviest.mem_iff {met kept : List Step} (h : Heaviest met kept) {s : Step} :
    s ∈ kept ↔ s ∈ met ∧ ∀ t ∈ met, t.ends = s.ends →
      t.relationship.tenths ≤ s.relationship.tenths := by
  constructor
  · exact h.heaviest s
  · rintro ⟨hs, hh⟩
    obtain ⟨u, hu, hue⟩ := h.covered s hs
    have hus := (h.heaviest u hu).2 s hs hue.symm
    have hsu := hh u (h.heaviest u hu).1 hue
    have hr : u.relationship = s.relationship := tenths_inj (by omega)
    obtain ⟨hsource, htarget⟩ := Prod.mk.inj hue
    cases u
    cases s
    simp_all

end CodeAtlas.Retrieval
