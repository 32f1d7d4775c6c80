import Mathlib.Data.List.Nodup

/-!
The first of a list that has a property. An element is told by its place: what stands before it
lacks the property. Equal elements may stand in a list more than once, the first place counts.
-/

namespace CodeAtlas

variable {α β : Type}

/-- Whether `x` has a property, and nothing that stands before it in the list does. -/
def First (xs : List α) (p : α → Prop) (x : α) : Prop :=
  p x ∧ ∃ before after, xs = before ++ x :: after ∧ ∀ y ∈ before, ¬ p y

namespace First

variable {xs : List α} {p q : α → Prop} {x y : α}

theorem holds (h : First xs p x) : p x := h.1

theorem mem (h : First xs p x) : x ∈ xs := by
  obtain ⟨-, before, after, rfl, -⟩ := h
  exact List.mem_append_right before List.mem_cons_self

theorem not_nil : ¬ First [] p x := fun h => List.not_mem_nil h.mem

theorem cons_iff : First (y :: xs) p x ↔ (p y ∧ x = y) ∨ (¬ p y ∧ First xs p x) := by
  constructor
  · rintro ⟨hx, before, after, he, hbefore⟩
    cases before with
    | nil =>
      obtain ⟨rfl, rfl⟩ := List.cons.inj he
      exact Or.inl ⟨hx, rfl⟩
    | cons z before =>
      obtain ⟨rfl, rfl⟩ := List.cons.inj he
      refine Or.inr ⟨hbefore _ List.mem_cons_self, hx, before, after, rfl, ?_⟩
      exact fun z hz => hbefore z (List.mem_cons_of_mem _ hz)
  · rintro (⟨hy, rfl⟩ | ⟨hy, hx, before, after, rfl, hbefore⟩)
    · exact ⟨hy, [], xs, rfl, fun z hz => absurd hz List.not_mem_nil⟩
    · exact ⟨hx, y :: before, after, rfl, List.forall_mem_cons.mpr ⟨hy, hbefore⟩⟩

theorem find?_eq_some_iff {f : α → Bool} :
    xs.find? f = some x ↔ First xs (fun y => f y = true) x := by
  rw [List.find?_eq_some_iff_append, First]
  simp only [Bool.not_eq_true', Bool.not_eq_true]

theorem exists_iff : (∃ x, First xs p x) ↔ ∃ x ∈ xs, p x := by
  constructor
  · rintro ⟨x, h⟩
    exact ⟨x, h.mem, h.holds⟩
  · rintro ⟨x, hx, hp⟩
    induction xs with
    | nil => exact absurd hx List.not_mem_nil
    | cons z xs ih =>
      by_cases hz : p z
      · exact ⟨z, cons_iff.mpr (Or.inl ⟨hz, rfl⟩)⟩
      · have hx' : x ∈ xs := (List.mem_cons.mp hx).resolve_left fun he => hz (he ▸ hp)
        obtain ⟨y, hy⟩ := ih hx'
        exact ⟨y, cons_iff.mpr (Or.inr ⟨hz, hy⟩)⟩

theorem congr (h : ∀ y ∈ xs, p y ↔ q y) : First xs p x ↔ First xs q x := by
  induction xs with
  | nil => exact iff_of_false not_nil not_nil
  | cons z xs ih =>
    rw [cons_iff, cons_iff, h z List.mem_cons_self, ih fun y hy => h y (List.mem_cons_of_mem z hy)]

theorem append_iff {ys : List α} :
    First (xs ++ ys) p x ↔ First xs p x ∨ ((∀ y ∈ xs, ¬ p y) ∧ First ys p x) := by
  induction xs with
  | nil => simp [not_nil]
  | cons z xs ih =>
    rw [List.cons_append, cons_iff, cons_iff, ih, List.forall_mem_cons]
    tauto

/-- The first among the parts of a list is the first in the first part that has one. -/
theorem flatMap_iff {f : β → List α} {zs : List β} :
    First (zs.flatMap f) p x ↔ ∃ z, First zs (fun z => ∃ y ∈ f z, p y) z ∧ First (f z) p x := by
  induction zs with
  | nil => simp [not_nil]
  | cons z zs ih =>
    rw [List.flatMap_cons, append_iff, ih]
    constructor
    · rintro (h | ⟨hz, z', hz', h⟩)
      · exact ⟨z, cons_iff.mpr (Or.inl ⟨⟨x, h.mem, h.holds⟩, rfl⟩), h⟩
      · refine ⟨z', cons_iff.mpr (Or.inr ⟨?_, hz'⟩), h⟩
        rintro ⟨y, hy, hp⟩
        exact hz y hy hp
    · rintro ⟨z', hz', h⟩
      rcases cons_iff.mp hz' with ⟨-, rfl⟩ | ⟨hz, hz'⟩
      · exact Or.inl h
      · exact Or.inr ⟨fun y hy hp => hz ⟨y, hy, hp⟩, z', hz', h⟩

/-- The first of what a list gives comes from the first of the list that gives one. -/
theorem filterMap_iff {f : β → Option α} {zs : List β} :
    First (zs.filterMap f) p x ↔ ∃ z, First zs (fun z => ∃ y, f z = some y ∧ p y) z ∧
      f z = some x := by
  rw [List.filterMap_eq_flatMap_toList, flatMap_iff]
  simp only [Option.mem_toList]
  constructor
  · rintro ⟨z, hz, h⟩
    exact ⟨z, hz, Option.mem_toList.mp h.mem⟩
  · rintro ⟨z, hz, hx⟩
    obtain ⟨y, hy, hp⟩ := hz.holds
    obtain rfl := Option.some.inj (hx.symm.trans hy)
    exact ⟨z, hz, by rw [hx]; exact cons_iff.mpr (Or.inl ⟨hp, rfl⟩)⟩

theorem filter_iff {f : α → Bool} :
    First (xs.filter f) p x ↔ First xs (fun y => f y = true ∧ p y) x := by
  induction xs with
  | nil => exact iff_of_false not_nil not_nil
  | cons z xs ih =>
    rw [List.filter_cons, cons_iff]
    split
    · rename_i hz
      rw [cons_iff, ih, hz]
      simp only [true_and]
    · rename_i hz
      rw [ih]
      tauto

theorem findSome?_eq_some_iff {f : β → Option α} {zs : List β} :
    zs.findSome? f = some x ↔ ∃ z, First zs (fun z => (f z).isSome = true) z ∧ f z = some x := by
  induction zs with
  | nil => simp [not_nil]
  | cons z zs ih =>
    simp only [List.findSome?_cons, cons_iff]
    cases hz : f z with
    | none =>
      rw [ih]
      simp
    | some y => simp [hz]

end First

/-- Of equal elements the first is left, so that none is repeated. -/
theorem nodup_eraseDups [BEq α] [LawfulBEq α] (l : List α) : l.eraseDups.Nodup := by
  induction h : l.length using Nat.strongRecOn generalizing l with
  | ind n ih =>
    cases l with
    | nil => exact List.nodup_nil
    | cons a rest =>
      rw [List.eraseDups_cons, List.nodup_cons]
      have hlen : (rest.filter fun b => !b == a).length < n := by
        have := List.length_filter_le (fun b => !b == a) rest
        simp only [List.length_cons] at h
        omega
      refine ⟨?_, ih _ hlen _ rfl⟩
      rw [List.mem_eraseDups, List.mem_filter]
      simp

/-- Where no element is repeated, the first place of an element is its only one. -/
theorem idxOf?_of_nodup [BEq α] [LawfulBEq α] {xs : List α} (hn : xs.Nodup) {x : α} {v : Nat} :
    xs.idxOf? x = some v ↔ xs[v]? = some x := by
  rw [List.idxOf?_eq_some_iff, List.getElem?_eq_some_iff]
  constructor
  · rintro ⟨hv, he, -⟩
    exact ⟨hv, he⟩
  · rintro ⟨hv, he⟩
    refine ⟨hv, he, fun j hj hsame => ?_⟩
    have hjv := hn.getElem_inj_iff.mp (hsame.trans he.symm)
    omega

end CodeAtlas
