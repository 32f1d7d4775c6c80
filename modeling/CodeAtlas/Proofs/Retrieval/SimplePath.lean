import CodeAtlas.Retrieval.SimplePath
import Mathlib.Data.List.Chain
import Mathlib.Data.List.Nodup
import Mathlib.Data.Set.Card

/-!
Simple paths. The depth-first listing is complete: with a limit it lists the first of all the simple
paths between two nodes that have no more than so many nodes inside, each of them once.
-/

namespace CodeAtlas.Retrieval

/-- A walk from one node to another that meets no node twice. -/
structure IsSimplePath (leads : Nat → Nat → Prop) (start goal : Nat) (p : List Nat) : Prop where
  starts : p.head? = some start
  ends : p.getLast? = some goal
  walk : p.IsChain leads
  nodup : p.Nodup

/-- A search that lists the simple paths with no more than so many nodes inside, each of them once,
up to a limit. -/
def ListsSimplePaths (leads : Nat → Nat → Prop)
    (search : (inner limit start goal : Nat) → List (List Nat)) : Prop :=
  ∀ inner start goal, start ≠ goal → ∃ all : List (List Nat), all.Nodup ∧
    (∀ p, p ∈ all ↔ IsSimplePath leads start goal p ∧ p.length ≤ inner + 2) ∧
    ∀ limit, search inner limit start goal = all.take limit

section Search

variable {leads : Nat → Nat → Prop} {search : (inner limit start goal : Nat) → List (List Nat)}
  {inner limit start goal : Nat} {p : List Nat}

theorem IsSimplePath.ne_nil (h : IsSimplePath leads start goal p) : p ≠ [] := by
  rintro rfl
  exact absurd h.starts nofun

theorem IsSimplePath.exists_step (h : IsSimplePath leads start goal p) (hne : start ≠ goal) :
    2 ≤ p.length ∧ ∃ v, leads start v := by
  obtain ⟨way, rfl⟩ := List.head?_eq_some_iff.mp h.starts
  cases way with
  | nil => exact absurd (Option.some.inj h.ends) hne
  | cons v rest => exact ⟨Nat.le_add_left 2 rest.length, v, (List.isChain_cons_cons.mp h.walk).1⟩

theorem ListsSimplePaths.mem (h : ListsSimplePaths leads search) (hne : start ≠ goal)
    (hp : p ∈ search inner limit start goal) :
    IsSimplePath leads start goal p ∧ p.length ≤ inner + 2 := by
  obtain ⟨all, -, hall, htake⟩ := h inner start goal hne
  rw [htake] at hp
  exact (hall p).mp (List.mem_of_mem_take hp)

theorem ListsSimplePaths.length_le (h : ListsSimplePaths leads search) (hne : start ≠ goal) :
    (search inner limit start goal).length ≤ limit := by
  obtain ⟨all, -, -, htake⟩ := h inner start goal hne
  rw [htake]
  exact List.length_take_le limit all

theorem ListsSimplePaths.nodup (h : ListsSimplePaths leads search) (hne : start ≠ goal) :
    (search inner limit start goal).Nodup := by
  obtain ⟨all, hn, -, htake⟩ := h inner start goal hne
  rw [htake]
  exact hn.sublist (List.take_sublist limit all)

/-- Where there are no more paths than are wanted, the search finds all of them. -/
theorem ListsSimplePaths.complete (h : ListsSimplePaths leads search) (hne : start ≠ goal)
    (hfew : {p | IsSimplePath leads start goal p ∧ p.length ≤ inner + 2}.encard ≤ limit)
    (hp : IsSimplePath leads start goal p) (hshort : p.length ≤ inner + 2) :
    p ∈ search inner limit start goal := by
  obtain ⟨all, hn, hall, htake⟩ := h inner start goal hne
  have hset : {p | IsSimplePath leads start goal p ∧ p.length ≤ inner + 2} = ↑all.toFinset := by
    ext p
    rw [List.coe_toFinset]
    exact (hall p).symm
  rw [hset, Set.encard_coe_eq_coe_finsetCard, List.toFinset_card_of_nodup hn, Nat.cast_le] at hfew
  rw [htake, List.take_of_length_le hfew]
  exact (hall p).mpr ⟨hp, hshort⟩

end Search

namespace SimplePath

def allOnwards (steps : Nat → List Nat) (goal : Nat) :
    (inner : Nat) → (path : List Nat) → (v : Nat) → List (List Nat)
  | 0, path, v => if (steps v).contains goal then [(goal :: path).reverse] else []
  | inner + 1, path, v =>
    (steps v).flatMap fun w =>
      if w == goal then [(goal :: path).reverse]
      else if path.contains w then []
      else allOnwards steps goal inner (w :: path) w

section Limit

theorem gather_eq_take {α β : Type} {search : Nat → α → List β} {all : α → List β}
    (h : ∀ limit a, search (limit + 1) a = (all a).take (limit + 1)) (limit : Nat) (as : List α) :
    gather search limit as = (as.flatMap all).take limit := by
  induction as generalizing limit with
  | nil => cases limit <;> rfl
  | cons a as ih =>
    cases limit with
    | zero => rfl
    | succ limit =>
      rw [gather, h, ih, List.flatMap_cons, List.take_append, List.length_take]
      congr 2
      omega

theorem onwards_eq_take (steps : Nat → List Nat) (goal inner limit : Nat)
    (path : List Nat) (v : Nat) :
    onwards steps goal inner limit path v = (allOnwards steps goal inner path v).take limit := by
  induction inner generalizing limit path v with
  | zero =>
    rw [onwards, allOnwards]
    split
    · rfl
    · rw [List.take_nil]
  | succ inner ih =>
    rw [onwards, allOnwards]
    apply gather_eq_take
    intro limit w
    split
    · exact (List.take_of_length_le (Nat.le_add_left 1 limit)).symm
    · split
      · rfl
      · exact ih (limit + 1) (w :: path) w

end Limit

/-- The nodes of a way that goes on to `goal` from the last node `v` of a path that it does not meet
again, through at most `inner` more nodes. -/
structure Way (steps : Nat → List Nat) (goal inner : Nat) (path : List Nat) (v : Nat)
    (way : List Nat) : Prop where
  walk : (v :: way).IsChain fun a b => b ∈ steps a
  ends : way.getLast? = some goal
  nodup : way.Nodup
  fresh : ∀ w ∈ way, w ∉ path
  short : way.length ≤ inner + 1

section Listing

variable {steps : Nat → List Nat} {goal inner v : Nat} {path : List Nat}

theorem Way.ne_nil {way : List Nat} (h : Way steps goal inner path v way) : way ≠ [] := by
  rintro rfl
  exact absurd h.ends nofun

/-- A way is done at its goal, and otherwise goes on from its first node. -/
theorem way_cons {w : Nat} {rest : List Nat} (hgoal : goal ∉ path) :
    Way steps goal (inner + 1) path v (w :: rest) ↔
      w ∈ steps v ∧ (w = goal ∧ rest = [] ∨ w ≠ goal ∧ w ∉ path ∧
          Way steps goal inner (w :: path) w rest) := by
  constructor
  · rintro ⟨hwalk, hends, hnodup, hfresh, hshort⟩
    obtain ⟨hstep, hwalk⟩ := List.isChain_cons_cons.mp hwalk
    obtain ⟨hw, hrest⟩ := List.nodup_cons.mp hnodup
    refine ⟨hstep, ?_⟩
    cases rest with
    | nil => exact .inl ⟨Option.some.inj hends, rfl⟩
    | cons u rest =>
      rw [List.getLast?_cons_cons] at hends
      have hmem := List.mem_of_getLast? hends
      refine .inr ⟨fun h => hw (h ▸ hmem), hfresh w List.mem_cons_self, hwalk, hends, hrest, ?_,
        Nat.le_of_succ_le_succ hshort⟩
      intro u' hu'
      rw [List.mem_cons, not_or]
      exact ⟨fun h => hw (h ▸ hu'), hfresh u' (List.mem_cons_of_mem w hu')⟩
  · rintro ⟨hstep, ⟨rfl, rfl⟩ | ⟨hne, hnew, h⟩⟩
    · refine ⟨List.isChain_cons_cons.mpr ⟨hstep, List.isChain_singleton w⟩, rfl,
        List.nodup_singleton w, ?_, ?_⟩
      · intro u hu
        rwa [List.mem_singleton.mp hu]
      · exact Nat.le_add_left 1 (inner + 1)
    · refine ⟨List.isChain_cons_cons.mpr ⟨hstep, h.walk⟩, ?_, List.nodup_cons.mpr ⟨?_, h.nodup⟩, ?_,
        Nat.succ_le_succ h.short⟩
      · obtain ⟨u, rest, rfl⟩ := List.exists_cons_of_ne_nil h.ne_nil
        rw [List.getLast?_cons_cons, h.ends]
      · exact fun hw => h.fresh w hw List.mem_cons_self
      · intro u hu
        rcases List.mem_cons.mp hu with rfl | hu
        · exact hnew
        · exact fun hpath => h.fresh u hu (List.mem_cons_of_mem w hpath)

theorem way_zero {way : List Nat} (hgoal : goal ∉ path) :
    Way steps goal 0 path v way ↔ goal ∈ steps v ∧ way = [goal] := by
  constructor
  · intro h
    obtain ⟨w, rest, rfl⟩ := List.exists_cons_of_ne_nil h.ne_nil
    have hrest : rest = [] :=
      List.length_eq_zero_iff.mp (Nat.le_zero.mp (Nat.le_of_succ_le_succ h.short))
    subst hrest
    obtain rfl := Option.some.inj h.ends
    exact ⟨(List.isChain_cons_cons.mp h.walk).1, rfl⟩
  · rintro ⟨hstep, rfl⟩
    refine ⟨List.isChain_cons_cons.mpr ⟨hstep, List.isChain_singleton goal⟩, rfl,
      List.nodup_singleton goal, ?_, Nat.le_refl 1⟩
    intro u hu
    rwa [List.mem_singleton.mp hu]

/-- The paths that are listed for a next node `w`. -/
theorem mem_branch {w : Nat} {p : List Nat} {rest : List (List Nat)} :
    (p ∈ if w == goal then [(goal :: path).reverse] else if path.contains w then [] else rest) ↔
      w = goal ∧ p = path.reverse ++ [w] ∨ w ≠ goal ∧ w ∉ path ∧ p ∈ rest := by
  by_cases hw : w = goal
  · simp [hw]
  · by_cases hp : w ∈ path <;> simp [hw, hp]

theorem mem_allOnwards (hgoal : goal ∉ path) {p : List Nat} :
    p ∈ allOnwards steps goal inner path v ↔ ∃ way, p = path.reverse ++ way ∧
      Way steps goal inner path v way := by
  induction inner generalizing path v with
  | zero =>
    simp only [allOnwards, way_zero hgoal]
    split <;> simp_all
  | succ inner ih =>
    simp only [allOnwards, List.mem_flatMap, mem_branch]
    constructor
    · rintro ⟨w, hw, ⟨rfl, rfl⟩ | ⟨hne, hnew, hp⟩⟩
      · exact ⟨[w], rfl, (way_cons hgoal).mpr ⟨hw, .inl ⟨rfl, rfl⟩⟩⟩
      · obtain ⟨rest, rfl, hrest⟩ := (ih (List.not_mem_cons_of_ne_of_not_mem hne.symm hgoal)).mp hp
        refine ⟨w :: rest, ?_, (way_cons hgoal).mpr ⟨hw, .inr ⟨hne, hnew, hrest⟩⟩⟩
        rw [List.reverse_cons, List.append_assoc, List.singleton_append]
    · rintro ⟨way, rfl, hway⟩
      obtain ⟨w, rest, rfl⟩ := List.exists_cons_of_ne_nil hway.ne_nil
      obtain ⟨hw, ⟨rfl, rfl⟩ | ⟨hne, hnew, hrest⟩⟩ := (way_cons hgoal).mp hway
      · exact ⟨w, hw, .inl ⟨rfl, rfl⟩⟩
      · refine ⟨w, hw, .inr ⟨hne, hnew, (ih (List.not_mem_cons_of_ne_of_not_mem hne.symm hgoal)).mpr
          ⟨rest, ?_, hrest⟩⟩⟩
        rw [List.reverse_cons, List.append_assoc, List.singleton_append]

theorem next_of_mem (hgoal : goal ∉ path) {w : Nat} {p : List Nat}
    (hp : p ∈ if w == goal then [(goal :: path).reverse] else if path.contains w then []
      else allOnwards steps goal inner (w :: path) w) : p[path.length]? = some w := by
  rcases mem_branch.mp hp with ⟨-, rfl⟩ | ⟨hne, -, hp⟩
  · simp
  · obtain ⟨way, rfl, -⟩ :=
      (mem_allOnwards (List.not_mem_cons_of_ne_of_not_mem hne.symm hgoal)).mp hp
    simp

/-- No path is listed twice where no step is. -/
theorem nodup_allOnwards (hsteps : ∀ v, (steps v).Nodup) (hgoal : goal ∉ path) :
    (allOnwards steps goal inner path v).Nodup := by
  induction inner generalizing path v with
  | zero =>
    rw [allOnwards]
    split
    · exact List.nodup_singleton _
    · exact List.nodup_nil
  | succ inner ih =>
    rw [allOnwards, List.nodup_flatMap]
    constructor
    · intro w _
      split
      · exact List.nodup_singleton _
      · rename_i hne
        split
        · exact List.nodup_nil
        · exact ih (List.not_mem_cons_of_ne_of_not_mem (fun h => hne (beq_iff_eq.mpr h.symm)) hgoal)
    · -- Paths whose next nodes are different are different.
      apply (hsteps v).imp
      intro w w' hne p hp hp'
      exact hne (Option.some.inj ((next_of_mem hgoal hp).symm.trans (next_of_mem hgoal hp')))

/-- From one node to another, ways that do not come back are the simple paths without their first
nodes. -/
theorem isSimplePath_iff {start : Nat} (h : start ≠ goal) {p : List Nat} :
    IsSimplePath (fun a b => b ∈ steps a) start goal p ∧ p.length ≤ inner + 2 ↔
      ∃ way, p = [start].reverse ++ way ∧ Way steps goal inner [start] start way := by
  constructor
  · rintro ⟨⟨hstarts, hends, hwalk, hnodup⟩, hshort⟩
    obtain ⟨way, rfl⟩ := List.head?_eq_some_iff.mp hstarts
    obtain ⟨hfresh, hway⟩ := List.nodup_cons.mp hnodup
    refine ⟨way, rfl, hwalk, ?_, hway, ?_, Nat.le_of_succ_le_succ hshort⟩
    · cases way with
      | nil => exact absurd (Option.some.inj hends) h
      | cons w rest => rwa [List.getLast?_cons_cons] at hends
    · rintro w hw hstart
      exact hfresh (List.mem_singleton.mp hstart ▸ hw)
  · rintro ⟨way, rfl, hway⟩
    refine ⟨⟨rfl, ?_, hway.walk, ?_⟩, Nat.succ_le_succ hway.short⟩
    · obtain ⟨w, rest, rfl⟩ := List.exists_cons_of_ne_nil hway.ne_nil
      exact List.getLast?_cons_cons.trans hway.ends
    · exact List.nodup_cons.mpr ⟨fun hs => hway.fresh start hs (List.mem_singleton_self start),
        hway.nodup⟩

/-- The listing between two nodes is one of their simple paths. -/
theorem lists_between (hsteps : ∀ v, (steps v).Nodup) :
    ListsSimplePaths (fun a b => b ∈ steps a) (between steps) := by
  intro inner start goal hne
  have hgoal : goal ∉ [start] := fun h => hne (List.mem_singleton.mp h).symm
  refine ⟨allOnwards steps goal inner [start] start, nodup_allOnwards hsteps hgoal, ?_, ?_⟩
  · intro p
    rw [isSimplePath_iff hne, mem_allOnwards hgoal]
  · exact fun limit => onwards_eq_take steps goal inner limit [start] start

end Listing

end SimplePath

end CodeAtlas.Retrieval
