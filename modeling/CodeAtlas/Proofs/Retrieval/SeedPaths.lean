import CodeAtlas.Proofs.Float.Share
import CodeAtlas.Proofs.Retrieval.Positions
import CodeAtlas.Proofs.Retrieval.Ranking
import CodeAtlas.Proofs.Retrieval.SimplePath

/-!
Paths between seeds. They are looked for between the seeds of the highest ranks, each ordered pair
of which gets no more than its share of simple paths, and all of them where there are no more. What
a node scores is its share of the largest number of paths that pass a node.
-/

namespace CodeAtlas.Retrieval

open Expanded

/-- Whether one position comes before another by rank: its rank is higher, or the same and it is the
first of the two. -/
def RanksBefore (ranks : List Float) (v w : Nat) : Prop :=
  orderKey (PageRank.rankAt ranks w) < orderKey (PageRank.rankAt ranks v) ∨
    orderKey (PageRank.rankAt ranks v) = orderKey (PageRank.rankAt ranks w) ∧ v < w

/-- Whether a path runs from the first to the second of two nodes. -/
def Runs (ends : Nat × Nat) (p : List Nat) : Prop :=
  p.head? = some ends.1 ∧ p.getLast? = some ends.2

instance (ends : Nat × Nat) : DecidablePred (Runs ends) := fun p =>
  inferInstanceAs (Decidable (p.head? = some ends.1 ∧ p.getLast? = some ends.2))

/-- Paths between nodes of a list. -/
structure Connects (x : Expanded) (t : Tuning) (chosen : List Nat) (paths : List (List Nat)) :
    Prop where
  sound : ∀ p ∈ paths, ∃ start ∈ chosen, ∃ goal ∈ chosen, start ≠ goal ∧
    IsSimplePath x.Leads start goal p ∧ p.length ≤ t.maxHops + 1
  distinct : paths.Nodup
  limited : ∀ start goal, (paths.filter fun p => Runs (start, goal) p).length ≤ t.maxPathsPerPair
  /-- Where a pair has no more simple paths than are wanted, there are all of them. -/
  complete : ∀ start ∈ chosen, ∀ goal ∈ chosen, start ≠ goal →
    {p | IsSimplePath x.Leads start goal p ∧ p.length ≤ t.maxHops + 1}.encard ≤ t.maxPathsPerPair →
      ∀ p, IsSimplePath x.Leads start goal p → p.length ≤ t.maxHops + 1 → p ∈ paths

/-- How many paths pass a node. -/
def passing (paths : List (List Nat)) (v : Nat) : Nat :=
  paths.countP fun p => v ∈ p

/-- Scores that are shares of the largest number of paths that pass a node. -/
structure Shares (nodes : Nat) (paths : List (List Nat)) (scores : List Float) : Prop where
  length : scores.length = nodes
  bounded : ∀ s ∈ scores, 0.0 ≤ s ∧ s ≤ 1.0
  unpassed : paths = [] → ∀ s ∈ scores, s = 0.0
  shared : paths ≠ [] → ∃ top, scores[top]? = some 1.0 ∧ 0 < passing paths top ∧
    (∀ v, passing paths v ≤ passing paths top) ∧
    ∀ v < nodes, scores[v]? = some (Float.ofNat (passing paths v) / Float.ofNat (passing paths top))

section Pairs

variable {κ α : Type} [DecidableEq κ] {keys : List κ} {found : κ → List α} {of : κ → α → Prop}
  [∀ k, DecidablePred (of k)]

/-- Of results that are found for one key each, those of a key are what is found for it. -/
theorem filter_flatMap_of_key (hof : ∀ k ∈ keys, ∀ a ∈ found k, ∀ k', of k' a ↔ k' = k)
    (hn : keys.Nodup) (k : κ) :
    (keys.flatMap found).filter (fun a => of k a) = if k ∈ keys then found k else [] := by
  induction keys with
  | nil => rfl
  | cons k' keys ih =>
    obtain ⟨hk', hkeys⟩ := List.nodup_cons.mp hn
    have hrest := ih (fun k hk => hof k (List.mem_cons_of_mem k' hk)) hkeys
    rw [List.flatMap_cons, List.filter_append, hrest]
    by_cases hk : k = k'
    · subst hk
      rw [if_neg hk', if_pos List.mem_cons_self, List.append_nil, List.filter_eq_self]
      exact fun a ha => decide_eq_true ((hof k List.mem_cons_self a ha k).mpr rfl)
    · have hnone : (found k').filter (fun a => of k a) = [] := by
        rw [List.filter_eq_nil_iff]
        intro a ha h
        exact hk ((hof k' List.mem_cons_self a ha k).mp (of_decide_eq_true h))
      rw [hnone, List.nil_append]
      simp only [List.mem_cons, hk, false_or]

variable (of) in
omit [DecidableEq κ] [∀ k, DecidablePred (of k)] in
theorem nodup_flatMap_of_key (hof : ∀ k ∈ keys, ∀ a ∈ found k, ∀ k', of k' a ↔ k' = k)
    (hn : keys.Nodup) (hfound : ∀ k ∈ keys, (found k).Nodup) : (keys.flatMap found).Nodup := by
  rw [List.nodup_flatMap]
  refine ⟨hfound, hn.imp_of_mem ?_⟩
  intro k k' hk hk' hne a ha ha'
  exact hne ((hof k' hk' a ha' k).mp ((hof k hk a ha k).mpr rfl))

omit [DecidableEq κ] in
theorem length_flatMap_le {n : Nat} (h : ∀ k ∈ keys, (found k).length ≤ n) :
    (keys.flatMap found).length ≤ keys.length * n := by
  rw [List.length_flatMap]
  have hsum := List.sum_le_card_nsmul (keys.map fun k => (found k).length) n
    (List.forall_mem_map.mpr h)
  rwa [List.length_map, smul_eq_mul] at hsum

def orderedPairs (chosen : List κ) : List (κ × κ) :=
  chosen.flatMap fun start => (chosen.filter (· ≠ start)).map fun goal => (start, goal)

theorem mem_orderedPairs {k : κ × κ} :
    k ∈ orderedPairs keys ↔ k.1 ∈ keys ∧ k.2 ∈ keys ∧ k.1 ≠ k.2 := by
  obtain ⟨start, goal⟩ := k
  simp only [orderedPairs, List.mem_flatMap, List.mem_map, List.mem_filter, decide_eq_true_eq,
    Prod.mk.injEq]
  constructor
  · rintro ⟨_, hs, _, ⟨hg, hne⟩, rfl, rfl⟩
    exact ⟨hs, hg, fun h => hne h.symm⟩
  · rintro ⟨hs, hg, hne⟩
    exact ⟨start, hs, goal, ⟨hg, fun h => hne h.symm⟩, rfl, rfl⟩

theorem nodup_orderedPairs (hn : keys.Nodup) : (orderedPairs keys).Nodup := by
  apply nodup_flatMap_of_key (fun start (k : κ × κ) => start = k.1) _ hn
  · intro start _
    exact (hn.filter _).map fun g g' h => (Prod.mk.inj h).2
  · intro start _ k hk start'
    obtain ⟨goal, -, rfl⟩ := List.mem_map.mp hk
    exact Iff.rfl

end Pairs

section Search

variable {x : Expanded} {search : (inner limit start goal : Nat) → List (List Nat)} {t : Tuning}
  {ranks : List Float}

theorem IsSimplePath.runs_iff {leads : Nat → Nat → Prop} {ends : Nat × Nat} {p : List Nat}
    (h : IsSimplePath leads ends.1 ends.2 p) (ends' : Nat × Nat) : Runs ends' p ↔ ends' = ends := by
  rw [Runs, h.starts, h.ends, Prod.ext_iff, Option.some_inj, Option.some_inj, eq_comm,
    eq_comm (a := ends.2)]

theorem IsSimplePath.lt {start goal : Nat} {p : List Nat} (h : IsSimplePath x.Leads start goal p)
    (hstart : start < x.nodes.length) : ∀ v ∈ p, v < x.nodes.length := by
  apply h.walk.induction (· < x.nodes.length)
  · exact fun v w hvw _ => hvw.lt.2
  · intro hne
    have hhead := h.starts
    rw [List.head?_eq_some_head hne] at hhead
    exact Option.some.inj hhead ▸ hstart

theorem pathsBy_eq (hhops : t.maxHops ≠ 0) (hsteps : x.steps ≠ []) :
    x.pathsBy search t ranks = (orderedPairs (x.pathSeeds t ranks)).flatMap fun k =>
      search (t.maxHops - 1) t.maxPathsPerPair k.1 k.2 := by
  have hfilter : ∀ start : Nat, (fun v => v != start) = fun v => decide (v ≠ start) := by
    intro start
    funext v
    exact Bool.eq_iff_iff.mpr (by simp)
  rw [Expanded.pathsBy, if_neg (by simp [hhops, hsteps]), orderedPairs, List.flatMap_assoc]
  simp only [List.flatMap_map, hfilter]

theorem connects_pathsBy (hsearch : ListsSimplePaths x.Leads search)
    (hn : (x.pathSeeds t ranks).Nodup) :
    Connects x t (x.pathSeeds t ranks) (x.pathsBy search t ranks) := by
  by_cases hnone : t.maxHops = 0 ∨ x.steps = []
  · -- Without hops or steps no path is looked for, and a path would take one step at least.
    rw [pathsBy_none hnone]
    refine ⟨nofun, List.nodup_nil, fun start goal => Nat.zero_le _, ?_⟩
    intro start _ goal _ hne _ p hp hshort
    obtain ⟨hlong, v, s, hs, -⟩ := hp.exists_step hne
    rcases hnone with hhops | hsteps
    · omega
    · exact absurd (hsteps ▸ hs) List.not_mem_nil
  · obtain ⟨hhops, hsteps⟩ := not_or.mp hnone
    have hinner : t.maxHops - 1 + 2 = t.maxHops + 1 := by omega
    -- Every path is found for one pair, that of its ends, so that no two pairs share one.
    have hruns : ∀ k ∈ orderedPairs (x.pathSeeds t ranks),
        ∀ p ∈ search (t.maxHops - 1) t.maxPathsPerPair k.1 k.2, ∀ k', Runs k' p ↔ k' = k := by
      intro k hk p hp
      exact (hsearch.mem (mem_orderedPairs.mp hk).2.2 hp).1.runs_iff
    have hpairs := nodup_orderedPairs hn
    rw [pathsBy_eq hhops hsteps]
    constructor
    · intro p hp
      obtain ⟨k, hk, hp⟩ := List.mem_flatMap.mp hp
      obtain ⟨hstart, hgoal, hne⟩ := mem_orderedPairs.mp hk
      exact ⟨k.1, hstart, k.2, hgoal, hne, hinner ▸ hsearch.mem hne hp⟩
    · exact nodup_flatMap_of_key Runs hruns hpairs fun k hk =>
        hsearch.nodup (mem_orderedPairs.mp hk).2.2
    · intro start goal
      rw [filter_flatMap_of_key hruns hpairs]
      split
      · rename_i hk
        exact hsearch.length_le (mem_orderedPairs.mp hk).2.2
      · exact Nat.zero_le _
    · intro start hstart goal hgoal hne hfew p hp hshort
      rw [← hinner] at hfew hshort
      exact List.mem_flatMap.mpr ⟨(start, goal), mem_orderedPairs.mpr ⟨hstart, hgoal, hne⟩,
        hsearch.complete hne hfew hp hshort⟩

/-- The depth-first listing, by which seed paths are found, is such a search. -/
theorem lists_successors (h : x.WellFormed) :
    ListsSimplePaths x.Leads (SimplePath.between x.successors) := by
  have hleads : x.Leads = fun v w => w ∈ x.successors v := by
    funext v w
    exact propext (mem_successors h).symm
  rw [hleads]
  exact SimplePath.lists_between (nodup_successors h)

end Search

section Chosen

variable {x : Expanded} {t : Tuning} {ranks : List Float}

theorem filterMap_seeds (h : x.WellFormed) :
    (x.seeds.filterMap fun id => x.nodes.idxOf? id) = List.range x.seeds.length := by
  have hmap : x.seeds.map (fun id => x.nodes.idxOf? id) = (List.range x.seeds.length).map some := by
    apply List.ext_getElem
    · simp
    · intro v hv hv'
      rw [List.getElem_map, List.getElem_map, List.getElem_range, idxOf?_of_nodup h.nodup]
      rw [List.length_map] at hv
      exact (List.prefix_iff_getElem?.mp h.seeds_first) v hv
  have hreduce := congrArg (List.filterMap id) hmap
  rw [List.filterMap_map, List.filterMap_map] at hreduce
  rw [← List.filterMap_some (l := List.range x.seeds.length)]
  exact hreduce

theorem pathSeeds_eq (h : x.WellFormed) :
    x.pathSeeds t ranks = (sortByScore (PageRank.rankAt ranks) (List.range x.seeds.length)).take
      t.pathSeeds := by
  rw [Expanded.pathSeeds, filterMap_seeds h]

theorem nodup_pathSeeds (h : x.WellFormed) (t : Tuning) (ranks : List Float) :
    (x.pathSeeds t ranks).Nodup := by
  rw [pathSeeds_eq h]
  exact ((sortByScore_perm _ _).nodup_iff.mpr List.nodup_range).sublist (List.take_sublist _ _)

theorem lt_of_mem_pathSeeds (h : x.WellFormed) {v : Nat} (hv : v ∈ x.pathSeeds t ranks) :
    v < x.nodes.length := by
  rw [pathSeeds_eq h] at hv
  have hseed := List.mem_range.mp ((sortByScore_perm _ _).mem_iff.mp (List.mem_of_mem_take hv))
  exact hseed.trans_le h.seeds_first.length_le

theorem length_pathSeeds_le : (x.pathSeeds t ranks).length ≤ t.pathSeeds :=
  List.length_take_le t.pathSeeds _

/-- There are no more paths than for each pair of as many seeds as wanted. -/
theorem length_pathsBy_le {search : (inner limit start goal : Nat) → List (List Nat)}
    (hsearch : ListsSimplePaths x.Leads search) :
    (x.pathsBy search t ranks).length ≤ t.pathSeeds * (t.pathSeeds * t.maxPathsPerPair) := by
  by_cases hnone : t.maxHops = 0 ∨ x.steps = []
  · rw [pathsBy_none hnone]
    exact Nat.zero_le _
  · obtain ⟨hhops, hsteps⟩ := not_or.mp hnone
    have hpairs : (orderedPairs (x.pathSeeds t ranks)).length ≤ t.pathSeeds * t.pathSeeds := by
      refine (length_flatMap_le (n := t.pathSeeds) ?_).trans
        (Nat.mul_le_mul_right _ length_pathSeeds_le)
      intro start _
      rw [List.length_map]
      exact (List.length_filter_le _ _).trans length_pathSeeds_le
    rw [pathsBy_eq hhops hsteps, ← Nat.mul_assoc]
    refine (length_flatMap_le (n := t.maxPathsPerPair) ?_).trans (Nat.mul_le_mul_right _ hpairs)
    exact fun k hk => hsearch.length_le (mem_orderedPairs.mp hk).2.2

end Chosen

section Members

variable {nodes : Nat} {paths : List (List Nat)}

theorem foldl_count_eq (h : ∀ p ∈ paths, p.Nodup) (v n : Nat) :
    paths.foldl (fun n p => n + p.count v) n = n + passing paths v := by
  induction paths generalizing n with
  | nil => rfl
  | cons p paths ih =>
    rw [List.foldl_cons, ih fun q hq => h q (List.mem_cons_of_mem p hq),
      (h p List.mem_cons_self).count, passing, passing, List.countP_cons]
    simp only [decide_eq_true_eq]
    omega

theorem passing_le (v : Nat) : passing paths v ≤ paths.length :=
  List.countP_le_length

theorem passing_eq_zero (hlt : ∀ p ∈ paths, ∀ v ∈ p, v < nodes) {v : Nat} (hv : nodes ≤ v) :
    passing paths v = 0 := by
  rw [passing, List.countP_eq_zero]
  intro p hp h
  exact absurd (hlt p hp v (of_decide_eq_true h)) (Nat.not_lt.mpr hv)

/-- Where there is a path, there is a node that the largest number of them pass. -/
theorem exists_top (hne : ∀ p ∈ paths, p ≠ []) (hlt : ∀ p ∈ paths, ∀ v ∈ p, v < nodes)
    (hpaths : paths ≠ []) :
    ∃ top < nodes, 0 < passing paths top ∧ (∀ v, passing paths v ≤ passing paths top) ∧
      ((List.range nodes).map (passing paths)).foldl max 0 = passing paths top := by
  obtain ⟨p, rest, rfl⟩ := List.exists_cons_of_ne_nil hpaths
  obtain ⟨v, way, rfl⟩ := List.exists_cons_of_ne_nil (hne p List.mem_cons_self)
  have hv := hlt _ List.mem_cons_self v List.mem_cons_self
  have hpass : 0 < passing ((v :: way) :: rest) v :=
    List.countP_pos_iff.mpr ⟨v :: way, List.mem_cons_self, decide_eq_true List.mem_cons_self⟩
  have hmap : (List.range nodes).map (passing ((v :: way) :: rest)) ≠ [] := by
    rw [Ne, List.map_eq_nil_iff, List.range_eq_nil]
    omega
  obtain ⟨top, htop, hmax⟩ := List.mem_map.mp (List.max_mem hmap)
  have hle : ∀ u < nodes, passing ((v :: way) :: rest) u ≤ passing ((v :: way) :: rest) top := by
    intro u hu
    rw [hmax]
    exact List.le_max_of_mem (List.mem_map_of_mem (List.mem_range.mpr hu))
  refine ⟨top, List.mem_range.mp htop, hpass.trans_le (hle v hv), ?_, ?_⟩
  · intro u
    rcases Nat.lt_or_ge u nodes with hu | hu
    · exact hle u hu
    · rw [passing_eq_zero hlt hu]
      exact Nat.zero_le _
  · rw [List.foldl_max_eq_max hmap, ← hmax, Nat.zero_max]

theorem pathMembership_nil (nodes : Nat) : pathMembership nodes [] = List.replicate nodes 0.0 := by
  have hcounts : (List.range nodes).map
      (fun v => ([] : List (List Nat)).foldl (fun n p => n + p.count v) 0) =
      List.replicate nodes 0 := by
    simp [List.map_const']
  have hmost : (List.replicate nodes 0).foldl max 0 = 0 := by
    rw [List.foldl_max]
    cases nodes <;> simp
  rw [pathMembership, hcounts, hmost, List.map_replicate]
  rfl

theorem pathMembership_eq (hnodup : ∀ p ∈ paths, p.Nodup) {top : Nat} (hpos : 0 < passing paths top)
    (hmost : ((List.range nodes).map (passing paths)).foldl max 0 = passing paths top) :
    pathMembership nodes paths =
      (List.range nodes).map fun v => Float.ofNat (passing paths v) /
          Float.ofNat (passing paths top) := by
  have hcounts : (List.range nodes).map (fun v => paths.foldl (fun n p => n + p.count v) 0) =
      (List.range nodes).map (passing paths) := by
    apply List.map_congr_left
    intro v _
    rw [foldl_count_eq hnodup, Nat.zero_add]
  rw [pathMembership, hcounts, hmost, List.map_map]
  apply List.map_congr_left
  intro v _
  exact if_neg (by simpa using hpos.ne')

theorem shares_pathMembership (hnodup : ∀ p ∈ paths, p.Nodup) (hne : ∀ p ∈ paths, p ≠ [])
    (hlt : ∀ p ∈ paths, ∀ v ∈ p, v < nodes) (hfew : paths.length < 2 ^ 192) :
    Shares nodes paths (pathMembership nodes paths) := by
  by_cases hpaths : paths = []
  · subst hpaths
    rw [pathMembership_nil]
    refine ⟨List.length_replicate, ?_, fun _ s hs => List.eq_of_mem_replicate hs,
      fun h => absurd rfl h⟩
    intro s hs
    rw [List.eq_of_mem_replicate hs]
    exact ⟨rfl, rfl⟩
  · obtain ⟨top, htop, hpos, hmax, hmost⟩ := exists_top hne hlt hpaths
    have hbound := (passing_le top).trans_lt hfew
    have hscore : ∀ v < nodes, ((List.range nodes).map fun v =>
        Float.ofNat (passing paths v) / Float.ofNat (passing paths top))[v]? =
          some (Float.ofNat (passing paths v) / Float.ofNat (passing paths top)) := by
      intro v hv
      rw [List.getElem?_map, List.getElem?_range hv]
      rfl
    rw [pathMembership_eq hnodup hpos hmost]
    refine ⟨by simp, ?_, fun h => absurd h hpaths, fun _ => ⟨top, ?_, hpos, hmax, hscore⟩⟩
    · intro s hs
      obtain ⟨v, -, rfl⟩ := List.mem_map.mp hs
      exact Double.share_bounds hpos (hmax v) hbound
    · rw [hscore top htop, Double.share_self hpos hbound]

end Members

section Ranked

variable {neighbors : String → Except Failure (List Dependency)} {seeds : List String} {hops : Nat}
  {x : Expanded} {search : (inner limit start goal : Nat) → List (List Nat)}

/--
The paths that are found between the first seeds by rank, by a search that lists the simple paths
between two nodes of an expansion, and what its nodes score by them. The numbers of seeds and of
paths that are wanted are those of machine words.
-/
theorem pathsBy_ranked (hx : expand neighbors seeds hops = .ok x)
    (hsearch : ListsSimplePaths x.Leads search) (t : Tuning) (hseeds : t.pathSeeds < UInt64.size)
    (hlimit : t.maxPathsPerPair < UInt64.size) (ranks : List Float) : x.seeds <+: x.nodes ∧
      ∃ order : List Nat, order.Perm (List.range x.seeds.length) ∧
        order.Pairwise (RanksBefore ranks) ∧
        Connects x t (order.take t.pathSeeds) (x.pathsBy search t ranks) ∧
        Shares x.nodes.length (x.pathsBy search t ranks)
          (pathMembership x.nodes.length (x.pathsBy search t ranks)) := by
  have hwell := wellFormed_expand hx
  have hconnects := connects_pathsBy hsearch (nodup_pathSeeds hwell t ranks)
  have hfew : (x.pathsBy search t ranks).length < 2 ^ 192 := by
    have hproduct := Nat.mul_lt_mul'' hseeds (Nat.mul_lt_mul'' hseeds hlimit)
    exact (length_pathsBy_le hsearch).trans_lt hproduct
  refine ⟨hwell.seeds_first, sortByScore (PageRank.rankAt ranks) (List.range x.seeds.length),
    sortByScore_perm _ _, pairwise_sortByScore _ List.pairwise_lt_range, pathSeeds_eq hwell ▸
    hconnects, ?_⟩
  apply shares_pathMembership _ _ _ hfew
  · intro p hp
    obtain ⟨start, -, goal, -, -, hpath, -⟩ := hconnects.sound p hp
    exact hpath.nodup
  · intro p hp
    obtain ⟨start, -, goal, -, -, hpath, -⟩ := hconnects.sound p hp
    exact hpath.ne_nil
  · intro p hp
    obtain ⟨start, hstart, goal, -, -, hpath, -⟩ := hconnects.sound p hp
    exact hpath.lt (lt_of_mem_pathSeeds hwell hstart)

/-- A ring of three nodes, two of them seeds: it is one step from the first to the second, and two
back. -/
def ringed : Expanded where
  nodes := ["a", "b", "c"]
  seeds := ["a", "b"]
  steps := [⟨"a", "b", .inherits⟩, ⟨"c", "a", .imports⟩, ⟨"b", "c", .uses⟩]

theorem pathsBy_ranked_ring :
    expand (fun v => .ok (ring.filter fun d => d.touches v)) ["a", "b"] 1 = .ok ringed ∧
      ListsSimplePaths ringed.Leads (SimplePath.between ringed.successors) ∧
      ({} : Tuning).pathSeeds < UInt64.size ∧ ({} : Tuning).maxPathsPerPair < UInt64.size ∧
      ∃ order : List Nat, order.Perm [0, 1] ∧ order.Pairwise (RanksBefore [0.3, 0.5, 0.2]) ∧
        Connects ringed {} (order.take 4) (ringed.pathsBy (SimplePath.between ringed.successors) {}
        [0.3, 0.5, 0.2]) ∧
        Shares 3 (ringed.pathsBy (SimplePath.between ringed.successors) {} [0.3, 0.5, 0.2])
          (pathMembership 3 (ringed.pathsBy (SimplePath.between ringed.successors) {}
              [0.3, 0.5, 0.2])) := by
  have hx : expand (fun v => .ok (ring.filter fun d => d.touches v)) ["a", "b"] 1 = .ok ringed := by
    rfl
  have hsearch := lists_successors (wellFormed_expand hx)
  have hseeds : ({} : Tuning).pathSeeds < UInt64.size := by decide
  have hlimit : ({} : Tuning).maxPathsPerPair < UInt64.size := by decide
  obtain ⟨-, hranked⟩ := pathsBy_ranked hx hsearch {} hseeds hlimit [0.3, 0.5, 0.2]
  exact ⟨hx, hsearch, hseeds, hlimit, hranked⟩

end Ranked

end CodeAtlas.Retrieval
