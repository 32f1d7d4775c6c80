import CodeAtlas.Retrieval.Ranking
import CodeAtlas.Proofs.StableSort

/-!
Ranking. Every node of an expansion is ranked once, by its score; nodes of one score stand in the
order in which they were met. Without steps the score of a node is its similarity.
-/

namespace CodeAtlas

section Scores

variable {α : Type} (score : α → Float)

theorem sortByScore_eq (xs : List α) :
    sortByScore score xs = xs.mergeSort fun a b => -orderKey (score a) ≤ -orderKey (score b) := by
  unfold sortByScore
  simp only [Int.neg_le_neg_iff]

theorem sortByScore_perm (xs : List α) : (sortByScore score xs).Perm xs :=
  List.mergeSort_perm xs _

/-- What orders a list orders the elements of one score after sorting. -/
theorem pairwise_sortByScore {R : α → α → Prop} {xs : List α} (h : xs.Pairwise R) :
    (sortByScore score xs).Pairwise fun a b =>
      orderKey (score b) < orderKey (score a) ∨ orderKey (score a) = orderKey (score b) ∧
          R a b := by
  rw [sortByScore_eq]
  apply (StableSort.pairwise_stable (fun a => -orderKey (score a)) h).imp
  intro a b hab
  rcases hab with hlt | ⟨he, hr⟩
  · exact Or.inl (by omega)
  · exact Or.inr ⟨by omega, hr⟩

/-- What is in order of the scores stays as it is. -/
theorem sortByScore_eq_self {xs : List α} (h : xs.Pairwise fun a b =>
      orderKey (score b) ≤ orderKey (score a)) :
    sortByScore score xs = xs := by
  apply List.mergeSort_of_pairwise
  exact h.imp fun hab => decide_eq_true hab

end Scores

namespace Retrieval

section Ranks

variable (x : Expanded) (chunk? : String → Option Chunk) (similarity? : String → Option Float)
  (query : String) (t : Tuning)

theorem scoredNodes_ids (terms : List String) (ranks members : List Float) :
    (scoredNodes x chunk? similarity? terms ranks members).map RankedNode.id = x.nodes := by
  rw [scoredNodes, List.map_map]
  exact List.zipIdx_map_fst 0 x.nodes

theorem rank_ids_perm :
    ((rank x chunk? similarity? query t).nodes.map RankedNode.id).Perm x.nodes := by
  have hperm :=
    (sortByScore_perm RankedNode.score (scoredNodes x chunk? similarity? (queryTerms query)
    (x.pageRank t) (pathMembership x.nodes.length (x.seedPaths t (x.pageRank t))))).map
      RankedNode.id
  rw [scoredNodes_ids] at hperm
  exact hperm

theorem pairwise_idxOf {ids : List String} (hn : ids.Nodup) :
    ids.Pairwise fun a b => ids.idxOf a < ids.idxOf b := by
  rw [List.pairwise_iff_getElem]
  intro i j hi hj hij
  rw [hn.idxOf_getElem, hn.idxOf_getElem]
  exact hij

/-- The nodes are ranked by their scores, and those of one score as they were met. -/
theorem rank_pairwise (hn : x.nodes.Nodup) :
    (rank x chunk? similarity? query t).nodes.Pairwise fun a b =>
    orderKey b.score < orderKey a.score ∨
      orderKey a.score = orderKey b.score ∧ x.nodes.idxOf a.id < x.nodes.idxOf b.id := by
  apply pairwise_sortByScore RankedNode.score
  apply (List.pairwise_map (f := RankedNode.id) (R := fun a b =>
    x.nodes.idxOf a < x.nodes.idxOf b)).mp
  rw [scoredNodes_ids]
  exact pairwise_idxOf hn

theorem pathsBy_none {x : Expanded} {t : Tuning}
    {search : (inner limit start goal : Nat) → List (List Nat)} {ranks : List Float}
    (h : t.maxHops = 0 ∨ x.steps = []) : x.pathsBy search t ranks = [] := by
  rw [Expanded.pathsBy, if_pos (by simpa using h)]

/-- Without steps nodes that were met in order of their similarities stay so, and there are no
paths. -/
theorem rank_alone (hs : x.steps = [])
    (hsorted : x.nodes.Pairwise fun a b =>
      orderKey ((similarity? b).getD 0.0) ≤ orderKey ((similarity? a).getD 0.0)) :
    (rank x chunk? similarity? query t).nodes.map RankedNode.id = x.nodes ∧
      (rank x chunk? similarity? query t).paths = [] := by
  have hpaths : ∀ ranks, x.seedPaths t ranks = [] := fun _ => pathsBy_none (Or.inr hs)
  have hscores : (scoredNodes x chunk? similarity? (queryTerms query) (x.pageRank t)
      (pathMembership x.nodes.length (x.seedPaths t (x.pageRank t)))).map RankedNode.score =
        x.nodes.map fun id => (similarity? id).getD 0.0 := by
    have hzip := congrArg (List.map fun id => (similarity? id).getD 0.0)
      (List.zipIdx_map_fst 0 x.nodes)
    rw [List.map_map] at hzip
    rw [scoredNodes, List.map_map, ← hzip]
    apply List.map_congr_left
    intro p _
    simp only [Function.comp_apply, hs, List.isEmpty_nil, if_true]
  constructor
  · rw [rank, sortByScore_eq_self, scoredNodes_ids]
    apply (List.pairwise_map (f := RankedNode.score) (R := fun a b => orderKey b ≤ orderKey a)).mp
    rw [hscores]
    exact List.pairwise_map.mpr hsorted
  · simp only [rank, hpaths, List.take_nil, List.map_nil]

end Ranks

end Retrieval

end CodeAtlas
