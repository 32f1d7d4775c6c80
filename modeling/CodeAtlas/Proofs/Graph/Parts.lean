import Mathlib.Data.List.Nodup
import CodeAtlas.Graph.Inference
import CodeAtlas.Proofs.Chunk.Distinct

/-!
Graphs put together from nodes and dependencies. What is kept of a list of dependencies depends on
their keys only, so that the dependencies of one relationship can be looked at by themselves.
-/

namespace CodeAtlas

namespace Graph

theorem ofParts_edges (nodes : List Node) (edges : List Dependency) :
    (ofParts nodes edges).edges =
      edges.filter fun e => decide (e.source ∈ nodes.map Node.id ∧
          e.target ∈ nodes.map Node.id) := by
  apply List.filter_congr
  intro e _
  rw [Bool.eq_iff_iff]
  simp [-List.mem_map, mem_map_distinctBy]

/-- Dependencies whose ends are nodes are all kept. -/
theorem ofParts_edges_eq_self {nodes : List Node} {edges : List Dependency}
    (h : ∀ e ∈ edges, e.source ∈ nodes.map Node.id ∧ e.target ∈ nodes.map Node.id) :
    (ofParts nodes edges).edges = edges := by
  rw [ofParts_edges, List.filter_eq_self]
  intro e he
  exact decide_eq_true (h e he)

theorem edgesOf_ofParts (nodes : List Node) (edges : List Dependency) (r : Relationship) :
    (ofParts nodes edges).edgesOf r =
      (ofParts nodes (edges.filter fun e => e.relationship == r)).edges := by
  rw [edgesOf, ofParts_edges, ofParts_edges, List.filter_filter, List.filter_filter]
  apply List.filter_congr
  intro e _
  exact Bool.and_comm _ _

end Graph

namespace Resolution

variable {chunks : List Chunk} {c : Chunk}

theorem byId?_eq_some (hn : (chunks.map Chunk.id).Nodup) (hc : c ∈ chunks) :
    byId? chunks c.id = some c := by
  unfold byId?
  cases hf : chunks.find? fun d => d.id == c.id with
  | none => exact absurd (List.find?_eq_none.mp hf c hc) (by simp)
  | some d =>
    have hd : d.id = c.id := by simpa using List.find?_some hf
    rw [List.inj_on_of_nodup_map hn (List.mem_of_find?_eq_some hf) hc hd]

theorem mem_of_byId? {id : String} (h : byId? chunks id = some c) : c ∈ chunks ∧ c.id = id :=
  ⟨List.mem_of_find?_eq_some h, by simpa using List.find?_some h⟩

end Resolution

namespace Inference

open Resolution

/-- Keeping the first of each key and choosing by key can be done in either order. -/
theorem filter_keepFirst {p : Dependency → Bool}
    (hp : ∀ d e : Dependency, d.key = e.key → p d = p e) (ds : List Dependency) :
    (keepFirst ds).filter p = keepFirst (ds.filter p) := by
  rw [keepFirst, keepFirst, filter_distinctBy hp, List.filter_filter, List.filter_filter]
  simp only [Bool.and_comm]

theorem keepFirst_eq_self {ds : List Dependency} (hends : ∀ d ∈ ds, d.source ≠ d.target)
    (hn : (ds.map Dependency.key).Nodup) : keepFirst ds = ds := by
  rw [keepFirst, List.filter_eq_self.mpr (by simpa using hends)]
  exact distinctBy_eq_self hn fun _ _ => List.not_mem_nil

theorem keepFirst_keys_nodup (ds : List Dependency) : ((keepFirst ds).map Dependency.key).Nodup :=
  nodup_distinctBy _ []

theorem exists_mem_keepFirst {ds : List Dependency} {d : Dependency} (hd : d ∈ ds)
    (hne : d.source ≠ d.target) : ∃ e ∈ keepFirst ds, e.key = d.key :=
  exists_mem_distinctBy (List.mem_filter.mpr ⟨hd, by simpa using hne⟩) List.not_mem_nil

/-- No two dependencies of a graph have the same ends and relationship. -/
theorem ofChunks_keys_nodup (chunks : List Chunk) :
    ((Graph.ofChunks chunks).edges.map Dependency.key).Nodup := by
  rw [Graph.ofChunks, Graph.ofParts_edges]
  exact (keepFirst_keys_nodup _).sublist (List.filter_sublist.map _)

/-- The ends of the dependencies of a graph are chunks of it. -/
theorem ofChunks_ends {chunks : List Chunk} {e : Dependency}
    (he : e ∈ (Graph.ofChunks chunks).edges) :
    e.source ∈ chunks.map Chunk.id ∧ e.target ∈ chunks.map Chunk.id := by
  have hsub : ((Chunk.distinct chunks).map Chunk.toNode).map Node.id ⊆ chunks.map Chunk.id := by
    rw [List.map_map]
    exact ((distinctBy_sublist chunks []).map _).subset
  rw [Graph.ofChunks, Graph.ofParts_edges] at he
  obtain ⟨hs, ht⟩ := of_decide_eq_true (List.mem_filter.mp he).2
  exact ⟨hsub hs, hsub ht⟩

theorem ofChunks_contains {chunks : List Chunk} {c : Chunk} (hc : c ∈ chunks) :
    (Graph.ofChunks chunks).contains c.id = true := by
  have hm : c.id ∈ (distinctBy Node.id [] ((Chunk.distinct chunks).map Chunk.toNode)).map
      Node.id := by
    refine mem_map_distinctBy.mpr ⟨?_, List.not_mem_nil⟩
    rw [List.map_map]
    exact mem_map_distinctBy.mpr ⟨List.mem_map_of_mem hc, List.not_mem_nil⟩
  obtain ⟨n, hn, he⟩ := List.mem_map.mp hm
  exact List.any_eq_true.mpr ⟨n, hn, by simp [he]⟩

variable {chunks : List Chunk} {c : Chunk}

/-- A chunk depends on every other chunk that it lists as its child. -/
theorem exists_edge_to_child {child : Chunk} (hn : (chunks.map Chunk.id).Nodup) (hc : c ∈ chunks)
    (hchild : child ∈ chunks) (hm : child.id ∈ c.children) (hne : c.id ≠ child.id) :
    ∃ e ∈ (Graph.ofChunks chunks).edges, e.source = c.id ∧ e.target = child.id := by
  have hfind := byId?_eq_some hn hchild
  have hcontained : ∃ d ∈ containment chunks c, d.source = c.id ∧ d.target = child.id := by
    unfold containment
    exact ⟨_, List.mem_map_of_mem (List.mem_filterMap.mpr ⟨child.id, hm, hfind⟩), rfl, rfl⟩
  obtain ⟨d, hd, hs, ht⟩ := hcontained
  have hd : d ∈ found chunks := by
    simp only [found, List.mem_append]
    exact Or.inl (Or.inl (Or.inl (Or.inl (List.mem_flatMap.mpr ⟨c, hc, hd⟩))))
  obtain ⟨e, he, hk⟩ := exists_mem_keepFirst hd (hs ▸ ht ▸ hne)
  obtain ⟨hes, hk⟩ := Prod.mk.inj hk
  have hsource : e.source = c.id := hes.trans hs
  have htarget : e.target = child.id := (Prod.mk.inj hk).1.trans ht
  refine ⟨e, ?_, hsource, htarget⟩
  rw [Graph.ofChunks, Chunk.distinct_eq_self hn, Graph.ofParts_edges, List.map_map]
  refine List.mem_filter.mpr ⟨he, decide_eq_true ?_⟩
  rw [hsource, htarget]
  exact ⟨List.mem_map_of_mem hc, List.mem_map_of_mem hchild⟩

end Inference

end CodeAtlas
