import CodeAtlas.Proofs.First
import CodeAtlas.Proofs.Retrieval.Growth
import CodeAtlas.Retrieval.Ranking

/-!
Expansions as graphs over the positions of their nodes. An expansion by any store, whatever it
answers, has distinct nodes, its seeds first, and at most one step from one node to another, so that
positions stand for nodes and the successors of a position are distinct.
-/

namespace CodeAtlas.Retrieval

open Expanded

/-- Distinct nodes, the seeds first, and at most one step from one node to another. -/
structure Expanded.WellFormed (x : Expanded) : Prop where
  nodup : x.nodes.Nodup
  seeds_first : x.seeds <+: x.nodes
  distinct_ends : (x.steps.map Step.ends).Nodup

section Growth

variable {x : Expanded} {neighbors : String → Except Failure (List Dependency)}

theorem wellFormed_ofSeeds (seeds : List String) : (ofSeeds seeds).WellFormed where
  nodup := nodup_eraseDups seeds
  seeds_first := List.prefix_rfl
  distinct_ends := List.nodup_nil

theorem Expanded.WellFormed.follow (h : x.WellFormed) (id : String) (d : Dependency) :
    (follow id x d).WellFormed := by
  obtain ⟨new, he, -, -⟩ := meet_eq x.nodes (otherEnd id d)
  have hfirst : x.seeds <+: meet x.nodes (otherEnd id d) := by
    rw [he]
    exact h.seeds_first.trans (List.prefix_append x.nodes new)
  unfold Expanded.follow
  dsimp only
  split
  · exact ⟨nodup_meet h.nodup _, hfirst, nodup_ends_addStep h.distinct_ends _⟩
  · exact ⟨nodup_meet h.nodup _, hfirst, h.distinct_ends⟩

/-- Whatever a store answers, what is met makes a well-formed graph. -/
theorem wellFormed_expand {seeds : List String} {hops : Nat}
    (hx : expand neighbors seeds hops = .ok x) : x.WellFormed := by
  have hkept : Keeps neighbors Expanded.WellFormed := fun x id ds _ _ d _ h => h.follow id d
  exact hkept.expand (wellFormed_ofSeeds seeds) hx

end Growth

/-- Whether a step leads from the node at one position to the node at another. -/
def Expanded.Leads (x : Expanded) (v w : Nat) : Prop :=
  ∃ s ∈ x.steps, x.nodes[v]? = some s.source ∧ x.nodes[w]? = some s.target

section Positions

variable {x : Expanded} {v w : Nat}

theorem flow_eq_some {α : Type} [OfScientific α] {s : Step} {f : Flow α} :
    (do return (⟨← x.nodes.idxOf? s.source, ← x.nodes.idxOf? s.target, s.relationship.weight⟩ :
      Flow α)) = some f ↔
      x.nodes.idxOf? s.source = some f.source ∧ x.nodes.idxOf? s.target = some f.target ∧
        f.weight = s.relationship.weight := by
  cases f
  cases x.nodes.idxOf? s.source <;> cases x.nodes.idxOf? s.target <;> simp [eq_comm]

theorem mem_flows {α : Type} [OfScientific α] {f : Flow α} : f ∈ x.flows ↔
    ∃ s ∈ x.steps, x.nodes.idxOf? s.source = some f.source ∧
      x.nodes.idxOf? s.target = some f.target ∧ f.weight = s.relationship.weight := by
  simp only [flows, List.mem_filterMap, flow_eq_some]

/-- No two steps lead between the same positions. -/
theorem pairwise_flows {α : Type} [OfScientific α] (h : x.WellFormed) :
    (x.flows : List (Flow α)).Pairwise fun f g => f.source = g.source → f.target ≠ g.target := by
  rw [flows, List.pairwise_filterMap]
  apply (List.pairwise_map.mp h.distinct_ends).imp
  intro s s' hne f hf g hg hsource htarget
  obtain ⟨hs, ht, -⟩ := flow_eq_some.mp hf
  obtain ⟨hs', ht', -⟩ := flow_eq_some.mp hg
  rw [idxOf?_of_nodup h.nodup] at hs ht hs' ht'
  rw [hsource, hs'] at hs
  rw [htarget, ht'] at ht
  exact hne (Prod.ext (Option.some.inj hs).symm (Option.some.inj ht).symm)

theorem lt_of_idxOf? {id : String} (h : x.nodes.idxOf? id = some v) : v < x.nodes.length :=
  (List.idxOf?_eq_some_iff.mp h).1

theorem Expanded.Leads.lt (h : x.Leads v w) : v < x.nodes.length ∧ w < x.nodes.length := by
  obtain ⟨s, -, hv, hw⟩ := h
  exact ⟨(List.getElem?_eq_some_iff.mp hv).1, (List.getElem?_eq_some_iff.mp hw).1⟩

theorem mem_successors (h : x.WellFormed) : w ∈ x.successors v ↔ x.Leads v w := by
  simp only [successors, List.mem_reverse, List.mem_map, List.mem_filter, beq_iff_eq, mem_flows,
    idxOf?_of_nodup h.nodup, Expanded.Leads]
  constructor
  · rintro ⟨f, ⟨⟨s, hs, hsource, htarget, -⟩, rfl⟩, rfl⟩
    exact ⟨s, hs, hsource, htarget⟩
  · rintro ⟨s, hs, hsource, htarget⟩
    exact ⟨⟨v, w, s.relationship.weight⟩, ⟨⟨s, hs, hsource, htarget, rfl⟩, rfl⟩, rfl⟩

theorem nodup_successors (h : x.WellFormed) (v : Nat) : (x.successors v).Nodup := by
  rw [successors, List.nodup_reverse, List.Nodup, List.pairwise_map]
  apply ((pairwise_flows h).filter _).imp_of_mem
  intro f g hf hg hne
  have hf := (List.mem_filter.mp hf).2
  have hg := (List.mem_filter.mp hg).2
  exact hne ((beq_iff_eq.mp hf).trans (beq_iff_eq.mp hg).symm)

end Positions

end CodeAtlas.Retrieval
