import CodeAtlas.Proofs.First
import CodeAtlas.Proofs.Graph.Cycles
import CodeAtlas.Proofs.Graph.Indexed

/-!
Three nodes that depend on each other in a circle. A traversal enters each node once, so that a
detour can keep the circle itself from being reported; but some cycle is always reported whose last
step is one of the three.
-/

namespace CodeAtlas

open Metrics Traversal Relation

namespace Graph

/-- Whether some dependency leads from an id to another. -/
def Linked (g : Graph) (a b : String) : Prop :=
  ∃ e ∈ g.edges, e.source = a ∧ e.target = b

variable {g : Graph} {a b : String} {v w : Nat}

/-- A step leads from position to position exactly where a dependency leads from id to id. -/
theorem leads_successors (hids : (g.nodes.map Node.id).Nodup) :
    Leads g.successors v w ↔ ∃ a b, (g.nodes.map Node.id)[v]? = some a ∧
      (g.nodes.map Node.id)[w]? = some b ∧ g.Linked a b := by
  rw [Leads, successors, List.getElem?_map]
  cases hv : (g.nodes.map Node.id)[v]? with
  | none => simp
  | some a =>
    simp only [Option.map_some, Option.getD_some, List.mem_eraseDups, List.mem_filterMap, outgoing,
      List.mem_filter, beq_iff_eq, idxOf?_of_nodup hids, Option.some.injEq]
    constructor
    · rintro ⟨e, ⟨he, hsource⟩, htarget⟩
      exact ⟨a, e.target, rfl, htarget, e, he, hsource, rfl⟩
    · rintro ⟨x, b, rfl, hb, e, he, hsource, rfl⟩
      exact ⟨e, ⟨he, hsource⟩, hb⟩

theorem getElem?_eq_idAt (hids : (g.nodes.map Node.id).Nodup) (h : Leads g.successors v w) :
    (g.nodes.map Node.id)[v]? = some (idAt Node.id g.nodes v) := by
  obtain ⟨a, b, ha, -, -⟩ := (leads_successors hids).mp h
  rw [idAt, ← List.getElem?_map, ha, Option.getD_some]

theorem linked_idAt (hids : (g.nodes.map Node.id).Nodup) (h : Leads g.successors v w) :
    g.Linked (idAt Node.id g.nodes v) (idAt Node.id g.nodes w) := by
  obtain ⟨a, b, ha, hb, hlinked⟩ := (leads_successors hids).mp h
  rwa [idAt, idAt, ← List.getElem?_map, ← List.getElem?_map, ha, hb, Option.getD_some,
    Option.getD_some]

/-- A cycle of positions is reported by the ids along it, and they are a cycle of dependencies. -/
theorem isCycle_ids (hids : (g.nodes.map Node.id).Nodup) {cycle : List Nat}
    (h : IsCycle (Leads g.successors) cycle) :
    (cycle.filterMap fun v => (g.nodes.map Node.id)[v]?) = cycle.map (idAt Node.id g.nodes) ∧
      IsCycle g.Linked (cycle.map (idAt Node.id g.nodes)) := by
  have hread : ∀ v ∈ cycle, (g.nodes.map Node.id)[v]? = some (idAt Node.id g.nodes v) := by
    intro v hv
    obtain ⟨w, -, hw⟩ := h.exists_next hv
    exact getElem?_eq_idAt hids hw
  refine ⟨List.filterMap_eq_map_iff_forall_eq_some.mpr hread, h.map ?_ fun v w => linked_idAt hids⟩
  intro v hv w hw hsame
  have hlt : v < (g.nodes.map Node.id).length := (List.getElem?_eq_some_iff.mp (hread v hv)).1
  exact (List.getElem?_inj hlt hids).mp (by rw [hread v hv, hread w hw, hsame])

theorem closingStep?_map {α β : Type*} (f : α → β) (cycle : List α) :
    closingStep? (cycle.map f) = (closingStep? cycle).map (Prod.map f f) := by
  rw [closingStep?, closingStep?, List.getLast?_map, List.head?_map]
  cases cycle.getLast? with
  | none => rfl
  | some v => cases cycle.head? <;> rfl

/-- Of the steps of a closed walk over three nodes one is the last of a reported cycle. -/
theorem exists_closing_of_round {successors : List (List Nat)} {x y z : Nat}
    (hxy : Leads successors x y) (hyz : Leads successors y z) (hzx : Leads successors z x) :
    ∃ cycle ∈ cycles successors, closingStep? cycle ∈ [some (x, y), some (y, z), some (z, x)] := by
  by_contra hnone
  have hkept : ∀ v w, some (v, w) ∈ [some (x, y), some (y, z), some (z, x)] →
      (v, w) ∉ closingSteps (cycles successors) := by
    intro v w hvw hclosing
    obtain ⟨cycle, hcycle, hends⟩ := mem_closingSteps.mp hclosing
    exact hnone ⟨cycle, hcycle, hends ▸ hvw⟩
  have hx := leads_without.mpr ⟨hxy, hkept x y (by simp)⟩
  have hy := leads_without.mpr ⟨hyz, hkept y z (by simp)⟩
  have hz := leads_without.mpr ⟨hzx, hkept z x (by simp)⟩
  exact acyclic_without successors x (.head hx (.head hy (.single hz)))

/-- Some reported cycle has a step of the triangle for its last. -/
theorem exists_cycle_of_triangle (hids : (g.nodes.map Node.id).Nodup) {a b c : String}
    (hknown : ∀ e ∈ g.edges, e.source ∈ g.nodes.map Node.id) (hab : g.Linked a b)
    (hbc : g.Linked b c) (hca : g.Linked c a) :
    ∃ cycle ∈ g.metrics.cycles, IsCycle g.Linked cycle ∧
      closingStep? cycle ∈ [some (a, b), some (b, c), some (c, a)] := by
  have hposition : ∀ u v, g.Linked u v → ∃ x : Nat, (g.nodes.map Node.id)[x]? = some u := by
    rintro u v ⟨e, he, rfl, -⟩
    exact List.getElem?_of_mem (hknown e he)
  obtain ⟨x, hx⟩ := hposition a b hab
  obtain ⟨y, hy⟩ := hposition b c hbc
  obtain ⟨z, hz⟩ := hposition c a hca
  obtain ⟨cycle, hcycle, hends⟩ :=
    exists_closing_of_round ((leads_successors hids).mpr ⟨a, b, hx, hy, hab⟩)
      ((leads_successors hids).mpr ⟨b, c, hy, hz, hbc⟩)
        ((leads_successors hids).mpr ⟨c, a, hz, hx, hca⟩)
  obtain ⟨hids', hround⟩ := isCycle_ids hids (isCycle_of_close (mem_cycles.mp hcycle))
  have hat : idAt Node.id g.nodes x = a ∧ idAt Node.id g.nodes y = b ∧
      idAt Node.id g.nodes z = c := by
    simp only [idAt, ← List.getElem?_map, hx, hy, hz]
    exact ⟨rfl, rfl, rfl⟩
  obtain ⟨rfl, rfl, rfl⟩ := hat
  refine ⟨cycle.map (idAt Node.id g.nodes), List.mem_map.mpr ⟨cycle, hcycle, hids'⟩, hround, ?_⟩
  rw [closingStep?_map]
  exact List.mem_map_of_mem hends

end Graph

namespace IndexedGraph

theorem ids_nodup (nodes : List Node) : ((Roll.ofNodes nodes).nodes.map Node.id).Nodup := by
  have hposition : ∀ (p : Nat) (id : String), ((Roll.ofNodes nodes).nodes.map Node.id)[p]? =
      some id → (Roll.ofNodes nodes).position? id = some p := by
    intro p id hid
    rw [List.getElem?_map, Option.map_eq_some_iff] at hid
    exact (Roll.sound_ofNodes nodes id p).mpr hid
  rw [List.nodup_iff_getElem?_ne_getElem?]
  intro i j hij hj hsame
  have hi := hposition i _ (hsame.trans (List.getElem?_eq_getElem hj))
  have hj := hposition j _ (List.getElem?_eq_getElem hj)
  rw [hi, Option.some.injEq] at hj
  exact Nat.ne_of_lt hij hj

/--
Whatever else a graph holds, three nodes in a circle give a reported cycle whose last step is one of
the three. If no other nodes lie on a cycle with such a last step, the circle itself is reported.
-/
theorem ofParts_triangle (nodes : List Node) (edges : List Dependency) {a b c : String}
    (hab : (ofParts nodes edges).toGraph.Linked a b)
    (hbc : (ofParts nodes edges).toGraph.Linked b c)
    (hca : (ofParts nodes edges).toGraph.Linked c a) :
    (∃ cycle ∈ (ofParts nodes edges).metrics.cycles,
        IsCycle (ofParts nodes edges).toGraph.Linked cycle ∧
        closingStep? cycle ∈ [some (a, b), some (b, c), some (c, a)]) ∧
      ((∀ cycle, IsCycle (ofParts nodes edges).toGraph.Linked cycle →
          closingStep? cycle ∈ [some (a, b), some (b, c), some (c, a)] → ∀ id, id ∈ cycle ↔
          id ∈ [a, b, c]) →
        ∃ cycle ∈ (ofParts nodes edges).metrics.cycles, ∀ id, id ∈ cycle ↔ id ∈ [a, b, c]) := by
  obtain ⟨cycle, hcycle, hround, hends⟩ := Graph.exists_cycle_of_triangle (ids_nodup nodes)
    (fun e he => (mem_ofParts_edges he).1) hab hbc hca
  exact ⟨⟨cycle, hcycle, hround, hends⟩, fun honly => ⟨cycle, hcycle, honly cycle hround hends⟩⟩

section Functions

def fourFunctions : List Node :=
  ["A", "B", "C", "D"].map fun id => ⟨id, .member, some id, some id, "m.py", 1, 1, "python", false⟩

def call (a b : String) : Dependency :=
  { source := a, target := b, relationship := .calls, strength := 0.8, direct := true
    required := false }

theorem linked_call {calls : List Dependency} {a b : String} (he : call a b ∈ calls)
    (hends : (Roll.ofNodes fourFunctions).hasEnds (call a b) = true) :
    (ofParts fourFunctions calls).toGraph.Linked a b :=
  ⟨call a b, List.mem_filter.mpr ⟨he, hends⟩, rfl, rfl⟩

/-- Three functions that call each other in a circle, and a fourth that the first calls before. -/
def pendantCalls : List Dependency :=
  [call "A" "D", call "A" "B", call "B" "C", call "C" "A"]

theorem linked_pendantCalls {u v : String}
    (h : (ofParts fourFunctions pendantCalls).toGraph.Linked u v) :
    (u, v) ∈ [("A", "D"), ("A", "B"), ("B", "C"), ("C", "A")] := by
  obtain ⟨e, he, rfl, rfl⟩ := h
  exact List.mem_map_of_mem (f := fun e : Dependency => (e.source, e.target))
    (List.mem_filter.mp he).1

/-- From the fourth function nothing is called, so that all cycles go through the other three. -/
theorem mem_cycle_pendantCalls {cycle : List String}
    (h : IsCycle (ofParts fourFunctions pendantCalls).toGraph.Linked cycle) (id : String) :
    id ∈ cycle ↔ id ∈ ["A", "B", "C"] := by
  have hnext : ∀ u ∈ cycle, ∃ x ∈ cycle,
      (u, x) ∈ [("A", "D"), ("A", "B"), ("B", "C"), ("C", "A")] := by
    intro u hu
    obtain ⟨x, hx, hlinked⟩ := h.exists_next hu
    exact ⟨x, hx, linked_pendantCalls hlinked⟩
  have hD : "D" ∉ cycle := by
    intro hm
    obtain ⟨x, -, hx⟩ := hnext "D" hm
    simp at hx
  have hthree : ∀ u ∈ cycle, u = "A" ∧ "B" ∈ cycle ∨ u = "B" ∧ "C" ∈ cycle ∨ u = "C" ∧
      "A" ∈ cycle := by
    intro u hu
    obtain ⟨x, hx, hpair⟩ := hnext u hu
    simp only [List.mem_cons, Prod.mk.injEq, List.not_mem_nil, or_false] at hpair
    rcases hpair with ⟨rfl, rfl⟩ | ⟨rfl, rfl⟩ | ⟨rfl, rfl⟩ | ⟨rfl, rfl⟩
    · exact absurd hx hD
    · exact .inl ⟨rfl, hx⟩
    · exact .inr (.inl ⟨rfl, hx⟩)
    · exact .inr (.inr ⟨rfl, hx⟩)
  have hB : "A" ∈ cycle → "B" ∈ cycle := fun hm => by simpa using hthree "A" hm
  have hC : "B" ∈ cycle → "C" ∈ cycle := fun hm => by simpa using hthree "B" hm
  have hA : "C" ∈ cycle → "A" ∈ cycle := fun hm => by simpa using hthree "C" hm
  have hfirst : "A" ∈ cycle := by
    obtain ⟨u, hu⟩ := List.exists_mem_of_ne_nil cycle h.nonempty
    rcases hthree u hu with ⟨rfl, -⟩ | ⟨-, hc⟩ | ⟨-, ha⟩
    · exact hu
    · exact hA hc
    · exact ha
  constructor
  · intro hm
    rcases hthree id hm with ⟨rfl, -⟩ | ⟨rfl, -⟩ | ⟨rfl, -⟩
    · simp
    · simp
    · simp
  · intro hm
    simp only [List.mem_cons, List.not_mem_nil, or_false] at hm
    rcases hm with rfl | rfl | rfl
    · exact hfirst
    · exact hB hfirst
    · exact hC (hB hfirst)

theorem ofParts_triangle_pendantCalls :
    (ofParts fourFunctions pendantCalls).toGraph.Linked "A" "B" ∧
      (ofParts fourFunctions pendantCalls).toGraph.Linked "B" "C" ∧
      (ofParts fourFunctions pendantCalls).toGraph.Linked "C" "A" ∧
      ∃ cycle ∈ (ofParts fourFunctions pendantCalls).metrics.cycles,
        ∀ id, id ∈ cycle ↔ id ∈ ["A", "B", "C"] := by
  have hab : (ofParts fourFunctions pendantCalls).toGraph.Linked "A" "B" :=
    linked_call (by simp [pendantCalls]) (by decide +kernel)
  have hbc : (ofParts fourFunctions pendantCalls).toGraph.Linked "B" "C" :=
    linked_call (by simp [pendantCalls]) (by decide +kernel)
  have hca : (ofParts fourFunctions pendantCalls).toGraph.Linked "C" "A" :=
    linked_call (by simp [pendantCalls]) (by decide +kernel)
  exact ⟨hab, hbc, hca, (ofParts_triangle _ _ hab hbc hca).2 fun _ hcycle _ =>
    mem_cycle_pendantCalls hcycle⟩

/-- The same circle, but the fourth function calls the second, so that a longer way round is found
before. -/
def detourCalls : List Dependency :=
  [call "A" "D", call "D" "B", call "A" "B", call "B" "C", call "C" "A"]

theorem cycles_detourCalls :
    (ofParts fourFunctions detourCalls).metrics.cycles = [["A", "D", "B", "C"]] := by
  have hsuccessors : (ofParts fourFunctions detourCalls).toGraph.successors =
      [[3, 1], [2], [0], [1]] := by decide +kernel
  have hcycles : cycles [[3, 1], [2], [0], [1]] = [[0, 3, 1, 2]] := by cbv
  change ((cycles (ofParts fourFunctions detourCalls).toGraph.successors).map _) = _
  rw [hsuccessors, hcycles]
  decide +kernel

/-- The circle itself is not reported then. -/
theorem not_reported_detourCalls :
    "A" ≠ "B" ∧ "B" ≠ "C" ∧ "C" ≠ "A" ∧
      (ofParts fourFunctions detourCalls).toGraph.Linked "A" "B" ∧
      (ofParts fourFunctions detourCalls).toGraph.Linked "B" "C" ∧
      (ofParts fourFunctions detourCalls).toGraph.Linked "C" "A" ∧
      ¬ ∃ cycle ∈ (ofParts fourFunctions detourCalls).metrics.cycles,
        ∀ id, id ∈ cycle ↔ id ∈ ["A", "B", "C"] := by
  have hab : (ofParts fourFunctions detourCalls).toGraph.Linked "A" "B" :=
    linked_call (by simp [detourCalls]) (by decide +kernel)
  have hbc : (ofParts fourFunctions detourCalls).toGraph.Linked "B" "C" :=
    linked_call (by simp [detourCalls]) (by decide +kernel)
  have hca : (ofParts fourFunctions detourCalls).toGraph.Linked "C" "A" :=
    linked_call (by simp [detourCalls]) (by decide +kernel)
  refine ⟨by decide, by decide, by decide, hab, hbc, hca, ?_⟩
  rintro ⟨cycle, hcycle, honly⟩
  rw [cycles_detourCalls, List.mem_singleton] at hcycle
  subst hcycle
  have hD := (honly "D").mp (by simp)
  simp at hD

end Functions

end IndexedGraph

end CodeAtlas
