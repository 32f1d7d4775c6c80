import CodeAtlas.Proofs.Graph.Lineage
import CodeAtlas.Proofs.Graph.Passes

/-!
What is true of the graph of any chunks. Its nodes are the chunks without repetitions, its
dependencies join two nodes, are told apart by their ends and relationship, and stand in the order
of the passes and, in a pass, of the chunks they start at.
-/

namespace CodeAtlas

namespace Chunk

variable {cs : List Chunk}

theorem map_id_distinct (cs : List Chunk) : (distinct cs).map id = (cs.map id).eraseDups :=
  map_distinctBy_nil cs

/-- What is kept of a list are its ids without repetitions, each with the first chunk that has
it. -/
theorem distinct_eq_firsts (cs : List Chunk) :
    distinct cs = (cs.map id).eraseDups.filterMap (Resolution.byId? cs) := distinctBy_eq_firsts cs

theorem byId?_distinct {i : String} {c : Chunk} (h : Resolution.byId? (distinct cs) i = some c) :
    Resolution.byId? cs i = some c := by
  obtain ⟨hc, rfl⟩ := Resolution.mem_of_byId? h
  exact find?_of_mem_distinctBy hc

end Chunk

namespace Graph

theorem ofChunks_nodes (chunks : List Chunk) :
    (ofChunks chunks).nodes = (Chunk.distinct chunks).map Chunk.toNode := by
  apply distinctBy_eq_self
  · rw [List.map_map]
    exact nodup_distinctBy chunks []
  · exact fun _ _ => List.not_mem_nil

theorem ofChunks_ids (chunks : List Chunk) :
    (ofChunks chunks).nodes.map Node.id = (chunks.map Chunk.id).eraseDups := by
  rw [ofChunks_nodes, List.map_map]
  exact Chunk.map_id_distinct chunks

end Graph

namespace Inference

open Resolution

/-- Whether one dependency is found before another: in an earlier pass, or in the same one at a
chunk that does not stand behind. -/
def FoundBefore (ids : List String) (d e : Dependency) : Prop :=
  pass d.relationship < pass e.relationship ∨
    (pass d.relationship = pass e.relationship ∧ ids.idxOf d.source ≤ ids.idxOf e.source)

section Passes

variable {chunks : List Chunk} {d : Dependency}

theorem FoundIn.before_of_le {k : Nat} {a b : Chunk} {d e : Dependency} {ids : List String}
    (hd : FoundIn k a d) (he : FoundIn k b e) (h : ids.idxOf a.id ≤ ids.idxOf b.id) :
    FoundBefore ids d e := by
  refine Or.inr ⟨hd.relationship.trans he.relationship.symm, ?_⟩
  rwa [hd.source, he.source]

theorem FoundIn.before_of_lt {k k' : Nat} {a b : Chunk} {d e : Dependency} (ids : List String)
    (hd : FoundIn k a d) (he : FoundIn k' b e) (h : k < k') : FoundBefore ids d e := by
  apply Or.inl
  rwa [hd.relationship, he.relationship]

/-- The passes find their dependencies one after the other, each in the order of the chunks. -/
theorem found_pairwise {ids : List String} (hc : chunks.Pairwise fun c d =>
      ids.idxOf c.id < ids.idxOf d.id) :
    (found chunks).Pairwise (FoundBefore ids) := by
  rw [found_eq, ← List.zipIdx_map_fst 0 (passes chunks), List.flatMap_map]
  apply List.pairwise_flatMap.mpr
  constructor
  · intro pass hk
    apply List.pairwise_flatMap.mpr
    constructor
    · intro c _
      apply List.pairwise_of_forall_mem_list
      exact fun d hd e he => (foundIn_passes hk hd).before_of_le (foundIn_passes hk he)
        (Nat.le_refl _)
    · apply hc.imp
      exact fun hab d hd e he => (foundIn_passes hk hd).before_of_le (foundIn_passes hk he)
        (Nat.le_of_lt hab)
  · have hzip : (passes chunks).zipIdx.Pairwise fun p q => p.2 < q.2 := by
      simp [passes, List.zipIdx_cons]
    apply hzip.imp_of_mem
    intro pass later hk hk' hlt d hd e he
    obtain ⟨c, -, hd⟩ := List.mem_flatMap.mp hd
    obtain ⟨c', -, he⟩ := List.mem_flatMap.mp he
    exact (foundIn_passes hk hd).before_of_lt ids (foundIn_passes hk' he) hlt

theorem keepFirst_sublist (ds : List Dependency) : (keepFirst ds).Sublist ds :=
  (distinctBy_sublist _ []).trans List.filter_sublist

theorem keepFirst_loopless {ds : List Dependency} (h : d ∈ keepFirst ds) : d.source ≠ d.target := by
  have hd := (List.mem_filter.mp ((distinctBy_sublist _ []).subset h)).2
  simpa using hd

end Passes

theorem Acyclic.distinct {chunks : List Chunk} (h : Acyclic chunks) :
    Acyclic (Chunk.distinct chunks) := by
  intro id hid
  apply h id
  refine Relation.TransGen.mono ?_ _ _ hid
  rintro p c ⟨hp, d, hd, hdp⟩
  obtain ⟨q, hq⟩ := Option.isSome_iff_exists.mp hp
  exact ⟨Option.isSome_of_eq_some (Chunk.byId?_distinct hq), d, Chunk.byId?_distinct hd, hdp⟩

theorem acyclic_of_rank {chunks : List Chunk} (rank : String → Nat)
    (h : ∀ c ∈ Chunk.distinct chunks, ∀ p ∈ c.parent, rank p < rank c.id) : Acyclic chunks := by
  have hone : ∀ p c, IsParent chunks p c → rank p < rank c := by
    rintro p c ⟨-, d, hd, hp⟩
    obtain ⟨hm, rfl⟩ := mem_of_byId? hd
    obtain ⟨first, hf, he⟩ := exists_mem_distinctBy hm (List.not_mem_nil (a := d.id))
    have hfirst := find?_of_mem_distinctBy hf
    rw [he] at hfirst
    obtain rfl := Option.some.inj (hfirst.symm.trans hd)
    exact h first hf p hp
  have hall : ∀ p c, Relation.TransGen (IsParent chunks) p c → rank p < rank c := by
    intro p c hpc
    induction hpc with
    | single hpc => exact hone _ _ hpc
    | tail _ hcd ih => exact Nat.lt_trans ih (hone _ _ hcd)
  exact fun id hid => Nat.lt_irrefl _ (hall id id hid)

/-- A graph as the graph of chunks is to be. -/
structure WellFormed (chunks : List Chunk) (g : Graph) : Prop where
  /-- The nodes are the ids as they come up, each with the first chunk that has it. -/
  nodes : g.nodes = ((chunks.map Chunk.id).eraseDups.filterMap (byId? chunks)).map Chunk.toNode
  loopless : ∀ e ∈ g.edges, e.source ≠ e.target
  ends : ∀ e ∈ g.edges, e.source ∈ g.nodes.map Node.id ∧ e.target ∈ g.nodes.map Node.id
  keys : (g.edges.map Dependency.key).Nodup
  known : ∀ e ∈ g.edges, e.relationship ≠ .unknown
  strengths : ∀ e ∈ g.edges, IsStrength e.strength
  ordered : g.edges.Pairwise (FoundBefore (chunks.map Chunk.id))

theorem ofChunks_edges_sublist (chunks : List Chunk) :
    (Graph.ofChunks chunks).edges.Sublist (keepFirst (found (Chunk.distinct chunks))) :=
  List.filter_sublist

theorem mem_strengths {chunks : List Chunk} {e : Dependency}
    (he : e ∈ (Graph.ofChunks chunks).edges) : e.strength ∈ strengths := by
  have hfound := (ofChunks_edges_sublist chunks).trans (keepFirst_sublist _)
  obtain ⟨k, -, c, -, hf⟩ := exists_foundIn (hfound.subset he)
  exact hf.strength

theorem wellFormed_ofChunks (chunks : List Chunk) : WellFormed chunks (Graph.ofChunks chunks) := by
  have hkept := ofChunks_edges_sublist chunks
  have hfound := hkept.trans (keepFirst_sublist _)
  constructor
  · rw [Graph.ofChunks_nodes, Chunk.distinct_eq_firsts]
  · intro e he
    exact keepFirst_loopless (hkept.subset he)
  · intro e he
    rw [Graph.ofChunks_ids, List.mem_eraseDups, List.mem_eraseDups]
    exact ofChunks_ends he
  · exact ofChunks_keys_nodup chunks
  · intro e he hr
    obtain ⟨k, hk, c, -, hf⟩ := exists_foundIn (hfound.subset he)
    rw [← hf.relationship, hr] at hk
    exact absurd hk (by decide)
  · exact fun e he => isStrength_of_mem (mem_strengths he)
  · exact (found_pairwise (pairwise_distinctBy chunks [])).sublist hfound

theorem mem_edges_keys {chunks : List Chunk} (hn : (chunks.map Chunk.id).Nodup)
    {key : String × String × Relationship} :
    key ∈ (Graph.ofChunks chunks).edges.map Dependency.key ↔ ∃ d ∈ found chunks, d.key = key ∧
      d.source ≠ d.target ∧ d.source ∈ chunks.map Chunk.id ∧ d.target ∈ chunks.map Chunk.id := by
  have hids : (chunks.map Chunk.toNode).map Node.id = chunks.map Chunk.id := by
    rw [List.map_map]
    rfl
  rw [Graph.ofChunks, Chunk.distinct_eq_self hn, Graph.ofParts_edges, hids, List.mem_map]
  constructor
  · rintro ⟨d, hd, rfl⟩
    obtain ⟨hd, hends⟩ := List.mem_filter.mp hd
    exact ⟨d, (keepFirst_sublist _).subset hd, rfl, keepFirst_loopless hd, of_decide_eq_true hends⟩
  · rintro ⟨d, hd, rfl, hne, hends⟩
    obtain ⟨e, he, hk⟩ := exists_mem_keepFirst hd hne
    refine ⟨e, List.mem_filter.mpr ⟨he, decide_eq_true ?_⟩, hk⟩
    obtain ⟨hs, hk⟩ := Prod.mk.inj hk
    rw [hs, (Prod.mk.inj hk).1]
    exact hends

/-- The graph of chunks none of which is above itself: every walk to the chunks above one ends, what
is built is well-formed, and chunks whose ids have come up add nothing to it. -/
theorem ofChunks_wellFormed {chunks : List Chunk} (h : Acyclic chunks) :
    (∀ steps i, (Chunk.distinct chunks).length ≤ steps →
      Lineage.chain (parents (Chunk.distinct chunks)) steps i =
        Lineage.ancestors (parents (Chunk.distinct chunks)) i) ∧
      WellFormed chunks (Graph.ofChunks chunks) ∧
      ∀ more : List Chunk, (∀ c ∈ more, c.id ∈ chunks.map Chunk.id) →
        Graph.ofChunks (chunks ++ more) = Graph.ofChunks chunks := by
  refine ⟨?_, wellFormed_ofChunks chunks, ?_⟩
  · intro steps i hsteps
    exact chain_parents (nodup_distinctBy chunks []) (Acyclic.distinct h) hsteps i
  · intro more hmore
    unfold Graph.ofChunks Chunk.distinct
    rw [distinctBy_append_of_mem hmore]

/-- A class around a method that calls itself and uses another class; the last two chunks come up
again. -/
def selfCallingMethod : List Chunk :=
  let file : Chunk :=
    { id := "f", kind := .file, content := "", path := "a.py", startLine := 1, endLine := 4
      language := "python", children := ["c", "d"] }
  let around : Chunk :=
    { id := "c", kind := .container, content := "", path := "a.py", startLine := 1, endLine := 3
      language := "python", name := some "C", parent := some "f", children := ["m", "gone"] }
  let method : Chunk :=
    { id := "m", kind := .member, content := "def run(self):\n  run(D())", path := "a.py"
      startLine := 2, endLine := 3, language := "python", name := some "run", parent := some "c" }
  let other : Chunk :=
    { id := "d", kind := .container, content := "", path := "a.py", startLine := 4, endLine := 4
      language := "python", name := some "D", parent := some "f" }
  [file, around, method, other, method, { around with parent := some "m" }]

theorem ofChunks_wellFormed_selfCallingMethod :
    Acyclic selfCallingMethod ∧
      WellFormed selfCallingMethod (Graph.ofChunks selfCallingMethod) := by
  have h : Acyclic selfCallingMethod :=
    acyclic_of_rank (["f", "c", "m", "d"].idxOf ·) (by decide)
  exact ⟨h, (ofChunks_wellFormed h).2.1⟩

end Inference

end CodeAtlas
