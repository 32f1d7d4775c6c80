import CodeAtlas.Proofs.Graph.NodeLink

/-!
Graphs of chunks that are saved and loaded. Their strengths are read back without a change, their
measures are numbers that can be read, and what is put together from the nodes and dependencies that
are read is the graph again.
-/

namespace CodeAtlas

open Document

namespace Graph

instance (l : Location) : Decidable l.Sized :=
  decidable_of_iff (l.line < UInt64.size ∧ l.column < UInt64.size) ⟨fun h => ⟨h.1, h.2⟩,
  fun h => ⟨h.line, h.column⟩⟩

instance (n : Node) : Decidable n.Sized :=
  decidable_of_iff (n.startLine < UInt64.size ∧ n.endLine < UInt64.size)
    ⟨fun h => ⟨h.1, h.2⟩, fun h => ⟨h.startLine, h.endLine⟩⟩

/-- Whether the counts, lines and columns of a graph are machine words. -/
structure Sized (g : Graph) : Prop where
  nodeCount : g.nodes.length < UInt64.size
  edgeCount : g.edges.length < UInt64.size
  nodes : ∀ n ∈ g.nodes, n.Sized
  places : ∀ e ∈ g.edges, ∀ l ∈ e.locations, l.Sized

/-- The strengths of dependencies are short decimals, which are read back as they are. -/
theorem reread_strength {x : Float} (h : x ∈ Inference.strengths) :
    rereadReal x = x ∧ ∃ y, Takes number (Decimal.writeFloat x) (real y) [] := by
  have hall : ∀ x ∈ Inference.strengths, rereadReal x = x ∧ Double.scale x < 1076 := by
    decide +kernel
  obtain ⟨hreread, hscale⟩ := hall x h
  exact ⟨hreread, takes_writeFloat hscale⟩

theorem Sized.writable_metrics {chunks : List Chunk} (h : (ofChunks chunks).Sized) :
    (ofChunks chunks).metrics.Writable where
  nodeCount := h.nodeCount
  edgeCount := h.edgeCount
  coupling := by
    have hwell := Inference.wellFormed_ofChunks chunks
    exact takes_writeFloat (Metrics.scale_coupling h.nodeCount h.edgeCount
      (length_edges_le hwell.keys hwell.ends))
  cohesion := by
    apply takes_writeFloat
    apply Metrics.scale_cohesion
    rw [length_successors]
    exact h.nodeCount
  dependencyDepth := by
    apply Nat.lt_of_le_of_lt (Metrics.dependencyDepth_le _)
    rw [length_successors]
    exact h.nodeCount

theorem Sized.writable {chunks : List Chunk} (h : (ofChunks chunks).Sized) :
    (ofChunks chunks).toNodeLink.Writable where
  measures := h.writable_metrics
  nodes := h.nodes
  links e he := by
    obtain ⟨hreread, hreal⟩ := reread_strength (Inference.mem_strengths he)
    exact ⟨hreread, hreal, h.places e he⟩

end Graph

namespace IndexedGraph

theorem toNodeLink_ofParts (nodes : List Node) (edges : List Dependency) :
    (ofParts nodes edges).toNodeLink = (Graph.ofParts nodes edges).toNodeLink := by
  unfold toNodeLink
  rw [toGraph_ofParts, metrics_ofParts]
  rfl

theorem ofParts_toGraph (nodes : List Node) (edges : List Dependency) :
    ofParts (Graph.ofParts nodes edges).nodes (Graph.ofParts nodes edges).edges =
      ofParts nodes edges := by
  rw [← toGraph_ofParts]
  exact ofParts_self nodes edges

theorem save_ofChunks (chunks : List Chunk) :
    (ofChunks chunks).save = (Graph.ofChunks chunks).save := by
  unfold save Graph.save ofChunks
  rw [toNodeLink_ofParts]
  rfl

end IndexedGraph

namespace Graph

/-- Whatever text the chunks hold, the graph of chunks is loaded as it was saved: with its nodes,
its dependencies, its index and tables, and the measures that are taken anew from them. -/
theorem load?_save {chunks : List Chunk} (h : (ofChunks chunks).Sized) :
    load? (ofChunks chunks).save = some (ofChunks chunks) ∧
      (IndexedGraph.ofChunks chunks).save = (ofChunks chunks).save ∧
      IndexedGraph.load? (IndexedGraph.ofChunks chunks).save =
          some (IndexedGraph.ofChunks chunks) := by
  obtain ⟨m, hm⟩ := h.writable.exists_parsed
  refine ⟨?_, IndexedGraph.save_ofChunks chunks, ?_⟩
  · unfold load? save
    rw [hm, Option.map_some]
    exact congrArg some (IndexedGraph.ofNodeLink_toNodeLink _ _)
  · rw [IndexedGraph.save_ofChunks]
    unfold IndexedGraph.load? save
    rw [hm, Option.map_some]
    exact congrArg some (IndexedGraph.ofParts_toGraph _ _)

/-- Two methods of a class with names and paths beyond ASCII, one of which calls the other. -/
def measuringMethods : List Chunk :=
  let around : Chunk :=
    { id := "src/größe.py#class:0-90", kind := .container, content := "", path := "src/größe.py"
      startLine := 1, endLine := 5, language := "python", name := some "Größe"
      qualifiedName := some "src.größe.Größe", children := ["\x22測る\x22\n", "🦀"] }
  let caller : Chunk :=
    { id := "\x22測る\x22\n", kind := .member, content := "def 測る(self):\n\treturn check(\x22µ\\\x22)"
      path := "src/größe.py", startLine := 2, endLine := 3, language := "python", name := some "測る"
      parent := some "src/größe.py#class:0-90" }
  let called : Chunk :=
    { id := "🦀", kind := .member, content := "def check(x): return x", path := "src/größe.py"
      startLine := 4, endLine := 4, language := "python", name := some "check"
      parent := some "src/größe.py#class:0-90" }
  [around, caller, called]

theorem load?_save_measuringMethods :
    (ofChunks measuringMethods).edges.map Dependency.key =
        [("src/größe.py#class:0-90", "\x22測る\x22\n", .contains),
          ("src/größe.py#class:0-90", "🦀", .contains), ("\x22測る\x22\n", "🦀", .calls)] ∧
      load? (ofChunks measuringMethods).save = some (ofChunks measuringMethods) ∧
      IndexedGraph.load? (IndexedGraph.ofChunks measuringMethods).save =
        some (IndexedGraph.ofChunks measuringMethods) := by
  have h : (ofChunks measuringMethods).Sized :=
    ⟨by decide +kernel, by decide +kernel, by decide +kernel, by decide +kernel⟩
  obtain ⟨hgraph, -, hindexed⟩ := load?_save h
  exact ⟨by decide +kernel, hgraph, hindexed⟩

end Graph

end CodeAtlas
