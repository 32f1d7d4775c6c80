import CodeAtlas.Proofs.Graph.WellFormed
import CodeAtlas.Proofs.Store.Writing
import CodeAtlas.Store.Read

/-!
Writing the graph of some chunks to a store. What is read back are the dependencies of the graph;
the place of a stored chunk that is a node can be counted off them, and other chunks have no place.
-/

namespace CodeAtlas

theorem Relationship.ofName_label (r : Relationship) : ofName r.label = r := by
  cases r <;> decide

theorem Position.ofFans_eq (fanIn fanOut : Nat) :
    ofFans fanIn fanOut = if fanIn = 0 then .root else if fanOut = 0 then .leaf
      else .intermediate := by
  cases fanIn with
  | zero => rfl
  | succ n => cases fanOut <;> rfl

/-- Whether a place is the one that can be counted off some dependencies. -/
structure Profile.CountedOff (edges : List Dependency) (id : String) (p : Profile) : Prop where
  incoming : p.incomingCount = edges.countP fun e => e.target == id
  outgoing : p.outgoingCount = edges.countP fun e => e.source == id
  dependencies : p.dependencyCount = p.incomingCount + p.outgoingCount
  position : p.position = some (if ∀ e ∈ edges, e.target ≠ id then .root
    else if ∀ e ∈ edges, e.source ≠ id then .leaf else .intermediate)
  related : ∀ r, p.related r = true ↔ ∃ e ∈ edges, e.relationship = r ∧ e.touches id = true

namespace Graph

variable {g : Graph} {id : String}

theorem length_incoming : (g.incoming id).length = g.edges.countP fun e => e.target == id :=
  List.countP_eq_length_filter.symm

theorem length_outgoing : (g.outgoing id).length = g.edges.countP fun e => e.source == id :=
  List.countP_eq_length_filter.symm

theorem length_incoming_eq_zero : (g.incoming id).length = 0 ↔ ∀ e ∈ g.edges, e.target ≠ id := by
  simp [length_incoming, List.countP_eq_zero]

theorem length_outgoing_eq_zero : (g.outgoing id).length = 0 ↔ ∀ e ∈ g.edges, e.source ≠ id := by
  simp [length_outgoing, List.countP_eq_zero]

theorem related_ofEdges (hk : ∀ e ∈ g.edges, e.relationship ≠ .unknown) (r : Relationship) :
    (Profile.ofEdges (g.outgoing id) (g.incoming id)).related r = true ↔
      ∃ e ∈ g.edges, e.relationship = r ∧ e.touches id = true := by
  simp only [Profile.ofEdges, Bool.and_eq_true, bne_iff_ne, List.any_eq_true, List.mem_append,
    outgoing, incoming, List.mem_filter, beq_iff_eq, Dependency.touches, Bool.or_eq_true]
  constructor
  · rintro ⟨-, e, he, hr⟩
    cases he with
    | inl he => exact ⟨e, he.1, hr, Or.inl he.2⟩
    | inr he => exact ⟨e, he.1, hr, Or.inr he.2⟩
  · rintro ⟨e, he, rfl, ht⟩
    refine ⟨hk e he, e, ?_, rfl⟩
    cases ht with
    | inl ht => exact Or.inl ⟨he, ht⟩
    | inr ht => exact Or.inr ⟨he, ht⟩

theorem countedOff_ofEdges (hk : ∀ e ∈ g.edges, e.relationship ≠ .unknown) :
    (Profile.ofEdges (g.outgoing id) (g.incoming id)).CountedOff g.edges id where
  incoming := length_incoming
  outgoing := length_outgoing
  dependencies := rfl
  position := by
    rw [Profile.ofEdges, Position.ofFans_eq]
    simp only [length_incoming_eq_zero, length_outgoing_eq_zero]
  related := related_ofEdges hk

end Graph

namespace Store

open Document

/-- The default place is read back as it is. -/
theorem keptProfile_default : keptProfile {} = {} := by
  have hzero : rereadReal 0.0 = 0.0 := by decide +kernel
  rw [keptProfile, hzero]

theorem profileIn_of_not_contains {g : Graph} {id : String} (h : g.contains id = false) :
    profileIn g id = {} := by
  rw [profileIn, Profile.ofGraph?, h]
  exact keptProfile_default

theorem profileIn_of_contains {g : Graph} {id : String} (h : g.contains id = true) :
    profileIn g id = keptProfile (Profile.ofEdges (g.outgoing id) (g.incoming id)) := by
  rw [profileIn, Profile.ofGraph?, h]
  rfl

/-- The number that is not kept exactly has no part in the counts. -/
theorem countedOff_keptProfile {edges : List Dependency} {id : String} {p : Profile}
    (h : p.CountedOff edges id) : (keptProfile p).CountedOff edges id :=
  ⟨h.incoming, h.outgoing, h.dependencies, h.position, h.related⟩

theorem read_ofEdge (d : Dependency) : (EdgeRow.ofEdge d).read = .ok (keptEdge d) := by
  have hkind : Relationship.ofName d.relationship.label = d.relationship :=
    Relationship.ofName_label _
  unfold EdgeRow.read EdgeRow.ofEdge
  rw [hkind]
  rfl

theorem mapM_read_ofEdge (edges : List Dependency) :
    (edges.map EdgeRow.ofEdge).mapM EdgeRow.read = .ok (edges.map keptEdge) := by
  induction edges with
  | nil => rfl
  | cons d rest ih =>
    rw [List.map_cons, List.mapM_cons, read_ofEdge, ih]
    rfl

/-- The dependencies of chunks have no strength that a column changes. -/
theorem map_keptEdge_ofChunks (chunks : List Chunk) :
    (Graph.ofChunks chunks).edges.map keptEdge = (Graph.ofChunks chunks).edges := by
  have hall : ∀ x ∈ Inference.strengths, keptReal x = x := by decide
  refine (List.map_congr_left fun e he => ?_).trans (List.map_id _)
  show { e with strength := keptReal e.strength } = e
  rw [hall _ (Inference.mem_strengths he)]

/-- All dependencies are read if no condition is given. -/
theorem edges_unfiltered (s : Store) : s.edges {} = s.tables.edges.mapM EdgeRow.read := by
  have hall : s.tables.edges.filter (EdgeFilter.accepts {}) = s.tables.edges :=
    List.filter_eq_self.mpr fun _ _ => rfl
  unfold edges
  rw [hall]
  rfl

def Placed (g : Graph) (c : StoredChunk) : Prop :=
  if g.contains c.chunk.id then c.profile.CountedOff g.edges c.chunk.id else c.profile = {}

theorem placed_profileIn (chunks : List Chunk) (c : Chunk) :
    Placed (.ofChunks chunks) ⟨c, profileIn (.ofChunks chunks) c.id⟩ := by
  unfold Placed
  split
  · rename_i h
    rw [profileIn_of_contains h]
    exact countedOff_keptProfile
      (Graph.countedOff_ofEdges (Inference.wellFormed_ofChunks chunks).known)
  · rename_i h
    exact profileIn_of_not_contains (by simpa using h)

/-- Writing a graph again changes nothing, whatever the graph and the store. -/
theorem sync_sync (s : Store) (g : Graph) : (s.sync g).sync g = s.sync g := by
  have hchunks : (s.sync g).tables.chunks.map
      (fun r => { r with profile := profileIn g r.chunk.id }) = (s.sync g).tables.chunks := by
    show List.map _ (List.map _ _) = List.map _ _
    rw [List.map_map]
    rfl
  show ({ s.sync g with
    tables? := some { (s.sync g).tables with
      chunks := (s.sync g).tables.chunks.map fun r => { r with profile := profileIn g r.chunk.id } }
      } : Store) = _
  rw [hchunks]
  rfl

/-- After the graph of some chunks is written, its dependencies are read back as they are and in
order, every row differs from the row it was in nothing but the place of its chunk, which can be
counted off the dependencies or is the default one, and writing the graph again changes nothing. -/
theorem sync_ofChunks (s : Store) (chunks : List Chunk) :
    (s.sync (.ofChunks chunks)).edges {} = .ok (Graph.ofChunks chunks).edges ∧
      List.Forall₂ (fun old r : ChunkRow => r = { old with profile := r.profile } ∧
          Placed (.ofChunks chunks) r.toStoredChunk)
        s.tables.chunks (s.sync (.ofChunks chunks)).tables.chunks ∧
      (∀ id c, (s.sync (.ofChunks chunks)).chunk? id = .ok (some c) → Placed (.ofChunks chunks) c) ∧
      (s.sync (.ofChunks chunks)).sync (.ofChunks chunks) = s.sync (.ofChunks chunks) := by
  have hrows : (s.sync (.ofChunks chunks)).tables.chunks =
      s.tables.chunks.map fun r => { r with profile := profileIn (.ofChunks chunks) r.chunk.id } :=
        rfl
  refine ⟨?_, ?_, ?_, ?_⟩
  · have hedges : (s.sync (.ofChunks chunks)).tables.edges =
        (Graph.ofChunks chunks).edges.map EdgeRow.ofEdge :=
      Tables.putEdges_empty (Inference.ofChunks_keys_nodup chunks)
    rw [edges_unfiltered, hedges, mapM_read_ofEdge, map_keptEdge_ofChunks]
  · rw [hrows]
    apply List.forall₂_map_right_iff.mpr
    apply List.forall₂_same.mpr
    intro r _
    exact ⟨rfl, placed_profileIn chunks r.chunk⟩
  · intro id c hc
    unfold chunk? at hc
    split at hc
    · exact absurd hc nofun
    · rename_i r hfind
      have hr := List.mem_of_find?_eq_some hfind
      rw [hrows] at hr
      obtain ⟨old, -, rfl⟩ := List.mem_map.mp hr
      have hread : c = ⟨old.chunk, profileIn (.ofChunks chunks) old.chunk.id⟩ := by
        unfold ChunkRow.read at hc
        split at hc
        · exact (Option.some.inj (Except.ok.inj hc)).symm
        · exact absurd hc nofun
      rw [hread]
      exact placed_profileIn chunks old.chunk
  · exact sync_sync s _

end Store

end CodeAtlas
