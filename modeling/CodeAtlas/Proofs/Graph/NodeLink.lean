import CodeAtlas.Graph.Indexed
import CodeAtlas.Proofs.Document.Real
import CodeAtlas.Proofs.Graph.Indexed
import CodeAtlas.Proofs.Graph.Measures
import CodeAtlas.Proofs.Store.Columns

/-!
Graphs that are saved and loaded. The nodes and the dependencies of an export are decoded as they
were written, field by field, when their numbers fit in 64 bits and their strengths do not change as
they are read back. Of the measures it only matters that they can be read, as they are taken anew.
-/

namespace CodeAtlas

open Document

namespace Document

/-- Whether a value is decoded as it was written, when what is written for it may be nested so
deep. -/
structure RoundTrips {α : Type} (k : Nat) (write : α → Document) (decode : Document → Option α)
    (a : α) : Prop where
  legible : Legible k (write a)
  decoded : decode (reread (write a)) = some a

theorem RoundTrips.list {α : Type} {k : Nat} {write : α → Document} {decode : Document → Option α}
    {as : List α} (h : ∀ a ∈ as, RoundTrips k write decode a) :
    RoundTrips (k + 1) (fun as => .list (as.map write)) (listOf? decode) as where
  legible := by
    apply Legible.list
    intro d hd
    obtain ⟨a, ha, rfl⟩ := List.mem_map.mp hd
    exact (h a ha).legible
  decoded := by
    rw [reread, rereadItems_eq]
    show ((as.map write).map reread).mapM decode = some as
    induction as with
    | nil => rfl
    | cons a as ih =>
      have hrest := ih fun b hb => h b (List.mem_cons_of_mem a hb)
      rw [List.map_cons, List.map_cons, List.mapM_cons, (h a List.mem_cons_self).decoded, hrest]
      rfl

namespace Fields

variable {fs : Fields} {name : String} {d : Document}

theorem required_given {α : Type} {a : α} {decode : Document → Option α}
    (h : fs.lookup name = some (.given d)) (ha : decode d = some a) :
    fs.required name decode = some a := by
  unfold required
  rw [h]
  exact ha

theorem optional_ofText? {s : Option String} (h : fs.lookup name = some (.given (ofText? s))) :
    fs.optional name text? = some s := by
  unfold optional
  rw [h]
  cases s <;> rfl

end Fields

end Document

namespace Location

structure Sized (l : Location) : Prop where
  line : l.line < UInt64.size
  column : l.column < UInt64.size

def slots (l : Location) : Fields :=
  [("line", .given (ofNat l.line)), ("column", .given (ofNat l.column)),
  ("snippet", .given (text l.snippet))]

theorem fields_reread (l : Location) :
    Fields.ofDocument? declared (reread l.toDocument) = some l.slots := by
  simp [toDocument, Fields.ofDocument?, declared, Fields.slotOf, reread, rereadFields, ofNat, slots]

theorem Sized.roundTrips {l : Location} (h : l.Sized) (k : Nat) :
    RoundTrips (k + 1) toDocument ofDocument? l where
  legible := by
    apply Legible.record
    simp [legible_ofNat, h.line, h.column, Legible.text]
  decoded := by
    unfold ofDocument?
    refine Option.bind_eq_some_iff.mpr ⟨_, fields_reread l, ?_⟩
    refine Option.bind_eq_some_iff.mpr ⟨_, Fields.required_given rfl (size?_ofNat h.line), ?_⟩
    refine Option.bind_eq_some_iff.mpr ⟨_, Fields.required_given rfl (size?_ofNat h.column), ?_⟩
    exact Option.bind_eq_some_iff.mpr ⟨_, Fields.required_given rfl rfl, rfl⟩

end Location

namespace Dependency

/-- Whether the places of a dependency fit in 64 bits and its strength is read back from what is
written for it. -/
structure Writable (d : Dependency) : Prop where
  strength : rereadReal d.strength = d.strength
  real : ∃ x, Takes number (Decimal.writeFloat d.strength) (real x) []
  locations : ∀ l ∈ d.locations, l.Sized

def slots (d : Dependency) : Fields :=
  [("source", .given (text d.source)), ("target", .given (text d.target)),
    ("type", .given (text d.relationship.label)),
    ("strength", .given (.real (rereadReal d.strength))),
    ("is_direct", .given (boolean d.direct)), ("is_required", .given (boolean d.required)),
    ("description", .given (text d.description)),
    ("locations", .given (reread (list (d.locations.map Location.toDocument))))]

theorem fields_reread (d : Dependency) :
    Fields.ofDocument? declared (reread d.toDocument) = some d.slots := by
  simp [toDocument, Fields.ofDocument?, declared, Fields.slotOf, reread, rereadFields, slots]

theorem Writable.roundTrips {d : Dependency} (h : d.Writable) (k : Nat) :
    RoundTrips (k + 3) toDocument ofDocument? d := by
  have hlocations := RoundTrips.list fun l hl => (h.locations l hl).roundTrips k
  have hlabel : choice? Relationship.ofLabel? (text d.relationship.label) =
      some d.relationship := by
    cases d.relationship <;> rfl
  constructor
  · apply Legible.record
    obtain ⟨x, hx⟩ := h.real
    have hreal : Legible (k + 2) (.real d.strength) := .real (k + 2) hx
    have hboolean : ∀ b, Legible (k + 2) (boolean b) := .boolean (k + 2)
    simp [hlocations.legible, hreal, hboolean, Legible.text]
  · unfold ofDocument?
    refine Option.bind_eq_some_iff.mpr ⟨_, fields_reread d, ?_⟩
    refine Option.bind_eq_some_iff.mpr ⟨_, Fields.required_given rfl rfl, ?_⟩
    refine Option.bind_eq_some_iff.mpr ⟨_, Fields.required_given rfl rfl, ?_⟩
    refine Option.bind_eq_some_iff.mpr ⟨_, Fields.required_given rfl hlabel, ?_⟩
    refine Option.bind_eq_some_iff.mpr ⟨_, Fields.required_given rfl rfl, ?_⟩
    refine Option.bind_eq_some_iff.mpr ⟨_, Fields.required_given rfl rfl, ?_⟩
    refine Option.bind_eq_some_iff.mpr ⟨_, Fields.required_given rfl rfl, ?_⟩
    refine Option.bind_eq_some_iff.mpr ⟨_, Fields.defaulted_given rfl rfl, ?_⟩
    refine Option.bind_eq_some_iff.mpr ⟨_, Fields.defaulted_given rfl hlocations.decoded, ?_⟩
    rw [h.strength]
    rfl

end Dependency

namespace Node

structure Sized (n : Node) : Prop where
  startLine : n.startLine < UInt64.size
  endLine : n.endLine < UInt64.size

def slots (n : Node) : Fields :=
  [("id", .given (text n.id)), ("chunk_type", .given (text n.kind.label)),
    ("name", .given (ofText? n.name)),
    ("qualified_name", .given (ofText? n.qualifiedName)), ("file_path", .given (text n.path)),
    ("start_line", .given (ofNat n.startLine)), ("end_line", .given (ofNat n.endLine)),
    ("language", .given (text n.language)), ("is_interface", .given (boolean n.isInterface))]

theorem fields_reread (n : Node) :
    Fields.ofDocument? declared (reread n.toDocument) = some n.slots := by
  simp [toDocument, Fields.ofDocument?, declared, Fields.slotOf, reread, rereadFields,
    reread_ofText?, ofNat, slots]

theorem Sized.roundTrips {n : Node} (h : n.Sized) (k : Nat) :
    RoundTrips (k + 1) toDocument ofDocument? n := by
  have hlabel : ChunkKind.ofDocument? (text n.kind.label) = some n.kind := by
    cases n.kind <;> rfl
  constructor
  · apply Legible.record
    have hboolean : ∀ b, Legible k (boolean b) := .boolean k
    simp [legible_ofNat, legible_ofText?, h.startLine, h.endLine, hboolean, Legible.text]
  · unfold ofDocument?
    refine Option.bind_eq_some_iff.mpr ⟨_, fields_reread n, ?_⟩
    refine Option.bind_eq_some_iff.mpr ⟨_, Fields.required_given rfl rfl, ?_⟩
    refine Option.bind_eq_some_iff.mpr ⟨_, Fields.required_given rfl hlabel, ?_⟩
    refine Option.bind_eq_some_iff.mpr ⟨_, Fields.optional_ofText? rfl, ?_⟩
    refine Option.bind_eq_some_iff.mpr ⟨_, Fields.optional_ofText? rfl, ?_⟩
    refine Option.bind_eq_some_iff.mpr ⟨_, Fields.required_given rfl rfl, ?_⟩
    refine Option.bind_eq_some_iff.mpr ⟨_, Fields.required_given rfl (size?_ofNat h.startLine), ?_⟩
    refine Option.bind_eq_some_iff.mpr ⟨_, Fields.required_given rfl (size?_ofNat h.endLine), ?_⟩
    refine Option.bind_eq_some_iff.mpr ⟨_, Fields.required_given rfl rfl, ?_⟩
    exact Option.bind_eq_some_iff.mpr ⟨_, Fields.defaulted_given rfl rfl, rfl⟩

end Node

namespace Metrics

structure GraphMetrics.Writable (m : GraphMetrics) : Prop where
  nodeCount : m.nodeCount < UInt64.size
  edgeCount : m.edgeCount < UInt64.size
  coupling : ∃ x, Takes number (Decimal.writeFloat m.coupling) (real x) []
  cohesion : ∃ x, Takes number (Decimal.writeFloat m.cohesion) (real x) []
  dependencyDepth : m.dependencyDepth < UInt64.size

variable {m : GraphMetrics}

theorem roundTrips_ofTexts (k : Nat) (texts : List String) :
    RoundTrips (k + 1) ofTexts texts? texts where
  legible := legible_ofTexts k texts
  decoded := by rw [Metadata.reread_ofTexts, texts?_ofTexts]

theorem GraphMetrics.Writable.legible (h : m.Writable) (k : Nat) :
    Legible (k + 3) m.toDocument := by
  apply Legible.record
  obtain ⟨x, hx⟩ := h.coupling
  obtain ⟨y, hy⟩ := h.cohesion
  have hcoupling : Legible (k + 2) (real m.coupling) := .real (k + 2) hx
  have hcohesion : Legible (k + 2) (real m.cohesion) := .real (k + 2) hy
  have hcycles :=
    (RoundTrips.list fun (c : List String) (_ : c ∈ m.cycles) => roundTrips_ofTexts k c).legible
  simp [legible_ofNat, h.nodeCount, h.edgeCount, h.dependencyDepth, hcoupling, hcohesion, hcycles]

def GraphMetrics.slots (m : GraphMetrics) : Fields :=
  [("node_count", .given (ofNat m.nodeCount)), ("edge_count", .given (ofNat m.edgeCount)),
    ("coupling", .given (real (rereadReal m.coupling))),
    ("cohesion", .given (real (rereadReal m.cohesion))),
    ("dependency_depth", .given (ofNat m.dependencyDepth)),
    ("cyclic_dependencies", .given (reread (list (m.cycles.map ofTexts))))]

theorem GraphMetrics.fields_reread (m : GraphMetrics) :
    Fields.ofDocument? declared (reread m.toDocument) = some m.slots := by
  simp [toDocument, Fields.ofDocument?, declared, Fields.slotOf, reread, rereadFields, ofNat, slots]

/-- The measures are read, with the last bit of the real ones maybe changed. -/
theorem GraphMetrics.Writable.exists_decoded (h : m.Writable) :
    ∃ m', ofDocument? (reread m.toDocument) = some m' := by
  have hcycles :=
    (RoundTrips.list fun (c : List String) (_ : c ∈ m.cycles) => roundTrips_ofTexts 0 c).decoded
  refine ⟨⟨m.nodeCount, m.edgeCount, rereadReal m.coupling, rereadReal m.cohesion,
    m.dependencyDepth, m.cycles⟩, ?_⟩
  unfold ofDocument?
  refine Option.bind_eq_some_iff.mpr ⟨_, fields_reread m, ?_⟩
  refine Option.bind_eq_some_iff.mpr ⟨_, Fields.required_given rfl (size?_ofNat h.nodeCount), ?_⟩
  refine Option.bind_eq_some_iff.mpr ⟨_, Fields.required_given rfl (size?_ofNat h.edgeCount), ?_⟩
  refine Option.bind_eq_some_iff.mpr ⟨_, Fields.required_given rfl rfl, ?_⟩
  refine Option.bind_eq_some_iff.mpr ⟨_, Fields.required_given rfl rfl, ?_⟩
  refine Option.bind_eq_some_iff.mpr ⟨_, Fields.required_given rfl (size?_ofNat h.dependencyDepth),
    ?_⟩
  exact Option.bind_eq_some_iff.mpr ⟨_, Fields.required_given rfl hcycles, rfl⟩

end Metrics

namespace NodeLink

structure Writable (l : NodeLink) : Prop where
  measures : l.measures.Writable
  nodes : ∀ n ∈ l.nodes, n.Sized
  links : ∀ e ∈ l.links, e.Writable

def slots (l : NodeLink) : Fields :=
  [("directed", .given (boolean l.directed)), ("multigraph", .given (boolean l.multigraph)),
    ("graph", .given (reread l.measures.toDocument)),
    ("nodes", .given (reread (list (l.nodes.map Node.toDocument)))),
    ("links", .given (reread (list (l.links.map Dependency.toDocument))))]

theorem fields_reread (l : NodeLink) :
    Fields.ofDocument? declared (reread l.toDocument) = some l.slots := by
  simp [toDocument, Fields.ofDocument?, declared, Fields.slotOf, reread, rereadFields, slots]

variable {l : NodeLink}

theorem Writable.legible (h : l.Writable) : Legible nestingLimit l.toDocument := by
  apply Legible.record (k := 126)
  have hnodes := (RoundTrips.list fun n hn => (h.nodes n hn).roundTrips 124).legible
  have hlinks := (RoundTrips.list fun e he => (h.links e he).roundTrips 122).legible
  have hmeasures := h.measures.legible 123
  have hboolean : ∀ b, Legible 126 (boolean b) := .boolean 126
  simp [hnodes, hlinks, hmeasures, hboolean]

/-- An export is decoded with the same nodes and links. -/
theorem Writable.exists_decoded (h : l.Writable) :
    ∃ m, ofDocument? (reread l.toDocument) = some { l with measures := m } := by
  have hnodes := (RoundTrips.list fun n hn => (h.nodes n hn).roundTrips 0).decoded
  have hlinks := (RoundTrips.list fun e he => (h.links e he).roundTrips 0).decoded
  obtain ⟨m, hm⟩ := h.measures.exists_decoded
  refine ⟨m, ?_⟩
  unfold ofDocument?
  refine Option.bind_eq_some_iff.mpr ⟨_, fields_reread l, ?_⟩
  refine Option.bind_eq_some_iff.mpr ⟨_, Fields.required_given rfl rfl, ?_⟩
  refine Option.bind_eq_some_iff.mpr ⟨_, Fields.required_given rfl rfl, ?_⟩
  refine Option.bind_eq_some_iff.mpr ⟨_, Fields.defaulted_given rfl hm, ?_⟩
  refine Option.bind_eq_some_iff.mpr ⟨_, Fields.required_given rfl hnodes, ?_⟩
  exact Option.bind_eq_some_iff.mpr ⟨_, Fields.required_given rfl hlinks, rfl⟩

/-- The text of an export is read as an export with the same nodes and links. -/
theorem Writable.exists_parsed (h : l.Writable) :
    ∃ m, (parse? l.toDocument.renderIndented).bind ofDocument? = some { l with measures := m } := by
  obtain ⟨m, hm⟩ := h.exists_decoded
  exact ⟨m, by rw [parse?_renderIndented h.legible, Option.bind_some, hm]⟩

end NodeLink

end CodeAtlas
