import CodeAtlas.Proofs.Chunk.Metadata
import CodeAtlas.Proofs.Document.Real
import CodeAtlas.Proofs.Graph.Measures
import CodeAtlas.Store.Damage

/-!
The columns of a store that hold documents as text. What is read from the texts that are written for
a chunk and its place is what they were, but for real numbers and for metadata that is nested deeper
than the reader goes.
-/

namespace CodeAtlas

open Document

namespace Document

theorem texts?_ofTexts (texts : List String) : texts? (ofTexts texts) = some texts := by
  induction texts with
  | nil => rfl
  | cons s texts ih =>
    have hrest : (texts.map text).mapM text? = some texts := ih
    show (text s :: texts.map text).mapM text? = _
    rw [List.mapM_cons, hrest]
    rfl

theorem legible_ofTexts (k : Nat) (texts : List String) : Legible (k + 1) (ofTexts texts) := by
  apply Legible.list
  intro d hd
  obtain ⟨s, -, rfl⟩ := List.mem_map.mp hd
  exact .text k s

theorem legible_ofText? (k : Nat) (s : Option String) : Legible k (ofText? s) := by
  cases s with
  | none => exact .null k
  | some s => exact .text k s

theorem reread_ofText? (s : Option String) : reread (ofText? s) = ofText? s := by
  cases s <;> rfl

theorem legible_ofNat {n : Nat} (h : n < UInt64.size) (k : Nat) : Legible k (ofNat n) := by
  apply Legible.integer
  simp only [inIntegerRange, Bool.and_eq_true, decide_eq_true_eq]
  omega

theorem size?_ofNat {n : Nat} (h : n < UInt64.size) : size? (ofNat n) = some n := by
  have hn : (decide (0 ≤ (n : Int)) && decide ((n : Int) < UInt64.size)) = true := by
    simp only [Bool.and_eq_true, decide_eq_true_eq]
    omega
  unfold size? ofNat
  dsimp only
  rw [if_pos hn, Int.toNat_natCast]

/-- A value is decoded from the text that is written for it. -/
theorem decodeOr_render {α : Type} {default a : α} {decode : Document → Option α} {d : Document}
    (h : Legible nestingLimit d) (ha : decode (reread d) = some a) :
    decodeOr default decode (some d.render) = a := by
  unfold decodeOr
  rw [Option.bind_some, parse?_render h, Option.bind_some, ha, Option.getD_some]

/-- A default stands for what is nested too deep. -/
theorem decodeOr_render_of_deep {α : Type} {default : α} {decode : Document → Option α}
    {d : Document} {k : Nat} (h : Legible k d) (hd : nestingLimit < d.depth) :
    decodeOr default decode (some d.render) = default := by
  unfold decodeOr
  rw [Option.bind_some, parse?_render_eq_none h hd]
  rfl

namespace Fields

variable {fs : Fields} {name : String}

theorem defaulted_given {α : Type} {default a : α} {decode : Document → Option α} {d : Document}
    (h : fs.lookup name = some (.given d)) (ha : decode d = some a) :
    fs.defaulted name default decode = some a := by
  unfold defaulted
  rw [h]
  exact ha

theorem optionalOrCut_ofText? {α : Type} {decode : Document → Option α} {write : α → String}
    {a : Option α} (h : fs.lookup name = some (.given (ofText? (a.map write))))
    (ha : ∀ x, decode (text (write x)) = some x) : fs.optionalOrCut name decode = some a := by
  unfold optionalOrCut
  rw [h]
  cases a with
  | none => rfl
  | some x => exact congrArg (Option.map some) (ha x)

end Fields

end Document

namespace Declaration

theorem legible_toDocument (k : Nat) (d : Declaration) : Legible (k + 2) d.toDocument := by
  apply Legible.record
  simp [legible_ofText?, legible_ofTexts]

theorem reread_toDocument (d : Declaration) : reread d.toDocument = d.toDocument := by
  simp [toDocument, reread, rereadFields, reread_ofText?, Metadata.reread_ofTexts]

def slots (d : Declaration) : Fields :=
  [("package", .given (ofText? (d.package.map id))), ("imports", .given (ofTexts d.imports)),
    ("extends", .given (ofText? (d.base.map id))), ("implements", .given (ofTexts d.interfaces)),
    ("parameters", .given (ofTexts d.parameters)),
    ("return_type", .given (ofText? (d.returnType.map id)))]

theorem fields_toDocument (d : Declaration) :
    Fields.ofDocument? declared d.toDocument = some d.slots := by
  simp [toDocument, Fields.ofDocument?, declared, Fields.slotOf, slots]

/-- A declaration is decoded as it was written. -/
theorem ofDocument?_toDocument (d : Declaration) : ofDocument? d.toDocument = some d := by
  have htext : ∀ s, text? (text (id s)) = some s := fun _ => rfl
  unfold ofDocument?
  refine Option.bind_eq_some_iff.mpr ⟨_, d.fields_toDocument, ?_⟩
  refine Option.bind_eq_some_iff.mpr ⟨_, Fields.optionalOrCut_ofText? rfl htext, ?_⟩
  refine Option.bind_eq_some_iff.mpr ⟨_, Fields.defaulted_given rfl (texts?_ofTexts _), ?_⟩
  refine Option.bind_eq_some_iff.mpr ⟨_, Fields.optionalOrCut_ofText? rfl htext, ?_⟩
  refine Option.bind_eq_some_iff.mpr ⟨_, Fields.defaulted_given rfl (texts?_ofTexts _), ?_⟩
  refine Option.bind_eq_some_iff.mpr ⟨_, Fields.defaulted_given rfl (texts?_ofTexts _), ?_⟩
  exact Option.bind_eq_some_iff.mpr ⟨_, Fields.optionalOrCut_ofText? rfl htext, rfl⟩

end Declaration

namespace Profile

variable {p : Profile}

/-- Whether what is written for a place can be read: the counts fit in 64 bits, the instability is
written as a number, and the relationship without a field is not taken part in. -/
structure Writable (p : Profile) : Prop where
  dependencies : p.dependencyCount < UInt64.size
  incoming : p.incomingCount < UInt64.size
  outgoing : p.outgoingCount < UInt64.size
  instability : ∃ x, Takes number (Decimal.writeFloat p.instability) (real x) []
  unknown : p.related .unknown = false

theorem writable_default : ({} : Profile).Writable where
  dependencies := by decide
  incoming := by decide
  outgoing := by decide
  instability := takes_writeFloat (by decide)
  unknown := rfl

theorem writable_ofEdges {outgoing incoming : List Dependency}
    (h : (ofEdges outgoing incoming).dependencyCount < UInt64.size) :
    (ofEdges outgoing incoming).Writable where
  dependencies := h
  incoming := Nat.lt_of_le_of_lt (Nat.le_add_right _ _) h
  outgoing := Nat.lt_of_le_of_lt (Nat.le_add_left _ _) h
  instability := takes_writeFloat (Metrics.scale_instability h)
  unknown := rfl

/-- The place of an id in a graph can be read from what is written for it unless there are too many
dependencies. -/
theorem writable_ofGraph? {g : Graph} {id : String}
    (h : ((ofGraph? g id).getD {}).dependencyCount < UInt64.size) :
    ((ofGraph? g id).getD {}).Writable := by
  by_cases hg : g.contains id = true
  · rw [ofGraph?, if_pos hg, Option.getD_some] at h ⊢
    exact writable_ofEdges h
  · rw [ofGraph?, if_neg hg]
    exact writable_default

theorem Writable.legible (h : p.Writable) (k : Nat) : Legible (k + 1) p.toDocument := by
  apply Legible.record
  obtain ⟨x, hx⟩ := h.instability
  have hreal : Legible k (real p.instability) := .real k hx
  have hboolean : ∀ b, Legible k (boolean b) := .boolean k
  simp [relationFields, legible_ofNat, legible_ofText?, h.dependencies, h.incoming, h.outgoing,
    hreal, hboolean]

def slots (p : Profile) : Fields :=
  [("dependency_count", .given (ofNat p.dependencyCount)),
    ("incoming_count", .given (ofNat p.incomingCount)),
    ("outgoing_count", .given (ofNat p.outgoingCount)),
    ("graph_position", .given (ofText? (p.position.map Position.label))),
    ("instability", .given (real (rereadReal p.instability)))] ++
    relationFields.map fun f => (f.2, .given (boolean (p.related f.1)))

theorem fields_reread (p : Profile) :
    Fields.ofDocument? declared (reread p.toDocument) = some p.slots := by
  simp [toDocument, Fields.ofDocument?, declared, Fields.slotOf, relationFields, reread,
    rereadFields, reread_ofText?, ofNat, slots]

theorem related_slots (p : Profile) : (relationFields.mapM fun f => do
    return (f.1, ← p.slots.defaulted f.2 false boolean?)) =
      some (relationFields.map fun f => (f.1, p.related f.1)) :=
  rfl

/-- A place is decoded as it is kept. -/
theorem Writable.ofDocument?_reread (h : p.Writable) :
    ofDocument? (reread p.toDocument) = some (Store.keptProfile p) := by
  have hlabel : ∀ q : Position, choice? Position.ofLabel? (text q.label) = some q := by
    intro q
    cases q <;> rfl
  unfold ofDocument?
  refine Option.bind_eq_some_iff.mpr ⟨_, fields_reread p, ?_⟩
  refine Option.bind_eq_some_iff.mpr ⟨_, related_slots p, ?_⟩
  refine Option.bind_eq_some_iff.mpr ⟨_, Fields.defaulted_given rfl (size?_ofNat h.dependencies),
    ?_⟩
  refine Option.bind_eq_some_iff.mpr ⟨_, Fields.defaulted_given rfl (size?_ofNat h.incoming), ?_⟩
  refine Option.bind_eq_some_iff.mpr ⟨_, Fields.defaulted_given rfl (size?_ofNat h.outgoing), ?_⟩
  refine Option.bind_eq_some_iff.mpr ⟨_, Fields.optionalOrCut_ofText? rfl hlabel, ?_⟩
  refine Option.bind_eq_some_iff.mpr ⟨_, Fields.defaulted_given rfl rfl, ?_⟩
  have hrelated : (fun r => ((relationFields.map fun f => (f.1, p.related f.1)).lookup r).getD
      false) = p.related := by
    funext r
    cases r with
    | unknown => exact h.unknown.symm
    | _ => rfl
  rw [hrelated]
  rfl

end Profile

namespace Store

namespace Column

theorem texts_render (texts : List String) :
    Column.texts (some (ofTexts texts).render) = texts := by
  rw [Column.texts]
  apply decodeOr_render (legible_ofTexts 126 texts)
  rw [Metadata.reread_ofTexts]
  exact texts?_ofTexts texts

theorem declaration_render (d : Declaration) : declaration (some d.toDocument.render) = d := by
  rw [declaration]
  apply decodeOr_render (d.legible_toDocument 125)
  rw [d.reread_toDocument]
  exact d.ofDocument?_toDocument

theorem profile_render {p : Profile} (h : p.Writable) :
    profile (some p.toDocument.render) = keptProfile p := by
  rw [profile]
  exact decodeOr_render (h.legible 126) h.ofDocument?_reread

variable {m : Metadata}

theorem metadata_render (h : m.Lasting) : metadata (some (record m).render) = m := by
  have hlegible : Legible nestingLimit (record m) :=
    (h.proper.legible h.withoutReals).of_depth_le h.depth
  rw [metadata]
  apply decodeOr_render hlegible
  rw [Metadata.ofDocument?_reread h.proper]
  exact congrArg some (record.inj h.withoutReals.reread_eq)

/-- Of metadata that is nested too deep nothing is left. -/
theorem metadata_render_of_deep (hproper : Proper (record m)) (hreals : WithoutReals (record m))
    (hdeep : nestingLimit < (record m).depth) : metadata (some (record m).render) = [] := by
  rw [metadata]
  exact decodeOr_render_of_deep (hproper.legible hreals) hdeep

end Column

variable {c : Chunk}

/-- All of a chunk is read back as it was but for its metadata. -/
theorem keptChunk_eq (c : Chunk) :
    keptChunk c = { c with metadata := Column.metadata (some (record c.metadata).render) } := by
  simp only [keptChunk, Column.declaration_render, Column.texts_render]

theorem keptChunk_of_lasting (h : c.metadata.Lasting) : keptChunk c = c := by
  rw [keptChunk_eq, Column.metadata_render h]

theorem keptChunk_of_deep (hproper : Proper (record c.metadata))
    (hreals : WithoutReals (record c.metadata)) (hdeep : nestingLimit < (record c.metadata).depth) :
    keptChunk c = { c with metadata := [] } := by
  rw [keptChunk_eq, Column.metadata_render_of_deep hproper hreals hdeep]

/-- The place of a chunk is kept as it is read from what is written for it. -/
theorem profileIn_eq {g : Graph} {id : String}
    (h : ((Profile.ofGraph? g id).getD {}).dependencyCount < UInt64.size) :
    profileIn g id = Column.profile (some ((Profile.ofGraph? g id).getD {}).toDocument.render) :=
  (Column.profile_render (Profile.writable_ofGraph? h)).symm

/-- The columns of a row that hold documents as text, with the documents that are written there. -/
def writtenColumns (c : Chunk) (p : Profile) : List (String × Document) :=
  [("context", c.declaration.toDocument), ("metadata", record c.metadata),
    ("children_ids", ofTexts c.children),
    ("reference_ids", ofTexts c.references), ("referenced_by_ids", ofTexts c.referencedBy),
    ("graph_metadata", p.toDocument)]

/-- A row stays the same when the text that was written for one of its columns is put there
again. -/
theorem overwrite_writtenColumns {p : Profile} {r : ChunkRow} (hp : p.Writable)
    (hr : r.toStoredChunk = ⟨keptChunk c, keptProfile p⟩) :
    ∀ e ∈ writtenColumns c p, r.overwrite e.1 (some e.2.render) = some r := by
  obtain ⟨⟨chunk, profile⟩, key, spoiled⟩ := r
  obtain ⟨rfl, rfl⟩ := StoredChunk.mk.inj hr
  simp only [writtenColumns, List.forall_mem_cons, ChunkRow.overwrite, ChunkRow.overwriteOptional,
    keptChunk_eq, Column.declaration_render, Column.texts_render, Column.profile_render hp,
    Option.some_or, true_and]
  exact nofun

end Store

end CodeAtlas
