import CodeAtlas.Proofs.Store.Tables

/-!
What the writes to a store do to what it holds.
-/

namespace CodeAtlas.Store

namespace Tables

def stored (g : Graph) (entry : Chunk × Embedding) : StoredChunk × Embedding :=
  (⟨keptChunk entry.1, profileIn g entry.1.id⟩, entry.2)

section PutAll

variable {g : Graph} {t after : Tables}

theorem putAll_ok (h : t.Sound) (entries : List (Chunk × Embedding))
    (hv : ∀ e ∈ entries, e.2.length = t.width) :
    ∃ after, entries.foldlM (putWithVector g) t = .ok after := by
  induction entries generalizing t with
  | nil => exact ⟨t, rfl⟩
  | cons e rest ih =>
    obtain ⟨next, he, hw⟩ := putWithVector_written h g e (hv e List.mem_cons_self)
    obtain ⟨after, ha⟩ :=
      ih hw.sound fun d hd => (hv d (List.mem_cons_of_mem e hd)).trans hw.width.symm
    refine ⟨after, ?_⟩
    rw [List.foldlM_cons, he]
    exact ha

/-- What is held after several writes comes from one of them or was held before. -/
structure AllWritten (g : Graph) (t : Tables) (entries : List (Chunk × Embedding))
    (after : Tables) : Prop where
  sound : after.Sound
  width : after.width = t.width
  files : after.files = t.files
  holds : ∀ d w, after.Holds d w → (d, w) ∈ entries.map (stored g) ∨ t.Holds d w
  holds_iff : (entries.map fun e => e.1.id).Nodup → ∀ d w, after.Holds d w ↔
    (d, w) ∈ entries.map (stored g) ∨ (t.Holds d w ∧ d.chunk.id ∉ entries.map fun e => e.1.id)

theorem putAll_steps {e : Chunk × Embedding} {rest : List (Chunk × Embedding)} (h : t.Sound)
    (ha : (e :: rest).foldlM (putWithVector g) t = .ok after) :
    ∃ next, t.Written ⟨keptChunk e.1, profileIn g e.1.id⟩ e.2 next ∧
      rest.foldlM (putWithVector g) next = .ok after := by
  rw [List.foldlM_cons] at ha
  cases he : t.putWithVector g e with
  | error err =>
    rw [he] at ha
    exact absurd ha nofun
  | ok next =>
    rw [he] at ha
    obtain ⟨next', he', hw⟩ := putWithVector_written h g e (length_of_putWithVector g e he)
    obtain rfl := Except.ok.inj (he.symm.trans he')
    exact ⟨next, hw, ha⟩

/-- The entries whose ids do not come again behind them. -/
def lastWrites : List (Chunk × Embedding) → List (Chunk × Embedding)
  | [] => []
  | e :: rest =>
    if e.1.id ∈ rest.map (fun d => d.1.id) then lastWrites rest else e :: lastWrites rest

theorem lastWrites_sublist (entries : List (Chunk × Embedding)) :
    (lastWrites entries).Sublist entries := by
  induction entries with
  | nil => exact List.Sublist.refl _
  | cons e rest ih =>
    rw [lastWrites]
    split
    · exact ih.cons e
    · exact ih.cons_cons e

theorem exists_lastWrite {entries : List (Chunk × Embedding)} {id : String}
    (h : id ∈ entries.map fun e => e.1.id) : ∃ e ∈ lastWrites entries, e.1.id = id := by
  induction entries with
  | nil => exact absurd h List.not_mem_nil
  | cons e rest ih =>
    rw [lastWrites]
    split
    · rename_i hm
      rcases List.mem_cons.mp h with rfl | h
      · exact ih hm
      · exact ih h
    · rcases List.mem_cons.mp h with rfl | h
      · exact ⟨e, List.mem_cons_self, rfl⟩
      · obtain ⟨d, hd, he⟩ := ih h
        exact ⟨d, List.mem_cons_of_mem e hd, he⟩

theorem lastWrites_eq_self {entries : List (Chunk × Embedding)}
    (h : (entries.map fun e => e.1.id).Nodup) : lastWrites entries = entries := by
  induction entries with
  | nil => rfl
  | cons e rest ih =>
    rw [List.map_cons, List.nodup_cons] at h
    rw [lastWrites, if_neg h.1, ih h.2]

/-- After several writes the last one of each id is held, and what was held before under other
ids. -/
theorem putAll_holds (h : t.Sound) {entries : List (Chunk × Embedding)}
    (ha : entries.foldlM (putWithVector g) t = .ok after) (d : StoredChunk) (w : Embedding) :
    after.Holds d w ↔ (d, w) ∈ (lastWrites entries).map (stored g) ∨
      (t.Holds d w ∧ d.chunk.id ∉ entries.map fun e => e.1.id) := by
  induction entries generalizing t with
  | nil =>
    obtain rfl := Except.ok.inj ha
    simp [lastWrites]
  | cons e rest ih =>
    obtain ⟨next, hw, hr⟩ := putAll_steps h ha
    rw [ih hw.sound hr, hw.holds, lastWrites, List.map_cons, List.mem_cons, not_or]
    split
    · rename_i hm
      constructor
      · rintro (hd | ⟨⟨rfl, rfl⟩ | ⟨hd, hne⟩, hnr⟩)
        · exact Or.inl hd
        · exact absurd hm hnr
        · exact Or.inr ⟨hd, hne, hnr⟩
      · rintro (hd | ⟨hd, hne, hnr⟩)
        · exact Or.inl hd
        · exact Or.inr ⟨Or.inr ⟨hd, hne⟩, hnr⟩
    · rename_i hm
      rw [List.map_cons, List.mem_cons]
      constructor
      · rintro (hd | ⟨⟨rfl, rfl⟩ | ⟨hd, hne⟩, hnr⟩)
        · exact Or.inl (Or.inr hd)
        · exact Or.inl (Or.inl rfl)
        · exact Or.inr ⟨hd, hne, hnr⟩
      · rintro ((hd | hd) | ⟨hd, hne, hnr⟩)
        · obtain ⟨rfl, rfl⟩ := Prod.mk.inj hd
          exact Or.inr ⟨Or.inl ⟨rfl, rfl⟩, hm⟩
        · exact Or.inl hd
        · exact Or.inr ⟨Or.inr ⟨hd, hne⟩, hnr⟩

theorem putAll_frame (h : t.Sound) {entries : List (Chunk × Embedding)}
    (ha : entries.foldlM (putWithVector g) t = .ok after) :
    after.Sound ∧ after.width = t.width ∧ after.files = t.files := by
  induction entries generalizing t with
  | nil =>
    obtain rfl := Except.ok.inj ha
    exact ⟨h, rfl, rfl⟩
  | cons e rest ih =>
    obtain ⟨next, hw, hr⟩ := putAll_steps h ha
    obtain ⟨hsound, hwidth, hfiles⟩ := ih hw.sound hr
    exact ⟨hsound, hwidth.trans hw.width, hfiles.trans hw.files⟩

theorem putAll_written (h : t.Sound) {entries : List (Chunk × Embedding)}
    (ha : entries.foldlM (putWithVector g) t = .ok after) : AllWritten g t entries after := by
  obtain ⟨hsound, hwidth, hfiles⟩ := putAll_frame h ha
  refine ⟨hsound, hwidth, hfiles, fun d w hd => ?_, fun hn d w => ?_⟩
  · rcases (putAll_holds h ha d w).mp hd with hd | ⟨hd, -⟩
    · exact Or.inl (((lastWrites_sublist entries).map (stored g)).subset hd)
    · exact Or.inr hd
  · rw [putAll_holds h ha, lastWrites_eq_self hn]

theorem Sound.putEdges (h : t.Sound) (edges : List Dependency) : (t.putEdges edges).Sound :=
  h.congr rfl rfl rfl rfl

theorem AllWritten.putEdges {entries : List (Chunk × Embedding)} (h : AllWritten g t entries after)
    (edges : List Dependency) : AllWritten g t entries (after.putEdges edges) :=
  ⟨h.sound.putEdges edges, h.width, h.files, h.holds, h.holds_iff⟩

theorem allWritten_nil (h : t.Sound) : AllWritten g t [] t :=
  putAll_written h rfl

end PutAll

def isOf (t : Tables) (path : String) (key : Nat) : Bool :=
  (t.chunks.filter fun r => r.chunk.path == path).any fun r => r.key == key

def removeFile (t : Tables) (path : String) : Tables :=
  { t with
    slots := freeSlots (t.isOf path) t.slots
    edges := t.edges.filter fun e =>
      !(t.chunks.filter fun r => r.chunk.path == path).any fun r => e.edge.touches r.chunk.id
    chunks := t.chunks.filter fun r => r.chunk.path != path
    files := t.files.filter fun f => f.1 != path }

section RemoveFile

variable {t : Tables} {path : String}

theorem isOf_key (h : t.Sound) {r : ChunkRow} (hr : r ∈ t.chunks) :
    t.isOf path r.key = (r.chunk.path == path) := by
  rw [Bool.eq_iff_iff, isOf, List.any_eq_true]
  constructor
  · rintro ⟨d, hd, he⟩
    obtain ⟨hd, hp⟩ := List.mem_filter.mp hd
    rwa [← h.row_eq_of_key hd hr (by simpa using he)]
  · intro hp
    exact ⟨r, List.mem_filter.mpr ⟨hr, hp⟩, by simp⟩

theorem filled_removeFile :
    filled (t.removeFile path).slots = (filled t.slots).filter fun s => !t.isOf path s.key :=
  filled_freeSlots (t.isOf path) t.slots

theorem removeFile_sound (h : t.Sound) : (t.removeFile path).Sound := by
  have hsub : (t.removeFile path).chunks.Sublist t.chunks := List.filter_sublist
  constructor
  · exact h.ids.sublist (hsub.map _)
  · exact h.keys.sublist (hsub.map _)
  · exact fun r hr => h.fresh r (hsub.subset hr)
  · have hrows : (t.removeFile path).chunks.map ChunkRow.key =
        (t.chunks.map ChunkRow.key).filter fun key => !t.isOf path key := by
      rw [List.filter_map]
      apply congrArg
      apply List.filter_congr
      intro r hr
      rw [Function.comp, isOf_key h hr]
      rfl
    have hslots := h.slots.filter fun key => !t.isOf path key
    rw [List.filter_map] at hslots
    rw [hrows, filled_removeFile]
    exact hslots
  · intro s hs
    rw [filled_removeFile] at hs
    exact h.widths s (List.mem_of_mem_filter hs)
  · exact fun r hr => h.readable r (hsub.subset hr)

theorem removeFile_holds (h : t.Sound) (d : StoredChunk) (w : Embedding) :
    (t.removeFile path).Holds d w ↔ t.Holds d w ∧ d.chunk.path ≠ path := by
  unfold Holds
  rw [filled_removeFile]
  constructor
  · rintro ⟨r, hr, rfl, hs⟩
    obtain ⟨hr, hp⟩ := List.mem_filter.mp hr
    exact ⟨⟨r, hr, rfl, List.mem_of_mem_filter hs⟩, by simpa using hp⟩
  · rintro ⟨⟨r, hr, rfl, hs⟩, hp⟩
    refine ⟨r, List.mem_filter.mpr ⟨hr, by simpa using hp⟩, rfl, List.mem_filter.mpr ⟨hs, ?_⟩⟩
    rw [isOf_key h hr]
    simpa using hp

end RemoveFile

section Edges

variable {rows : List EdgeRow}

theorem putRow_new {row : EdgeRow} (h : ∀ r ∈ rows, r.key ≠ row.key) :
    putRow row rows = rows ++ [row] := by
  induction rows with
  | nil => rfl
  | cons r rest ih =>
    have hr : r.key ≠ row.key := h r List.mem_cons_self
    rw [putRow, if_neg (by simpa using hr), ih fun d hd => h d (List.mem_cons_of_mem r hd)]
    rfl

/-- Dependencies with different keys are written one after the other. -/
theorem foldl_putRow {edges : List Dependency}
    (h : ((rows ++ edges.map EdgeRow.ofEdge).map EdgeRow.key).Nodup) :
    edges.foldl (fun rows d => putRow (EdgeRow.ofEdge d) rows) rows =
      rows ++ edges.map EdgeRow.ofEdge := by
  induction edges generalizing rows with
  | nil => simp
  | cons d rest ih =>
    rw [List.map_cons, List.append_cons] at h ⊢
    have hd : ∀ r ∈ rows, r.key ≠ (EdgeRow.ofEdge d).key := by
      have hn := (List.nodup_append.mp (List.map_append ▸ h)).1
      rw [List.map_append] at hn
      intro r hr
      exact (List.nodup_append.mp hn).2.2 r.key (List.mem_map_of_mem hr) _ (by simp)
    rw [List.foldl_cons, putRow_new hd]
    exact ih h

theorem label_inj {r r' : Relationship} (h : r.label = r'.label) : r = r' := by
  cases r <;> cases r' <;> first | rfl | exact absurd h (by decide)

def rowKey (k : String × String × Relationship) : String × String × String :=
  (k.1, k.2.1, k.2.2.label)

theorem rowKey_injective : Function.Injective rowKey := by
  intro k k' h
  obtain ⟨hs, h⟩ := Prod.mk.inj h
  obtain ⟨ht, hl⟩ := Prod.mk.inj h
  exact Prod.ext hs (Prod.ext ht (label_inj hl))

theorem ofEdge_keys (edges : List Dependency) :
    (edges.map EdgeRow.ofEdge).map EdgeRow.key = (edges.map Dependency.key).map rowKey := by
  rw [List.map_map, List.map_map]
  rfl

theorem ofEdge_keys_nodup {edges : List Dependency} (h : (edges.map Dependency.key).Nodup) :
    ((edges.map EdgeRow.ofEdge).map EdgeRow.key).Nodup := by
  rw [ofEdge_keys]
  exact h.map rowKey_injective

theorem putEdges_empty {t : Tables} {edges : List Dependency}
    (h : (edges.map Dependency.key).Nodup) :
    ({ t with edges := [] }.putEdges edges).edges = edges.map EdgeRow.ofEdge :=
  foldl_putRow (ofEdge_keys_nodup h)

end Edges

def place (t : Tables) (g : Graph) : Tables :=
  { t with chunks := t.chunks.map fun r => { r with profile := profileIn g r.chunk.id } }

section Place

variable {t : Tables} {g : Graph}

theorem place_sound (h : t.Sound) : (t.place g).Sound := by
  have hids : (t.place g).chunks.map (fun r => r.chunk.id) = t.chunks.map fun r => r.chunk.id :=
    List.map_map
  have hkeys : (t.place g).chunks.map ChunkRow.key = t.chunks.map ChunkRow.key := List.map_map
  constructor
  · exact hids ▸ h.ids
  · exact hkeys ▸ h.keys
  · intro r hr
    obtain ⟨d, hd, rfl⟩ := List.mem_map.mp hr
    exact h.fresh d hd
  · exact hkeys ▸ h.slots
  · exact h.widths
  · intro r hr
    obtain ⟨d, hd, rfl⟩ := List.mem_map.mp hr
    exact h.readable d hd

theorem place_holds (d : StoredChunk) (w : Embedding) :
    (t.place g).Holds d w ↔
      ∃ old, t.Holds old w ∧ d = ⟨old.chunk, profileIn g old.chunk.id⟩ := by
  constructor
  · rintro ⟨r, hr, rfl, hs⟩
    obtain ⟨old, hold, rfl⟩ := List.mem_map.mp hr
    exact ⟨old.toStoredChunk, ⟨old, hold, rfl, hs⟩, rfl⟩
  · rintro ⟨-, ⟨r, hr, rfl, hs⟩, rfl⟩
    exact ⟨_, List.mem_map_of_mem hr, rfl, hs⟩

end Place

end Tables

section Stores

variable {s : Store} {g : Graph} {path : String}

theorem ofDimensions_eq {dimensions : Nat} (h : Store.ofDimensions dimensions = .ok s) :
    s = { dimensions } := by
  unfold Store.ofDimensions at h
  split at h
  · exact absurd h nofun
  · exact (Except.ok.inj h).symm

theorem deleteFile_eq (s : Store) (path : String) :
    (s.deleteFile path).2.tables = s.tables.removeFile path ∧
      (s.deleteFile path).2.dimensions = s.dimensions := by
  obtain ⟨dimensions, tables?⟩ := s
  cases tables? with
  | none => exact ⟨rfl, rfl⟩
  | some t => exact ⟨rfl, rfl⟩

theorem sync_tables (s : Store) (g : Graph) :
    (s.sync g).tables = ({ s.tables with edges := [] }.putEdges g.edges).place g :=
  rfl

/-- What a successful insertion does. -/
theorem insert_steps {s' : Store} {chunks : List Chunk} {vectors : List Embedding}
    (h : s.insert chunks vectors g = .ok s') :
    (chunks = [] ∧ s' = s) ∨ ∃ t, (chunks.zip vectors).foldlM (Tables.putWithVector g)
      s.tables = .ok t ∧
      s' = { s with tables? := some (t.putEdges (g.edges.filter fun e => chunks.any fun c =>
          e.touches c.id)) } := by
  unfold insert at h
  split at h
  · exact absurd h nofun
  · split at h
    · exact absurd h nofun
    · split at h
      · rename_i hempty
        exact Or.inl ⟨List.isEmpty_iff.mp hempty, (Except.ok.inj h).symm⟩
      · cases ht : (chunks.zip vectors).foldlM (Tables.putWithVector g) s.tables with
        | error e =>
          rw [ht] at h
          exact absurd h nofun
        | ok t =>
          rw [ht] at h
          exact Or.inr ⟨t, rfl, (Except.ok.inj h).symm⟩

theorem insert_written {s' : Store} {chunks : List Chunk} {vectors : List Embedding}
    (hs : s.tables.Sound) (h : s.insert chunks vectors g = .ok s') :
    s'.dimensions = s.dimensions ∧ s.tables.AllWritten g (chunks.zip vectors) s'.tables := by
  rcases insert_steps h with ⟨rfl, rfl⟩ | ⟨t, ht, rfl⟩
  · exact ⟨rfl, Tables.allWritten_nil hs⟩
  · exact ⟨rfl, (Tables.putAll_written hs ht).putEdges _⟩

theorem insert_holds {s' : Store} {chunks : List Chunk} {vectors : List Embedding}
    (hs : s.tables.Sound) (h : s.insert chunks vectors g = .ok s') (d : StoredChunk)
    (w : Embedding) :
    s'.tables.Holds d w ↔ (d, w) ∈ (Tables.lastWrites (chunks.zip vectors)).map (Tables.stored g) ∨
      (s.tables.Holds d w ∧ d.chunk.id ∉ (chunks.zip vectors).map fun e => e.1.id) := by
  rcases insert_steps h with ⟨rfl, rfl⟩ | ⟨t, ht, rfl⟩
  · exact Tables.putAll_holds hs rfl d w
  · exact Tables.putAll_holds hs ht d w

/-- Chunks are written if there are as many embeddings, all of the length that the store and its
tables expect. -/
theorem insert_ok {chunks : List Chunk} {vectors : List Embedding} (hs : s.tables.Sound)
    (hlen : chunks.length = vectors.length)
    (hv : ∀ v ∈ vectors, v.length = s.dimensions ∧ v.length = s.tables.width) :
    ∃ s', s.insert chunks vectors g = .ok s' := by
  have hfind : vectors.find? (fun v => v.length != s.dimensions) = none := by
    rw [List.find?_eq_none]
    intro v hm
    simpa using (hv v hm).1
  have hzip : ∀ e ∈ chunks.zip vectors, e.2.length = s.tables.width :=
    fun e he => (hv e.2 (List.of_mem_zip he).2).2
  obtain ⟨t, ht⟩ := Tables.putAll_ok (g := g) hs (chunks.zip vectors) hzip
  unfold insert
  rw [if_neg (by simp [hlen]), hfind]
  dsimp only
  split
  · exact ⟨s, rfl⟩
  · rw [ht]
    exact ⟨_, rfl⟩

end Stores

end CodeAtlas.Store
