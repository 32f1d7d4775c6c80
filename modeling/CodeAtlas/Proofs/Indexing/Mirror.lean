import Mathlib.Data.List.Flatten
import CodeAtlas.Proofs.Graph.Parts
import CodeAtlas.Proofs.Indexing.Extraction
import CodeAtlas.Proofs.Indexing.Run

/-!
What a run leaves of a folder all of whose files could be read: the files that it stores, those that
it leaves alone, and nothing of others.
-/

namespace CodeAtlas.Indexing

open Store

def storedOf (s : Store) (path : String) : List Chunk :=
  (s.tables.chunks.filter fun r => r.chunk.path == path).map fun r => r.chunk

/-- Whether all files with their recorded times are stored as they are now. -/
def UpToDate (s : Store) (x : Extraction) : Prop :=
  ∀ f ∈ x.files, ∀ time, s.fileTime? f.path = some time → time.seconds = f.modified.seconds →
    ∀ c, c ∈ storedOf s f.path ↔ c ∈ f.chunks

def placeIn (g : Graph) (id : String) : Profile :=
  keptProfile (Profile.ofEdges (g.outgoing id) (g.incoming id))

/-- Whether a store holds what has been read of a folder, and nothing else. -/
structure Mirrors (embed : Embedder) (x : Extraction) (s : Store) : Prop where
  tables : s.hasTables = true
  sound : s.tables.Sound
  files : (s.files.map Prod.fst).Perm (x.files.map FileChunks.path)
  times : ∀ f ∈ x.files, ∃ time, s.fileTime? f.path = some time ∧ time.seconds = f.modified.seconds
  entries : ∃ vectors, embed.embedAll (x.chunks.map Chunk.embeddingText) = .ok vectors ∧
    s.tables.entries.Perm ((x.chunks.zip vectors).map fun e =>
      (⟨e.1, placeIn (Graph.ofChunks x.chunks) e.1.id⟩, [e.2]))
  edges : s.tables.edges = (Graph.ofChunks x.chunks).edges.map EdgeRow.ofEdge

section Lookup

variable {α : Type} {path : String} {a : α} {files : List (String × α)}

theorem lookup_eq_some (h : (files.map Prod.fst).Nodup) :
    files.lookup path = some a ↔ (path, a) ∈ files := by
  induction files with
  | nil => simp
  | cons f rest ih =>
    obtain ⟨p, b⟩ := f
    rw [List.map_cons, List.nodup_cons] at h
    rw [List.lookup_cons, List.mem_cons, Prod.mk.injEq]
    by_cases hp : path = p
    · subst hp
      have hr : (path, a) ∉ rest := fun hm => h.1 (List.mem_map.mpr ⟨(path, a), hm, rfl⟩)
      rw [beq_self_eq_true]
      simp [hr, eq_comm]
    · rw [beq_false_of_ne hp]
      simp [ih h.2, hp]

end Lookup

section Files

variable {embed : Embedder} {s : Store} {path : String} {time : Instant}

theorem fileTime?_eq_some (hs : Kept embed s) :
    s.fileTime? path = some time ↔ (path, time) ∈ s.tables.files :=
  lookup_eq_some hs.paths

theorem lookup_files (hs : Kept embed s) : s.files.lookup path = s.fileTime? path := by
  have hperm : s.files.Perm s.tables.files := List.mergeSort_perm _ _
  have hn : (s.files.map Prod.fst).Nodup := (hperm.map Prod.fst).nodup_iff.mpr hs.paths
  apply Option.ext
  intro time
  rw [lookup_eq_some hn, fileTime?_eq_some hs, hperm.mem_iff]

theorem changeOf_eq_skipped (hs : Kept embed s) {force : Bool} {f : FileChunks}
    (h : changeOf s.files force f = .skipped) :
    ∃ time, s.fileTime? f.path = some time ∧ time.seconds = f.modified.seconds := by
  unfold changeOf at h
  rw [lookup_files hs] at h
  split at h
  · exact absurd h nofun
  · rename_i time ht
    split at h
    · rename_i hc
      rw [Bool.and_eq_true, beq_iff_eq] at hc
      exact ⟨time, ht, hc.2⟩
    · exact absurd h nofun

end Files

section Mirror

variable {embed : Embedder} {force : Bool} {x : Extraction} {s s' : Store} {summary : Summary}

def storedFiles (s : Store) (force : Bool) (x : Extraction) : List FileChunks :=
  x.files.filter fun f => changeOf s.files force f != .skipped

theorem mem_goneFiles_iff {path : String} : path ∈ goneFiles s.files x ↔
    path ∈ s.files.map Prod.fst ∧ path ∉ x.files.map FileChunks.path ++ x.failed := by
  rw [goneFiles, List.mem_filter, List.mem_append, not_or]
  simp [List.any_eq_false]

theorem mem_goneFiles (hx : Complete x) {path : String} :
    path ∈ goneFiles s.files x ↔
      path ∈ s.files.map Prod.fst ∧ path ∉ x.files.map FileChunks.path := by
  rw [mem_goneFiles_iff, hx.failed, List.append_nil]

theorem mem_files {path : String} :
    path ∈ s.files.map Prod.fst ↔ path ∈ s.tables.files.map Prod.fst :=
  ((List.mergeSort_perm s.tables.files _).map Prod.fst).mem_iff

theorem Complete.mem_chunks {c : Chunk} {f : FileChunks} (hf : f ∈ x.files) (hc : c ∈ f.chunks) :
    c ∈ x.chunks :=
  List.mem_flatMap.mpr ⟨f, hf, hc⟩

theorem Complete.chunk_eq (hx : Complete x) {c c' : Chunk} (hc : c ∈ x.chunks) (hc' : c' ∈ x.chunks)
    (he : c.id = c'.id) : c = c' :=
  List.inj_on_of_nodup_map hx.ids hc hc' he

theorem storedFiles_sublist : (storedFiles s force x).Sublist x.files := List.filter_sublist

theorem storedFiles_paths (hx : Complete x) : ((storedFiles s force x).map FileChunks.path).Nodup :=
  hx.paths.sublist (storedFiles_sublist.map _)

theorem storedFiles_ids (hx : Complete x) :
    (((storedFiles s force x).flatMap FileChunks.chunks).map Chunk.id).Nodup :=
  hx.ids.sublist ((storedFiles_sublist.flatMap _).map _)

/-- A file that is not stored has its path in no stored one. -/
theorem PathsApart.not_stored (hp : PathsApart x) {f : FileChunks} (hf : f ∈ x.files)
    (hn : f ∉ storedFiles s force x) : f.path ∉ (storedFiles s force x).map FileChunks.path := by
  intro hm
  obtain ⟨d, hd, he⟩ := List.mem_map.mp hm
  exact hn (hp.file_eq (storedFiles_sublist.subset hd) hf he ▸ hd)

theorem id_not_mem_storedFiles (hx : Complete x) {f : FileChunks} (hf : f ∈ x.files)
    (hn : f ∉ storedFiles s force x) {c : Chunk} (hc : c ∈ f.chunks) :
    c.id ∉ ((storedFiles s force x).flatMap FileChunks.chunks).map Chunk.id := by
  intro hm
  obtain ⟨d, hd, he⟩ := List.mem_map.mp hm
  obtain ⟨f', hf', hd⟩ := List.mem_flatMap.mp hd
  have hf'x := storedFiles_sublist.subset hf'
  obtain rfl := hx.chunk_eq (Complete.mem_chunks hf'x hd) (Complete.mem_chunks hf hc) he
  have hp : f'.path = f.path := (hx.carried f' hf'x d hd).symm.trans (hx.carried f hf d hc)
  exact hn (hx.pathsApart.file_eq hf'x hf hp ▸ hf')

theorem skipped_of_not_mem {f : FileChunks} (hf : f ∈ x.files) (hn : f ∉ storedFiles s force x) :
    changeOf s.files force f = .skipped := by
  by_contra hne
  exact hn (List.mem_filter.mpr ⟨hf, by simpa using hne⟩)

/-- What a run on a complete folder leaves before the graph is written. -/
structure Swept (embed : Embedder) (force : Bool) (x : Extraction) (s swept : Store) : Prop where
  kept : Kept embed swept
  dimensions : swept.dimensions = s.dimensions
  embeds : ∀ f ∈ storedFiles s force x, ∀ c ∈ f.chunks, ∃ v, embed c.embeddingText = .ok v
  files : ∀ path time, (path, time) ∈ swept.tables.files ↔
    (∃ f ∈ storedFiles s force x, f.path = path ∧ f.modified = time) ∨
      ((path, time) ∈ s.tables.files ∧ ∃ f ∈ x.files, f.path = path ∧ f ∉ storedFiles s force x)
  holds : ∀ d v, swept.tables.Holds d v ↔
    ComesFrom embed (Graph.ofChunks x.chunks) ((storedFiles s force x).flatMap FileChunks.chunks)
        d v ∨
      (s.tables.Holds d v ∧ ∃ f ∈ x.files, f.path = d.chunk.path ∧ f ∉ storedFiles s force x ∧
        d.chunk.id ∉ ((storedFiles s force x).flatMap FileChunks.chunks).map Chunk.id)

theorem retained_nil (s : Store) : retained s [] = .ok [] := rfl

section Sweep

variable {g : Graph} {stored swept : Store}

theorem swept_files (hx : Complete x) (hall : FilesStored embed g s (storedFiles s force x) stored)
    (hgone : FilesRemoved embed stored (goneFiles s.files x) swept) (path : String)
    (time : Instant) : (path, time) ∈ swept.tables.files ↔
      (∃ f ∈ storedFiles s force x, f.path = path ∧ f.modified = time) ∨
        ((path, time) ∈ s.tables.files ∧ ∃ f ∈ x.files, f.path = path ∧
            f ∉ storedFiles s force x) := by
  rw [hgone.mem_files hall (storedFiles_paths hx), mem_goneFiles hx, mem_files]
  constructor
  · rintro ⟨hst | ⟨hp, hm⟩, hg⟩
    · exact Or.inl hst
    · have hpx : path ∈ x.files.map FileChunks.path := by
        by_contra hn
        exact hg ⟨List.mem_map_of_mem hm, hn⟩
      obtain ⟨f, hf, rfl⟩ := List.mem_map.mp hpx
      exact Or.inr ⟨hm, f, hf, rfl, fun hfs => hp (List.mem_map_of_mem hfs)⟩
  · rintro (⟨f, hf, rfl, rfl⟩ | ⟨hm, f, hf, rfl, hn⟩)
    · refine ⟨Or.inl ⟨f, hf, rfl, rfl⟩, fun hg => hg.2 ?_⟩
      exact List.mem_map_of_mem (storedFiles_sublist.subset hf)
    · exact ⟨Or.inr ⟨hx.pathsApart.not_stored hf hn, hm⟩, fun hg => hg.2 (List.mem_map_of_mem hf)⟩

theorem swept_holds (hs : Kept embed s) (hx : Complete x)
    (hall : FilesStored embed g s (storedFiles s force x) stored)
    (hgone : FilesRemoved embed stored (goneFiles s.files x) swept) (d : StoredChunk)
    (v : Embedding) : swept.tables.Holds d v ↔
      ComesFrom embed g ((storedFiles s force x).flatMap FileChunks.chunks) d v ∨
        (s.tables.Holds d v ∧ ∃ f ∈ x.files, f.path = d.chunk.path ∧ f ∉ storedFiles s force x ∧
          d.chunk.id ∉ ((storedFiles s force x).flatMap FileChunks.chunks).map Chunk.id) := by
  rw [hgone.holds, hall.holds (storedFiles_paths hx) (storedFiles_ids hx),
    mem_goneFiles hx, mem_files]
  constructor
  · rintro ⟨hd | ⟨hd, hp, hi⟩, hg⟩
    · exact Or.inl hd
    · have hpx : d.chunk.path ∈ x.files.map FileChunks.path := by
        by_contra hn
        exact hg ⟨hs.recorded d v hd, hn⟩
      obtain ⟨f, hf, he⟩ := List.mem_map.mp hpx
      exact Or.inr ⟨hd, f, hf, he, fun hfs => hp (he ▸ List.mem_map_of_mem hfs), hi⟩
  · rintro (hd | ⟨hd, f, hf, he, hn, hi⟩)
    · refine ⟨Or.inl hd, fun hg => hg.2 ?_⟩
      obtain ⟨c, hc, rfl, -⟩ := hd
      obtain ⟨f, hf, hc⟩ := List.mem_flatMap.mp hc
      have hfx := storedFiles_sublist.subset hf
      show c.path ∈ _
      rw [hx.carried f hfx c hc]
      exact List.mem_map_of_mem hfx
    · refine ⟨Or.inr ⟨hd, he ▸ hx.pathsApart.not_stored hf hn, hi⟩, fun hg => hg.2 ?_⟩
      exact he ▸ List.mem_map_of_mem hf

theorem run_swept (hs : Kept embed s) (hx : Complete x)
    (h : run embed force x s = (s', .ok summary)) :
    ∃ swept, Swept embed force x s swept ∧ s' = swept.sync (Graph.ofChunks x.chunks) := by
  obtain ⟨old, stored, hold, hstored, rfl, -⟩ := run_steps h
  rw [hx.failed, retained_nil] at hold
  obtain rfl := Except.ok.inj hold
  rw [List.append_nil] at hstored ⊢
  have hall := storeFiles_stored hs (fun f hf => hx.carried f (storedFiles_sublist.subset hf))
    hstored
  have hgone := removeFiles_removed hall.kept (goneFiles s.files x)
  exact ⟨_, ⟨hgone.kept, hgone.dimensions.trans hall.dimensions, hall.embeds,
    swept_files hx hall hgone, swept_holds hs hx hall hgone⟩, rfl⟩

end Sweep

theorem mem_storedOf {c : Chunk} {path : String} :
    c ∈ storedOf s path ↔ c.path = path ∧ ∃ r ∈ s.tables.chunks, r.chunk = c := by
  rw [storedOf, List.mem_map]
  constructor
  · rintro ⟨r, hr, rfl⟩
    obtain ⟨hr, hp⟩ := List.mem_filter.mp hr
    exact ⟨by simpa using hp, r, hr, rfl⟩
  · rintro ⟨rfl, r, hr, rfl⟩
    exact ⟨r, List.mem_filter.mpr ⟨hr, by simp⟩, rfl⟩

/-- A chunk of a file that is left alone is held already. -/
theorem holds_of_not_stored (hs : Kept embed s) (hu : UpToDate s x) {f : FileChunks}
    (hf : f ∈ x.files) (hn : f ∉ storedFiles s force x) {c : Chunk} (hc : c ∈ f.chunks) :
    ∃ d v, s.tables.Holds d v ∧ d.chunk = c ∧ c.path = f.path ∧ embed c.embeddingText = .ok v := by
  obtain ⟨time, ht, hsec⟩ := changeOf_eq_skipped hs (skipped_of_not_mem hf hn)
  obtain ⟨hp, r, hr, rfl⟩ := mem_storedOf.mp ((hu f hf time ht hsec c).mpr hc)
  obtain ⟨v, hold⟩ := hs.sound.exists_holds hr
  exact ⟨_, _, hold, rfl, hp, hs.embedded _ _ hold⟩

/-- What is held of a file that is left alone is a chunk of the file. -/
theorem mem_of_holds (hs : Kept embed s) (hu : UpToDate s x) {f : FileChunks} (hf : f ∈ x.files)
    (hn : f ∉ storedFiles s force x) {d : StoredChunk} {v : Embedding} (hd : s.tables.Holds d v)
    (hp : d.chunk.path = f.path) : d.chunk ∈ f.chunks := by
  obtain ⟨time, ht, hsec⟩ := changeOf_eq_skipped hs (skipped_of_not_mem hf hn)
  obtain ⟨r, hr, rfl, -⟩ := hd
  exact (hu f hf time ht hsec r.chunk).mp (mem_storedOf.mpr ⟨hp, r, hr, rfl⟩)

/-- What is held in the end, whichever files were stored. -/
theorem holds_after_run (hs : Kept embed s) (hx : Complete x) (hu : UpToDate s x) {swept : Store}
    (h : Swept embed force x s swept) (d : StoredChunk) (v : Embedding) :
    (swept.sync (Graph.ofChunks x.chunks)).tables.Holds d v ↔
      ComesFrom embed (Graph.ofChunks x.chunks) x.chunks d v := by
  rw [sync_tables, Tables.place_holds]
  constructor
  · rintro ⟨old, hold, rfl⟩
    rcases (h.holds old v).mp hold with ⟨c, hc, rfl, hcv⟩ | ⟨hold, f, hf, he, hn, -⟩
    · obtain ⟨f, hf, hc⟩ := List.mem_flatMap.mp hc
      exact ⟨c, Complete.mem_chunks (storedFiles_sublist.subset hf) hc, rfl, hcv⟩
    · have hcx := Complete.mem_chunks hf (mem_of_holds hs hu hf hn hold he.symm)
      refine ⟨old.chunk, hcx, ?_, hs.embedded old v hold⟩
      rw [hx.kept _ hcx]
  · rintro ⟨c, hc, rfl, hcv⟩
    obtain ⟨f, hf, hc⟩ := List.mem_flatMap.mp hc
    by_cases hfs : f ∈ storedFiles s force x
    · refine ⟨⟨keptChunk c, profileIn (Graph.ofChunks x.chunks) c.id⟩, ?_, rfl⟩
      exact (h.holds _ v).mpr (Or.inl ⟨c, List.mem_flatMap.mpr ⟨f, hfs, hc⟩, rfl, hcv⟩)
    · obtain ⟨d, w, hold, rfl, hp, hdw⟩ := holds_of_not_stored hs hu hf hfs hc
      obtain rfl := Except.ok.inj (hcv.symm.trans hdw)
      refine ⟨d, (h.holds _ _).mpr (Or.inr ⟨hold, f, hf, hp.symm, hfs, ?_⟩), ?_⟩
      · exact id_not_mem_storedFiles hx hf hfs hc
      · rw [hx.kept _ (Complete.mem_chunks hf hc)]

theorem profileIn_eq {c : Chunk} {chunks : List Chunk} (hc : c ∈ chunks) :
    profileIn (Graph.ofChunks chunks) c.id = placeIn (Graph.ofChunks chunks) c.id := by
  rw [profileIn, Profile.ofGraph?, if_pos (Inference.ofChunks_contains hc), placeIn]
  rfl

/-- What is held decides the entries of sound tables. -/
theorem entries_perm {t : Tables} (ht : t.Sound) {chunks : List Chunk} {vectors : List Embedding}
    (hids : (chunks.map Chunk.id).Nodup) (hkept : ∀ c ∈ chunks, keptChunk c = c)
    (hv : embed.embedAll (chunks.map Chunk.embeddingText) = .ok vectors)
    (hholds : ∀ d v, t.Holds d v ↔ ComesFrom embed (Graph.ofChunks chunks) chunks d v) :
    t.entries.Perm ((chunks.zip vectors).map fun e =>
      (⟨e.1, placeIn (Graph.ofChunks chunks) e.1.id⟩, [e.2])) := by
  have hright :
      ((chunks.zip vectors).map fun e => ((⟨e.1, placeIn (Graph.ofChunks chunks) e.1.id⟩, [e.2]) :
      StoredChunk × List Embedding)).Nodup := by
    apply List.Nodup.of_map fun e => e.1.chunk.id
    rw [List.map_map]
    exact (zip_map_id hv).symm ▸ hids
  apply (List.perm_ext_iff_of_nodup (List.Nodup.of_map _ ht.entries_nodup) hright).mpr
  rintro ⟨d, vs⟩
  rw [ht.mem_entries, List.mem_map]
  constructor
  · rintro ⟨v, rfl, hd⟩
    obtain ⟨c, hc, rfl, hcv⟩ := (hholds d v).mp hd
    refine ⟨(c, v), (mem_zip_embedAll hv c v).mpr ⟨hc, hcv⟩, ?_⟩
    rw [hkept c hc, profileIn_eq hc]
  · rintro ⟨⟨c, v⟩, he, hdv⟩
    obtain ⟨rfl, rfl⟩ := Prod.mk.inj hdv
    obtain ⟨hc, hcv⟩ := (mem_zip_embedAll hv c v).mp he
    refine ⟨v, rfl, (hholds _ v).mpr ⟨c, hc, ?_, hcv⟩⟩
    rw [hkept c hc, profileIn_eq hc]

theorem embeds_of_swept (hs : Kept embed s) (hu : UpToDate s x) {swept : Store}
    (h : Swept embed force x s swept) : ∀ c ∈ x.chunks, ∃ v, embed c.embeddingText = .ok v := by
  intro c hc
  obtain ⟨f, hf, hc⟩ := List.mem_flatMap.mp hc
  by_cases hfs : f ∈ storedFiles s force x
  · exact h.embeds f hfs c hc
  · obtain ⟨d, v, -, -, -, hv⟩ := holds_of_not_stored hs hu hf hfs hc
    exact ⟨v, hv⟩

section Swept

variable {swept : Store} {f : FileChunks}

theorem Swept.fileTime?_of_stored (h : Swept embed force x s swept)
    (hf : f ∈ storedFiles s force x) : swept.fileTime? f.path = some f.modified := by
  rw [fileTime?_eq_some h.kept, h.files]
  exact Or.inl ⟨f, hf, rfl, rfl⟩

theorem Swept.exists_fileTime? (hs : Kept embed s) (h : Swept embed force x s swept)
    (hf : f ∈ x.files) :
    ∃ time, swept.fileTime? f.path = some time ∧ time.seconds = f.modified.seconds := by
  by_cases hfs : f ∈ storedFiles s force x
  · exact ⟨f.modified, h.fileTime?_of_stored hfs, rfl⟩
  · obtain ⟨time, ht, hsec⟩ := changeOf_eq_skipped hs (skipped_of_not_mem hf hfs)
    refine ⟨time, ?_, hsec⟩
    rw [fileTime?_eq_some h.kept, h.files]
    exact Or.inr ⟨(fileTime?_eq_some hs).mp ht, f, hf, rfl, hfs⟩

theorem Swept.paths_perm (hs : Kept embed s) (hx : Complete x) (h : Swept embed force x s swept) :
    (swept.files.map Prod.fst).Perm (x.files.map FileChunks.path) := by
  have hn : (swept.files.map Prod.fst).Nodup :=
    ((List.mergeSort_perm _ _).map Prod.fst).nodup_iff.mpr h.kept.paths
  apply (List.perm_ext_iff_of_nodup hn hx.paths).mpr
  intro path
  rw [mem_files]
  constructor
  · intro hm
    obtain ⟨⟨p, time⟩, hp, rfl⟩ := List.mem_map.mp hm
    rcases (h.files p time).mp hp with ⟨f, hf, rfl, -⟩ | ⟨-, f, hf, rfl, -⟩
    · exact List.mem_map_of_mem (storedFiles_sublist.subset hf)
    · exact List.mem_map_of_mem hf
  · intro hm
    obtain ⟨f, hf, rfl⟩ := List.mem_map.mp hm
    obtain ⟨time, ht, -⟩ := h.exists_fileTime? hs hf
    exact List.mem_map.mpr ⟨_, (fileTime?_eq_some h.kept).mp ht, rfl⟩

end Swept

/-- A run on a complete folder leaves a store that holds the folder and nothing else. -/
theorem run_mirrors (hs : Kept embed s) (hx : Complete x) (hu : UpToDate s x)
    (h : run embed force x s = (s', .ok summary)) :
    Mirrors embed x s' ∧
      ∀ f ∈ x.files, changeOf s.files force f ≠ .skipped →
          s'.fileTime? f.path = some f.modified := by
  obtain ⟨swept, hw, rfl⟩ := run_swept hs hx h
  have hsound := (sync_kept hw.kept (Graph.ofChunks x.chunks)).sound
  obtain ⟨vectors, hv⟩ := embedAll_ok (embeds_of_swept hs hu hw)
  have hpaths := hw.paths_perm hs hx
  have htimes : ∀ f ∈ x.files, ∃ time, swept.fileTime? f.path = some time ∧
      time.seconds = f.modified.seconds := fun f hf => hw.exists_fileTime? hs hf
  -- writing the graph leaves the recorded files as they are
  constructor
  · constructor
    · rfl
    · exact hsound
    · exact hpaths
    · exact htimes
    · exact ⟨vectors, hv, entries_perm hsound hx.ids hx.kept hv (holds_after_run hs hx hu hw)⟩
    · rw [sync_tables]
      exact Tables.putEdges_empty (Inference.ofChunks_keys_nodup x.chunks)
  · intro f hf hne
    exact hw.fileTime?_of_stored (List.mem_filter.mpr ⟨hf, by simpa using hne⟩)

end Mirror

end CodeAtlas.Indexing
