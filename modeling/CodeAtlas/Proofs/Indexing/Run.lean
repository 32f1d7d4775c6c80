import CodeAtlas.Proofs.Indexing.StoreFile

/-!
A successful run, step by step: files are stored one after the other, files that are gone are
removed, and the graph is written.
-/

namespace CodeAtlas.Indexing

open Store

variable {embed : Embedder} {g : Graph} {s s' : Store}

section Without

variable {files : List (String × Instant)}

theorem filter_ne (path : String) :
    files.filter (fun r => r.1 != path) = files.filter fun r => decide (r.1 ∉ [path]) := by
  apply List.filter_congr
  intro r _
  rw [Bool.eq_iff_iff, bne_iff_ne, decide_eq_true_eq, List.mem_singleton]

theorem filter_not_mem_cons (path : String) (rest : List String) :
    (files.filter fun r => decide (r.1 ∉ [path])).filter (fun r => decide (r.1 ∉ rest)) =
      files.filter fun r => decide (r.1 ∉ path :: rest) := by
  rw [List.filter_filter]
  apply List.filter_congr
  intro r _
  rw [Bool.eq_iff_iff, Bool.and_eq_true, decide_eq_true_eq, decide_eq_true_eq, decide_eq_true_eq,
    List.mem_singleton, List.mem_cons, not_or]
  exact and_comm

end Without

structure FilesStored (embed : Embedder) (g : Graph) (s : Store) (fs : List FileChunks)
    (s' : Store) : Prop where
  kept : Kept embed s'
  dimensions : s'.dimensions = s.dimensions
  embeds : ∀ f ∈ fs, ∀ c ∈ f.chunks, ∃ v, embed c.embeddingText = .ok v
  files : (fs.map FileChunks.path).Nodup → s'.tables.files =
    (s.tables.files.filter fun r => decide (r.1 ∉ fs.map FileChunks.path)) ++
      fs.map fun f => (f.path, f.modified)
  holds : (fs.map FileChunks.path).Nodup → ((fs.flatMap FileChunks.chunks).map Chunk.id).Nodup →
    ∀ d v, s'.tables.Holds d v ↔ ComesFrom embed g (fs.flatMap FileChunks.chunks) d v ∨
      (s.tables.Holds d v ∧ d.chunk.path ∉ fs.map FileChunks.path ∧
        d.chunk.id ∉ (fs.flatMap FileChunks.chunks).map Chunk.id)

theorem comesFrom_append (as bs : List Chunk) (d : StoredChunk) (v : Embedding) :
    ComesFrom embed g (as ++ bs) d v ↔ ComesFrom embed g as d v ∨ ComesFrom embed g bs d v := by
  simp only [ComesFrom, List.mem_append]
  constructor
  · rintro ⟨c, hc | hc, h⟩
    · exact Or.inl ⟨c, hc, h⟩
    · exact Or.inr ⟨c, hc, h⟩
  · rintro (⟨c, hc, h⟩ | ⟨c, hc, h⟩)
    · exact ⟨c, Or.inl hc, h⟩
    · exact ⟨c, Or.inr hc, h⟩

theorem storeFiles_cons {f : FileChunks} {fs : List FileChunks}
    (h : storeFiles embed g s (f :: fs) = (s', .ok ())) :
    ∃ next, storeFile embed g s f = (next, .ok ()) ∧ storeFiles embed g next fs = (s', .ok ()) := by
  rw [storeFiles] at h
  split at h
  · exact absurd (Prod.mk.inj h).2 nofun
  · rename_i next hn
    exact ⟨next, hn, h⟩

theorem storeFiles_stored (hs : Kept embed s) {fs : List FileChunks} (hf : ∀ f ∈ fs, f.Carried)
    (h : storeFiles embed g s fs = (s', .ok ())) : FilesStored embed g s fs s' := by
  induction fs generalizing s with
  | nil =>
    obtain rfl : s = s' := (Prod.mk.inj h).1
    refine ⟨hs, rfl, by simp, fun _ => by simp, fun _ _ d v => ?_⟩
    simp [ComesFrom]
  | cons f fs ih =>
    obtain ⟨next, hn, h⟩ := storeFiles_cons h
    have hone := storeFile_stored hs (hf f List.mem_cons_self) hn
    have hrest := ih hone.kept (fun d hd => hf d (List.mem_cons_of_mem f hd)) h
    constructor
    · exact hrest.kept
    · exact hrest.dimensions.trans hone.dimensions
    · intro d hd
      rcases List.mem_cons.mp hd with rfl | hd
      · exact hone.embeds
      · exact hrest.embeds d hd
    · intro hp
      rw [List.map_cons, List.nodup_cons] at hp
      rw [hrest.files hp.2, hone.files, List.filter_append, filter_ne, filter_not_mem_cons]
      have hfirst : [(f.path, f.modified)].filter (fun r => decide (r.1 ∉ fs.map FileChunks.path)) =
          [(f.path, f.modified)] := by
        rw [List.filter_eq_self]
        intro r hr
        obtain rfl := List.mem_singleton.mp hr
        exact decide_eq_true hp.1
      rw [hfirst, List.append_assoc]
      rfl
    · intro hp hi d v
      rw [List.map_cons, List.nodup_cons] at hp
      rw [List.flatMap_cons, List.map_append] at hi
      obtain ⟨hif, hir, hne⟩ := List.nodup_append.mp hi
      rw [hrest.holds hp.2 hir, hone.holds hif, List.flatMap_cons, List.map_append,
        comesFrom_append, List.map_cons, List.mem_cons, List.mem_append, not_or, not_or]
      constructor
      · rintro (hd | ⟨hd | ⟨hd, hpf, hidf⟩, hpr, hidr⟩)
        · exact Or.inl (Or.inr hd)
        · exact Or.inl (Or.inl hd)
        · exact Or.inr ⟨hd, ⟨hpf, hpr⟩, hidf, hidr⟩
      · rintro ((hd | hd) | ⟨hd, ⟨hpf, hpr⟩, hidf, hidr⟩)
        · -- what the first file brought is of no later file
          obtain ⟨c, hc, rfl, hcv⟩ := hd
          refine Or.inr ⟨Or.inl ⟨c, hc, rfl, hcv⟩, ?_, ?_⟩
          · show c.path ∉ _
            rw [hf f List.mem_cons_self c hc]
            exact hp.1
          · exact fun hm => hne c.id (List.mem_map_of_mem hc) c.id hm rfl
        · exact Or.inl hd
        · exact Or.inr ⟨Or.inr ⟨hd, hpf, hidf⟩, hpr, hidr⟩

theorem storeFiles_ok (hs : Kept embed s) {fs : List FileChunks} (hf : ∀ f ∈ fs, f.Carried)
    (hv : ∀ f ∈ fs, ∀ c ∈ f.chunks, ∃ v, embed c.embeddingText = .ok v ∧ v.length = s.dimensions) :
    ∃ s', storeFiles embed g s fs = (s', .ok ()) := by
  induction fs generalizing s with
  | nil => exact ⟨s, rfl⟩
  | cons f fs ih =>
    obtain ⟨next, hn⟩ := storeFile_ok (g := g) hs (hv f List.mem_cons_self)
    have hone := storeFile_stored hs (hf f List.mem_cons_self) hn
    have hrest : ∀ d ∈ fs, ∀ c ∈ d.chunks, ∃ v, embed c.embeddingText = .ok v ∧
        v.length = next.dimensions := by
      intro d hd
      rw [hone.dimensions]
      exact hv d (List.mem_cons_of_mem f hd)
    obtain ⟨s', hs'⟩ := ih hone.kept (fun d hd => hf d (List.mem_cons_of_mem f hd)) hrest
    refine ⟨s', ?_⟩
    rw [storeFiles, hn]
    exact hs'

structure FilesRemoved (embed : Embedder) (s : Store) (gone : List String) (s' : Store) : Prop where
  kept : Kept embed s'
  dimensions : s'.dimensions = s.dimensions
  files : s'.tables.files = s.tables.files.filter fun r => decide (r.1 ∉ gone)
  holds : ∀ d v, s'.tables.Holds d v ↔ s.tables.Holds d v ∧ d.chunk.path ∉ gone

theorem deleteFile_removed (hs : Kept embed s) (path : String) :
    FilesRemoved embed s [path] (s.deleteFile path).2 := by
  obtain ⟨htables, hdims⟩ := deleteFile_eq s path
  have hholds : ∀ d v, (s.deleteFile path).2.tables.Holds d v ↔
      s.tables.Holds d v ∧ d.chunk.path ∉ [path] := by
    intro d v
    rw [htables, Tables.removeFile_holds hs.sound, List.mem_singleton]
  have hfiles : (s.deleteFile path).2.tables.files = s.tables.files.filter fun r =>
      decide (r.1 ∉ [path]) := by
    rw [htables]
    exact filter_ne path
  refine ⟨⟨?_, ?_, ?_, ?_, ?_⟩, hdims, hfiles, hholds⟩
  · rw [htables]
    exact Tables.removeFile_sound hs.sound
  · rw [htables, hdims]
    exact hs.width
  · intro d v hd
    exact hs.embedded d v ((hholds d v).mp hd).1
  · intro d v hd
    obtain ⟨hd, hne⟩ := (hholds d v).mp hd
    obtain ⟨r, hr, he⟩ := List.mem_map.mp (hs.recorded d v hd)
    rw [hfiles]
    exact List.mem_map.mpr ⟨r, List.mem_filter.mpr ⟨hr, decide_eq_true (he.symm ▸ hne)⟩, he⟩
  · rw [hfiles]
    exact hs.paths.sublist (List.filter_sublist.map _)

theorem removeFiles_removed (hs : Kept embed s) (gone : List String) :
    FilesRemoved embed s gone (gone.foldl (fun s path => (s.deleteFile path).2) s) := by
  induction gone generalizing s with
  | nil => exact ⟨hs, rfl, by simp, fun d v => by simp⟩
  | cons path rest ih =>
    have hone := deleteFile_removed hs path
    have hrest := ih hone.kept
    refine ⟨hrest.kept, hrest.dimensions.trans hone.dimensions, ?_, fun d v => ?_⟩
    · rw [List.foldl_cons, hrest.files, hone.files]
      exact filter_not_mem_cons path rest
    · rw [List.foldl_cons, hrest.holds, hone.holds, List.mem_singleton, List.mem_cons,
        not_or, and_assoc]

/-- The files that are recorded once some have been stored and others removed. -/
theorem FilesRemoved.mem_files {fs : List FileChunks} {gone : List String} {stored : Store}
    (hgone : FilesRemoved embed stored gone s') (hall : FilesStored embed g s fs stored)
    (hp : (fs.map FileChunks.path).Nodup) (path : String) (time : Instant) :
    (path, time) ∈ s'.tables.files ↔
      ((∃ f ∈ fs, f.path = path ∧ f.modified = time) ∨
        (path ∉ fs.map FileChunks.path ∧ (path, time) ∈ s.tables.files)) ∧ path ∉ gone := by
  rw [hgone.files, hall.files hp, List.mem_filter, List.mem_append, List.mem_filter,
    decide_eq_true_eq, decide_eq_true_eq]
  apply and_congr_left'
  constructor
  · rintro (⟨hm, hn⟩ | hm)
    · exact Or.inr ⟨hn, hm⟩
    · obtain ⟨f, hf, he⟩ := List.mem_map.mp hm
      obtain ⟨rfl, rfl⟩ := Prod.mk.inj he
      exact Or.inl ⟨f, hf, rfl, rfl⟩
  · rintro (⟨f, hf, rfl, rfl⟩ | ⟨hn, hm⟩)
    · exact Or.inr (List.mem_map_of_mem hf)
    · exact Or.inl ⟨hm, hn⟩

theorem sync_kept (hs : Kept embed s) (g : Graph) : Kept embed (s.sync g) := by
  have hsound : ({ s.tables with edges := [] } : Tables).Sound := hs.sound.congr rfl rfl rfl rfl
  have hholds : ∀ d v, (s.sync g).tables.Holds d v →
      ∃ old, s.tables.Holds old v ∧ d = ⟨old.chunk, profileIn g old.chunk.id⟩ := by
    intro d v hd
    rw [sync_tables] at hd
    exact (Tables.place_holds d v).mp hd
  constructor
  · rw [sync_tables]
    exact Tables.place_sound (hsound.putEdges g.edges)
  · exact hs.width
  · intro d v hd
    obtain ⟨old, ho, rfl⟩ := hholds d v hd
    exact hs.embedded old v ho
  · intro d v hd
    obtain ⟨old, ho, rfl⟩ := hholds d v hd
    exact hs.recorded old v ho
  · exact hs.paths

/-- What a successful run does. -/
theorem run_steps {force : Bool} {x : Extraction} {summary : Summary}
    (h : run embed force x s = (s', .ok summary)) :
    ∃ old stored, retained s x.failed = .ok old ∧
      storeFiles embed (Graph.ofChunks (x.chunks ++ old)) s
        (x.files.filter fun f => changeOf s.files force f != .skipped) = (stored, .ok ()) ∧
      s' = finish (Graph.ofChunks (x.chunks ++ old)) (goneFiles s.files x) stored ∧
      summary.added = x.files.countP (fun f => changeOf s.files force f == .added) ∧
      summary.updated = x.files.countP (fun f => changeOf s.files force f == .updated) ∧
      summary.skipped = x.files.countP (fun f => changeOf s.files force f == .skipped) ∧
      summary.removed = (goneFiles s.files x).length := by
  unfold run at h
  dsimp only at h
  split at h
  · exact absurd (Prod.mk.inj h).2 nofun
  · rename_i old hold
    split at h
    · exact absurd (Prod.mk.inj h).2 nofun
    · rename_i stored hstored
      obtain ⟨rfl, hsum⟩ := Prod.mk.inj h
      obtain rfl := Except.ok.inj hsum
      exact ⟨old, stored, hold, hstored, rfl, rfl, rfl, rfl, rfl⟩

/-- A successful run leaves a store that one embedder has filled. -/
theorem run_kept (hs : Kept embed s) {force : Bool} {x : Extraction} {summary : Summary}
    (hx : ∀ f ∈ x.files, f.Carried) (h : run embed force x s = (s', .ok summary)) :
    Kept embed s' ∧ s'.dimensions = s.dimensions := by
  obtain ⟨old, stored, -, hstored, rfl, -⟩ := run_steps h
  have hfiles := storeFiles_stored hs (fun f hf => hx f (List.mem_of_mem_filter hf)) hstored
  have hgone := removeFiles_removed hfiles.kept (goneFiles s.files x)
  exact ⟨sync_kept hgone.kept _, hgone.dimensions.trans hfiles.dimensions⟩

end CodeAtlas.Indexing
