import CodeAtlas.Indexing.Run
import CodeAtlas.Proofs.Store.Writing

/-!
Storing files. A store that one embedder has filled holds every chunk with its embedding, and only
chunks of recorded files; storing files replaces what is held of them and nothing else.
-/

namespace CodeAtlas.Indexing

open Store

/-- What is true of a store that has been filled with one embedder. -/
structure Kept (embed : Embedder) (s : Store) : Prop where
  sound : s.tables.Sound
  width : s.tables.width = s.dimensions
  embedded : ∀ d v, s.tables.Holds d v → embed d.chunk.embeddingText = .ok v
  recorded : ∀ d v, s.tables.Holds d v → d.chunk.path ∈ s.tables.files.map Prod.fst
  paths : (s.tables.files.map Prod.fst).Nodup

def FileChunks.Carried (f : FileChunks) : Prop := ∀ c ∈ f.chunks, c.path = f.path

section Embedding

variable {embed : Embedder} {chunks : List Chunk} {vectors : List Embedding}

theorem embedAll_cons (text : String) (texts : List String)
    (h : embed.embedAll (text :: texts) = .ok vectors) :
    ∃ v rest, embed text = .ok v ∧ embed.embedAll texts = .ok rest ∧ vectors = v :: rest := by
  unfold Embedder.embedAll at h ⊢
  rw [List.mapM_cons] at h
  cases hv : embed text with
  | error e =>
    rw [hv] at h
    exact absurd h nofun
  | ok v =>
    cases hr : texts.mapM embed with
    | error e =>
      rw [hv, hr] at h
      exact absurd h nofun
    | ok rest =>
      rw [hv, hr] at h
      exact ⟨v, rest, rfl, rfl, (Except.ok.inj h).symm⟩

theorem embedAll_ok (h : ∀ c ∈ chunks, ∃ v, embed c.embeddingText = .ok v) :
    ∃ vectors, embed.embedAll (chunks.map Chunk.embeddingText) = .ok vectors := by
  induction chunks with
  | nil => exact ⟨[], rfl⟩
  | cons c rest ih =>
    obtain ⟨v, hv⟩ := h c List.mem_cons_self
    obtain ⟨vs, hvs⟩ := ih fun d hd => h d (List.mem_cons_of_mem c hd)
    refine ⟨v :: vs, ?_⟩
    unfold Embedder.embedAll at hvs ⊢
    rw [List.map_cons, List.mapM_cons, hv, hvs]
    rfl

theorem embed_of_embedAll (h : embed.embedAll (chunks.map Chunk.embeddingText) = .ok vectors) :
    ∀ c ∈ chunks, ∃ v ∈ vectors, embed c.embeddingText = .ok v := by
  induction chunks generalizing vectors with
  | nil => exact fun c hc => absurd hc List.not_mem_nil
  | cons d rest ih =>
    obtain ⟨v, vs, hv, hvs, rfl⟩ := embedAll_cons _ _ h
    intro c hc
    rcases List.mem_cons.mp hc with rfl | hc
    · exact ⟨v, List.mem_cons_self, hv⟩
    · obtain ⟨w, hw, hcw⟩ := ih hvs c hc
      exact ⟨w, List.mem_cons_of_mem v hw, hcw⟩

theorem length_of_embedAll (h : embed.embedAll (chunks.map Chunk.embeddingText) = .ok vectors) :
    chunks.length = vectors.length := by
  induction chunks generalizing vectors with
  | nil =>
    obtain rfl := Except.ok.inj h
    rfl
  | cons c rest ih =>
    obtain ⟨v, vs, -, hvs, rfl⟩ := embedAll_cons _ _ h
    rw [List.length_cons, List.length_cons, ih hvs]

theorem mem_zip_embedAll (h : embed.embedAll (chunks.map Chunk.embeddingText) = .ok vectors)
    (c : Chunk) (v : Embedding) :
    (c, v) ∈ chunks.zip vectors ↔ c ∈ chunks ∧ embed c.embeddingText = .ok v := by
  induction chunks generalizing vectors with
  | nil => simp
  | cons d rest ih =>
    obtain ⟨w, ws, hw, hws, rfl⟩ := embedAll_cons _ _ h
    rw [List.zip_cons_cons, List.mem_cons, ih hws, List.mem_cons]
    constructor
    · rintro (he | ⟨hc, hv⟩)
      · obtain ⟨rfl, rfl⟩ := Prod.mk.inj he
        exact ⟨Or.inl rfl, hw⟩
      · exact ⟨Or.inr hc, hv⟩
    · rintro ⟨rfl | hc, hv⟩
      · exact Or.inl (Prod.ext rfl (Except.ok.inj (hv.symm.trans hw)))
      · exact Or.inr ⟨hc, hv⟩

theorem zip_map_id (h : embed.embedAll (chunks.map Chunk.embeddingText) = .ok vectors) :
    (chunks.zip vectors).map (fun e => e.1.id) = chunks.map Chunk.id := by
  have hfst := congrArg (List.map Chunk.id) (List.map_fst_zip (Nat.le_of_eq (length_of_embedAll h)))
  rwa [List.map_map] at hfst

/-- Whether a stored chunk with its embedding comes from a chunk of a list. -/
def ComesFrom (embed : Embedder) (g : Graph) (chunks : List Chunk) (d : StoredChunk)
    (v : Embedding) : Prop :=
  ∃ c ∈ chunks, d = ⟨keptChunk c, profileIn g c.id⟩ ∧ embed c.embeddingText = .ok v

theorem mem_stored (h : embed.embedAll (chunks.map Chunk.embeddingText) = .ok vectors) (g : Graph)
    (d : StoredChunk) (v : Embedding) :
    (d, v) ∈ (chunks.zip vectors).map (Tables.stored g) ↔ ComesFrom embed g chunks d v := by
  rw [List.mem_map]
  constructor
  · rintro ⟨⟨c, w⟩, he, hdv⟩
    obtain ⟨rfl, rfl⟩ := Prod.mk.inj hdv
    obtain ⟨hc, hcv⟩ := (mem_zip_embedAll h c w).mp he
    exact ⟨c, hc, rfl, hcv⟩
  · rintro ⟨c, hc, rfl, hcv⟩
    exact ⟨(c, v), (mem_zip_embedAll h c v).mpr ⟨hc, hcv⟩, rfl⟩

end Embedding

section StoreFile

variable {embed : Embedder} {g : Graph} {s s' : Store} {f : FileChunks}

theorem storeFile_steps (h : storeFile embed g s f = (s', .ok ())) :
    ∃ vectors written, embed.embedAll (f.chunks.map Chunk.embeddingText) = .ok vectors ∧
      (s.deleteFile f.path).2.insert f.chunks vectors g = .ok written ∧
      s' = written.recordFile f.path f.modified := by
  unfold storeFile at h
  split at h
  · exact absurd (Prod.mk.inj h).2 nofun
  · rename_i vectors hv
    dsimp only at h
    split at h
    · exact absurd (Prod.mk.inj h).2 nofun
    · rename_i written hw
      exact ⟨vectors, written, hv, hw, (Prod.mk.inj h).1.symm⟩

theorem putFile_new {path : String} {time : Instant} {files : List (String × Instant)}
    (h : path ∉ files.map Prod.fst) : Tables.putFile path time files = files ++ [(path, time)] := by
  induction files with
  | nil => rfl
  | cons r rest ih =>
    rw [List.map_cons, List.mem_cons, not_or] at h
    rw [Tables.putFile, if_neg (by simpa using Ne.symm h.1), ih h.2]
    rfl

theorem not_mem_others {path : String} {files : List (String × Instant)} :
    path ∉ (files.filter fun r => r.1 != path).map Prod.fst := by
  intro hm
  obtain ⟨r, hr, rfl⟩ := List.mem_map.mp hm
  exact absurd (List.mem_filter.mp hr).2 (by simp)

structure FileStored (embed : Embedder) (g : Graph) (s : Store) (f : FileChunks) (s' : Store) :
    Prop where
  kept : Kept embed s'
  dimensions : s'.dimensions = s.dimensions
  embeds : ∀ c ∈ f.chunks, ∃ v, embed c.embeddingText = .ok v
  files : s'.tables.files = (s.tables.files.filter fun r => r.1 != f.path) ++ [(f.path, f.modified)]
  holds : (f.chunks.map Chunk.id).Nodup → ∀ d v, s'.tables.Holds d v ↔
    ComesFrom embed g f.chunks d v ∨
      (s.tables.Holds d v ∧ d.chunk.path ≠ f.path ∧ d.chunk.id ∉ f.chunks.map Chunk.id)

theorem storeFile_stored (hs : Kept embed s) (hf : f.Carried)
    (h : storeFile embed g s f = (s', .ok ())) : FileStored embed g s f s' := by
  obtain ⟨vectors, written, hv, hw, rfl⟩ := storeFile_steps h
  obtain ⟨htables, hdims⟩ := deleteFile_eq s f.path
  have hcleared : (s.deleteFile f.path).2.tables.Sound := htables ▸ Tables.removeFile_sound hs.sound
  obtain ⟨hwdims, hall⟩ := insert_written hcleared hw
  rw [htables] at hall
  have hfiles : (written.recordFile f.path f.modified).tables.files =
      (s.tables.files.filter fun r => r.1 != f.path) ++ [(f.path, f.modified)] := by
    show Tables.putFile f.path f.modified written.tables.files = _
    rw [hall.files]
    exact putFile_new not_mem_others
  have hfrom : ∀ d v, (written.recordFile f.path f.modified).tables.Holds d v →
      ComesFrom embed g f.chunks d v ∨ (s.tables.Holds d v ∧ d.chunk.path ≠ f.path) := by
    intro d v hd
    exact (hall.holds d v hd).imp (mem_stored hv g d v).mp (Tables.removeFile_holds hs.sound d v).mp
  constructor
  · constructor
    · exact hall.sound.congr rfl rfl rfl rfl
    · have hwidth : (written.recordFile f.path f.modified).tables.width = s.tables.width :=
        hall.width
      rw [hwidth, hs.width]
      exact (hwdims.trans hdims).symm
    · intro d v hd
      rcases hfrom d v hd with ⟨c, -, rfl, hc⟩ | ⟨hd, -⟩
      · exact hc
      · exact hs.embedded d v hd
    · intro d v hd
      rw [hfiles, List.map_append, List.mem_append]
      rcases hfrom d v hd with ⟨c, hc, rfl, -⟩ | ⟨hd, hne⟩
      · exact Or.inr (by simp [keptChunk, hf c hc])
      · obtain ⟨r, hr, he⟩ := List.mem_map.mp (hs.recorded d v hd)
        exact Or.inl (List.mem_map.mpr ⟨r, List.mem_filter.mpr ⟨hr, by simpa [he] using hne⟩, he⟩)
    · rw [hfiles, List.map_append]
      apply List.nodup_append.mpr
      refine ⟨hs.paths.sublist (List.filter_sublist.map _), List.nodup_singleton _, ?_⟩
      rintro a ha b hb rfl
      obtain rfl : a = f.path := List.mem_singleton.mp hb
      exact not_mem_others ha
  · exact hwdims.trans hdims
  · intro c hc
    obtain ⟨v, -, hcv⟩ := embed_of_embedAll hv c hc
    exact ⟨v, hcv⟩
  · exact hfiles
  · intro hn d v
    have hids := zip_map_id hv
    have hiff := hall.holds_iff (hids ▸ hn) d v
    rw [mem_stored hv, Tables.removeFile_holds hs.sound, hids, and_assoc] at hiff
    exact hiff

/-- A file is stored if the embedder answers for all its chunks with vectors of the right length. -/
theorem storeFile_ok (hs : Kept embed s)
    (hv : ∀ c ∈ f.chunks, ∃ v, embed c.embeddingText = .ok v ∧ v.length = s.dimensions) :
    ∃ s', storeFile embed g s f = (s', .ok ()) := by
  obtain ⟨vectors, hvs⟩ := embedAll_ok fun c hc => (hv c hc).imp fun v h => h.1
  obtain ⟨htables, hdims⟩ := deleteFile_eq s f.path
  have hlen := length_of_embedAll hvs
  have hlens : ∀ v ∈ vectors, v.length = (s.deleteFile f.path).2.dimensions ∧
      v.length = (s.deleteFile f.path).2.tables.width := by
    intro v hm
    obtain ⟨i, hi, rfl⟩ := List.getElem_of_mem hm
    have hz : (f.chunks[i], vectors[i]) ∈ f.chunks.zip vectors := by
      rw [← List.getElem_zip (h := by simp [hlen, hi])]
      exact List.getElem_mem _
    obtain ⟨hc, hcv⟩ := (mem_zip_embedAll hvs _ _).mp hz
    obtain ⟨w, hw, hwl⟩ := hv _ hc
    obtain rfl := Except.ok.inj (hcv.symm.trans hw)
    rw [htables, hdims]
    exact ⟨hwl, hwl.trans hs.width.symm⟩
  obtain ⟨written, hw⟩ := insert_ok (g := g) (htables ▸ Tables.removeFile_sound hs.sound) hlen hlens
  unfold storeFile
  rw [hvs]
  dsimp only
  rw [hw]
  exact ⟨_, rfl⟩

end StoreFile

end CodeAtlas.Indexing
