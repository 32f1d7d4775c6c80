import CodeAtlas.Proofs.Chunk.Id
import CodeAtlas.Proofs.Indexing.Mirror

/-!
Which ids are stored for which paths, while files are stored one after the other and after a run. As
long as the ids of chunks come up under their own paths only, a file that is stored has the ids of
its chunks, and the other files keep theirs.
-/

namespace CodeAtlas.Indexing

open Store

def Stores (s : Store) (path id : String) : Prop :=
  ∃ r ∈ s.tables.chunks, r.chunk.path = path ∧ r.chunk.id = id

/-- Whether the ids of chunks come up under their own paths only, among them and in a store. -/
structure Apart (s : Store) (cs : List Chunk) : Prop where
  among : ∀ c ∈ cs, ∀ d ∈ cs, c.id = d.id → c.path = d.path
  stored : ∀ c ∈ cs, ∀ path, Stores s path c.id → path = c.path

def IsIdIn (path id : String) : Prop := ∃ kind first last, id = Chunk.idOf path kind first last

variable {embed : Embedder} {g : Graph} {s s' : Store} {path id : String} {cs : List Chunk}

theorem IsIdIn.path_eq {other : String} (h : IsIdIn path id) (h' : IsIdIn other id) :
    path = other := by
  obtain ⟨kind, first, last, rfl⟩ := h
  obtain ⟨kind', first', last', he⟩ := h'
  exact (Chunk.idOf_inj he).1

theorem stores_iff (hs : s.tables.Sound) :
    Stores s path id ↔ ∃ d v, s.tables.Holds d v ∧ d.chunk.path = path ∧ d.chunk.id = id := by
  constructor
  · rintro ⟨r, hr, hp, hi⟩
    obtain ⟨v, hold⟩ := hs.exists_holds hr
    exact ⟨r.toStoredChunk, v, hold, hp, hi⟩
  · rintro ⟨d, v, ⟨r, hr, rfl, -⟩, hp, hi⟩
    exact ⟨r, hr, hp, hi⟩

section Read

variable {w : Workspace} {excluded : List Glob} {root : Place} {x : Extraction}

theorem extractAll_isIdIn (h : extractAll w excluded root = .ok x) {f : FileChunks}
    (hf : f ∈ x.files) (hid : id ∈ f.chunks.map Chunk.id) : IsIdIn f.path id := by
  obtain ⟨file, hp, ho⟩ := extractAll_origin h hf
  obtain ⟨c, hc, rfl⟩ := List.mem_map.mp hid
  exact hp ▸ (ho c hc).id

theorem isIdIn_of_mem (h : extractAll w excluded root = .ok x) {c : Chunk} (hc : c ∈ x.chunks) :
    IsIdIn c.path c.id := by
  obtain ⟨f, hf, hc⟩ := List.mem_flatMap.mp hc
  rw [extractAll_carried h f hf c hc]
  exact extractAll_isIdIn h hf (List.mem_map_of_mem hc)

/-- Ids name the paths of the files they were read of. -/
theorem extractAll_apart (h : extractAll w excluded root = .ok x)
    (hs : ∀ c ∈ x.chunks, ∀ path, Stores s path c.id → path = c.path) : Apart s x.chunks where
  among _ hc _ hd he := (isIdIn_of_mem h hc).path_eq (he ▸ isIdIn_of_mem h hd)
  stored := hs

end Read

section StoreFile

variable {f : FileChunks}

theorem storeFile_frame (hs : s.tables.Sound) (h : storeFile embed g s f = (s', .ok ())) :
    s'.tables.Sound ∧ s'.dimensions = s.dimensions ∧ s'.tables.width = s.tables.width := by
  obtain ⟨vectors, written, -, hw, rfl⟩ := storeFile_steps h
  obtain ⟨htables, hdims⟩ := deleteFile_eq s f.path
  have hcleared : (s.deleteFile f.path).2.tables.Sound := htables ▸ Tables.removeFile_sound hs
  obtain ⟨hd, hall⟩ := insert_written hcleared hw
  refine ⟨hall.sound.congr rfl rfl rfl rfl, hd.trans hdims, ?_⟩
  rw [htables] at hall
  exact hall.width

theorem storeFile_stores (hs : s.tables.Sound) (ha : Apart s cs) (hf : f.Carried)
    (hsub : f.chunks ⊆ cs) (h : storeFile embed g s f = (s', .ok ())) :
    Stores s' path id ↔ (path = f.path ∧ id ∈ f.chunks.map Chunk.id) ∨
      (path ≠ f.path ∧ Stores s path id) := by
  obtain ⟨hsound, -, -⟩ := storeFile_frame hs h
  obtain ⟨vectors, written, hv, hw, rfl⟩ := storeFile_steps h
  obtain ⟨htables, -⟩ := deleteFile_eq s f.path
  have hholds := insert_holds (htables ▸ Tables.removeFile_sound hs) hw
  rw [htables, zip_map_id hv] at hholds
  rw [stores_iff hsound, stores_iff hs]
  constructor
  · rintro ⟨d, v, hd, rfl, rfl⟩
    rcases (hholds d v).mp hd with hd | ⟨hd, -⟩
    · have hm := ((Tables.lastWrites_sublist _).map (Tables.stored g)).subset hd
      obtain ⟨c, hc, rfl, -⟩ := (mem_stored hv g d v).mp hm
      exact Or.inl ⟨hf c hc, List.mem_map.mpr ⟨c, hc, rfl⟩⟩
    · obtain ⟨hd, hne⟩ := (Tables.removeFile_holds hs d v).mp hd
      exact Or.inr ⟨hne, d, v, hd, rfl, rfl⟩
  · rintro (⟨rfl, hid⟩ | ⟨hne, d, v, hd, rfl, rfl⟩)
    · rw [← zip_map_id hv] at hid
      obtain ⟨e, he, rfl⟩ := Tables.exists_lastWrite hid
      have hm : Tables.stored g e ∈ (Tables.lastWrites (f.chunks.zip vectors)).map
          (Tables.stored g) :=
        List.mem_map_of_mem he
      have hc : e.1 ∈ f.chunks := (List.of_mem_zip ((Tables.lastWrites_sublist _).subset he)).1
      exact ⟨_, _, (hholds _ _).mpr (Or.inl hm), hf e.1 hc, rfl⟩
    · refine ⟨d, v, (hholds d v).mpr (Or.inr ⟨?_, fun hid => ?_⟩), rfl, rfl⟩
      · exact (Tables.removeFile_holds hs d v).mpr ⟨hd, hne⟩
      · -- the id would belong to a chunk of the file, and so would the path
        obtain ⟨c, hc, he⟩ := List.mem_map.mp hid
        have hstored : Stores s d.chunk.path c.id := (stores_iff hs).mpr ⟨d, v, hd, rfl, he.symm⟩
        exact hne ((ha.stored c (hsub hc) _ hstored).trans (hf c hc))

theorem storeFile_apart (hs : s.tables.Sound) (ha : Apart s cs) (hf : f.Carried)
    (hsub : f.chunks ⊆ cs) (h : storeFile embed g s f = (s', .ok ())) : Apart s' cs := by
  refine ⟨ha.among, fun c hc path hp => ?_⟩
  rcases (storeFile_stores hs ha hf hsub h).mp hp with ⟨rfl, hid⟩ | ⟨-, hp⟩
  · obtain ⟨d, hd, he⟩ := List.mem_map.mp hid
    exact (hf d hd).symm.trans (ha.among d (hsub hd) c hc he)
  · exact ha.stored c hc path hp

end StoreFile

section StoreFiles

variable {fs : List FileChunks}

theorem storeFiles_frame (hs : s.tables.Sound) (h : storeFiles embed g s fs = (s', .ok ())) :
    s'.tables.Sound ∧ s'.dimensions = s.dimensions ∧ s'.tables.width = s.tables.width := by
  induction fs generalizing s with
  | nil =>
    obtain rfl : s = s' := (Prod.mk.inj h).1
    exact ⟨hs, rfl, rfl⟩
  | cons f fs ih =>
    obtain ⟨next, hn, hr⟩ := storeFiles_cons h
    obtain ⟨hsound, hdims, hwidth⟩ := storeFile_frame hs hn
    obtain ⟨hsound', hdims', hwidth'⟩ := ih hsound hr
    exact ⟨hsound', hdims'.trans hdims, hwidth'.trans hwidth⟩

/-- Files that are stored have the ids of their chunks, and the others keep theirs. -/
theorem storeFiles_stores (hs : s.tables.Sound) (ha : Apart s cs) (hf : ∀ f ∈ fs, f.Carried)
    (hsub : ∀ f ∈ fs, f.chunks ⊆ cs) (hp : (fs.map FileChunks.path).Nodup)
    (h : storeFiles embed g s fs = (s', .ok ())) :
    Stores s' path id ↔ (∃ f ∈ fs, f.path = path ∧ id ∈ f.chunks.map Chunk.id) ∨
      (path ∉ fs.map FileChunks.path ∧ Stores s path id) := by
  induction fs generalizing s with
  | nil =>
    obtain rfl : s = s' := (Prod.mk.inj h).1
    simp
  | cons f fs ih =>
    obtain ⟨next, hn, hr⟩ := storeFiles_cons h
    have hf₀ := hf f List.mem_cons_self
    have hsub₀ := hsub f List.mem_cons_self
    rw [List.map_cons, List.nodup_cons] at hp
    rw [ih (storeFile_frame hs hn).1 (storeFile_apart hs ha hf₀ hsub₀ hn)
      (fun d hd => hf d (List.mem_cons_of_mem f hd))
      (fun d hd => hsub d (List.mem_cons_of_mem f hd)) hp.2 hr,
      storeFile_stores hs ha hf₀ hsub₀ hn, List.map_cons, List.mem_cons, not_or]
    constructor
    · rintro (⟨d, hd, h⟩ | ⟨hne, ⟨rfl, hid⟩ | ⟨hne', hst⟩⟩)
      · exact Or.inl ⟨d, List.mem_cons_of_mem f hd, h⟩
      · exact Or.inl ⟨f, List.mem_cons_self, rfl, hid⟩
      · exact Or.inr ⟨⟨hne', hne⟩, hst⟩
    · rintro (⟨d, hd, rfl, hid⟩ | ⟨⟨hne', hne⟩, hst⟩)
      · rcases List.mem_cons.mp hd with rfl | hd
        · exact Or.inr ⟨hp.1, Or.inl ⟨rfl, hid⟩⟩
        · exact Or.inl ⟨d, hd, rfl, hid⟩
      · exact Or.inr ⟨hne, Or.inr ⟨hne', hst⟩⟩

end StoreFiles

section Retained

theorem mapM_ok {α β ε : Type} {f : α → Except ε β} {h : α → β} {as : List α}
    (hf : ∀ a ∈ as, f a = .ok (h a)) : as.mapM f = .ok (as.map h) := by
  induction as with
  | nil => rfl
  | cons a rest ih =>
    rw [List.mapM_cons, hf a List.mem_cons_self, ih fun b hb => hf b (List.mem_cons_of_mem a hb)]
    rfl

/-- The chunks of a file can be read. -/
theorem fileChunks_ok (hs : s.tables.Sound) (path : String) :
    ∃ ds, s.fileChunks path = .ok ds ∧ ∀ d ∈ ds, Stores s path d.chunk.id := by
  have hrows : ∀ r ∈ (s.tables.chunks.filter fun r => r.chunk.path == path).mergeSort
      fun a b => signed a.chunk.startLine ≤ signed b.chunk.startLine, r ∈ s.tables.chunks ∧
          r.chunk.path = path := by
    intro r hr
    obtain ⟨hr, hp⟩ := List.mem_filter.mp (List.mem_mergeSort.mp hr)
    exact ⟨hr, by simpa using hp⟩
  refine ⟨_, mapM_ok (h := ChunkRow.toStoredChunk) fun r hr => ?_, fun d hd => ?_⟩
  · rw [ChunkRow.read, hs.readable r (hrows r hr).1]
    rfl
  · obtain ⟨r, hr, rfl⟩ := List.mem_map.mp hd
    exact ⟨r, (hrows r hr).1, (hrows r hr).2, rfl⟩

theorem exists_retained (hs : s.tables.Sound) (failed : List String) :
    ∃ old, retained s failed = .ok old ∧ ∀ c ∈ old, ∃ path ∈ failed, Stores s path c.id := by
  have hread : ∀ path, ∃ ds, s.fileChunks path = .ok ds ∧ ∀ d ∈ ds, Stores s path d.chunk.id :=
    fun path => fileChunks_ok hs path
  choose chunksOf hok hstores using hread
  refine ⟨(((failed.filter fun path => (s.fileTime? path).isSome).map chunksOf).flatten).map
    StoredChunk.chunk, ?_, fun c hc => ?_⟩
  · unfold retained
    dsimp only
    rw [mapM_ok fun path _ => hok path]
    rfl
  · obtain ⟨d, hd, rfl⟩ := List.mem_map.mp hc
    obtain ⟨ds, hds, hd⟩ := List.mem_flatten.mp hd
    obtain ⟨path, hp, rfl⟩ := List.mem_map.mp hds
    exact ⟨path, List.mem_of_mem_filter hp, hstores path d hd⟩

end Retained

section Run

variable {force : Bool} {x : Extraction} {summary : Summary}

theorem removeFiles_stores (hs : Kept embed s) (gone : List String) :
    Stores (gone.foldl (fun s path => (s.deleteFile path).2) s) path id ↔
      path ∉ gone ∧ Stores s path id := by
  have hall := removeFiles_removed hs gone
  rw [stores_iff hall.kept.sound, stores_iff hs.sound]
  constructor
  · rintro ⟨d, v, hd, rfl, rfl⟩
    obtain ⟨hd, hg⟩ := (hall.holds d v).mp hd
    exact ⟨hg, d, v, hd, rfl, rfl⟩
  · rintro ⟨hg, d, v, hd, rfl, rfl⟩
    exact ⟨d, v, (hall.holds d v).mpr ⟨hd, hg⟩, rfl, rfl⟩

theorem sync_stores (s : Store) (g : Graph) : Stores (s.sync g) path id ↔ Stores s path id := by
  constructor
  · rintro ⟨r, hr, hp, hi⟩
    obtain ⟨old, hold, rfl⟩ := List.mem_map.mp hr
    exact ⟨old, hold, hp, hi⟩
  · rintro ⟨r, hr, hp, hi⟩
    exact ⟨_, List.mem_map_of_mem hr, hp, hi⟩

/-- No file that was found is gone. -/
theorem not_gone {f : FileChunks} (hf : f ∈ x.files) : f.path ∉ goneFiles s.files x :=
  fun hg => (mem_goneFiles_iff.mp hg).2 (List.mem_append_left _ (List.mem_map_of_mem hf))

theorem not_gone_of_failed (hp : path ∈ x.failed) : path ∉ goneFiles s.files x :=
  fun hg => (mem_goneFiles_iff.mp hg).2 (List.mem_append_right _ hp)

theorem PathsApart.failed_not_stored (hp : PathsApart x) (hpath : path ∈ x.failed) :
    path ∉ (storedFiles s force x).map FileChunks.path := by
  intro hm
  obtain ⟨f, hf, rfl⟩ := List.mem_map.mp hm
  exact hp.not_failed (storedFiles_sublist.subset hf) hpath

/-- A run comes to an end if the embedder answers for all chunks with vectors of the right
length. -/
theorem run_succeeds (hs : Kept embed s) (hx : ∀ f ∈ x.files, f.Carried) (force : Bool)
    (hv : ∀ c ∈ x.chunks, ∃ v, embed c.embeddingText = .ok v ∧ v.length = s.dimensions) :
    ∃ s' summary, run embed force x s = (s', .ok summary) := by
  obtain ⟨old, hold, -⟩ := exists_retained hs.sound x.failed
  have hstored : ∃ stored, storeFiles embed (Graph.ofChunks (x.chunks ++ old)) s
      (storedFiles s force x) = (stored, .ok ()) := by
    apply storeFiles_ok hs
    · exact fun f hf => hx f (storedFiles_sublist.subset hf)
    · exact fun f hf c hc => hv c (Complete.mem_chunks (storedFiles_sublist.subset hf) hc)
  obtain ⟨stored, hstored⟩ := hstored
  unfold storedFiles at hstored
  unfold run
  dsimp only
  rw [hold]
  dsimp only
  rw [hstored]
  exact ⟨_, _, rfl⟩

/-- The files that are recorded after a run. -/
theorem run_files (hs : Kept embed s) (hx : ∀ f ∈ x.files, f.Carried)
    (hp : (x.files.map FileChunks.path).Nodup) (h : run embed force x s = (s', .ok summary))
    (time : Instant) :
    (path, time) ∈ s'.tables.files ↔
      (∃ f ∈ storedFiles s force x, f.path = path ∧ f.modified = time) ∨
      (path ∉ (storedFiles s force x).map FileChunks.path ∧ path ∉ goneFiles s.files x ∧
        (path, time) ∈ s.tables.files) := by
  obtain ⟨old, stored, -, hstored, rfl, -⟩ := run_steps h
  have hall := storeFiles_stored hs (fun f hf => hx f (storedFiles_sublist.subset hf)) hstored
  have hgone := removeFiles_removed hall.kept (goneFiles s.files x)
  refine (hgone.mem_files hall (hp.sublist (storedFiles_sublist.map _)) path time).trans ?_
  constructor
  · rintro ⟨hst | ⟨hn, hm⟩, hg⟩
    · exact Or.inl hst
    · exact Or.inr ⟨hn, hg, hm⟩
  · rintro (⟨f, hf, rfl, rfl⟩ | ⟨hn, hg, hm⟩)
    · exact ⟨Or.inl ⟨f, hf, rfl, rfl⟩, not_gone (storedFiles_sublist.subset hf)⟩
    · exact ⟨Or.inr ⟨hn, hm⟩, hg⟩

/-- After a run the files it stores have the ids of their chunks, and those it leaves alone keep
theirs. -/
theorem run_stores (hs : Kept embed s) (hx : ∀ f ∈ x.files, f.Carried)
    (hp : (x.files.map FileChunks.path).Nodup) (ha : Apart s x.chunks)
    (h : run embed force x s = (s', .ok summary)) :
    Stores s' path id ↔ (∃ f ∈ storedFiles s force x, f.path = path ∧ id ∈ f.chunks.map Chunk.id) ∨
      (path ∉ (storedFiles s force x).map FileChunks.path ∧ path ∉ goneFiles s.files x ∧
          Stores s path id) := by
  obtain ⟨old, stored, -, hstored, rfl, -⟩ := run_steps h
  have hf : ∀ f ∈ storedFiles s force x, f.Carried :=
    fun f hf => hx f (storedFiles_sublist.subset hf)
  have hsub : ∀ f ∈ storedFiles s force x, f.chunks ⊆ x.chunks :=
    fun f hf c hc => Complete.mem_chunks (storedFiles_sublist.subset hf) hc
  have hkept := (storeFiles_stored hs hf hstored).kept
  rw [finish, sync_stores, removeFiles_stores hkept,
    storeFiles_stores hs.sound ha hf hsub (hp.sublist (storedFiles_sublist.map _)) hstored]
  constructor
  · rintro ⟨hg, h | ⟨hn, hst⟩⟩
    · exact Or.inl h
    · exact Or.inr ⟨hn, hg, hst⟩
  · rintro (⟨f, hfs, rfl, hid⟩ | ⟨hn, hg, hst⟩)
    · exact ⟨not_gone (storedFiles_sublist.subset hfs), Or.inl ⟨f, hfs, rfl, hid⟩⟩
    · exact ⟨hg, Or.inr ⟨hn, hst⟩⟩

end Run

end CodeAtlas.Indexing
