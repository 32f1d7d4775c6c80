import CodeAtlas.Proofs.Indexing.Endpoints

/-!
The rows that are stored of files. Storing a file puts the rows of its chunks behind all others, in
the order of the chunks, and nothing that a run does later changes their order; so a file that
cannot be read any more takes part in the graph with the chunks that were read of it once, sorted by
their first lines.
-/

namespace CodeAtlas

namespace Store.Tables

def listed (t : Tables) : List Chunk := t.chunks.map fun r => r.chunk

section Listed

variable {t after : Tables} {g : Graph}

theorem mem_listed_ids {id : String} :
    id ∈ t.listed.map Chunk.id ↔ ∃ r ∈ t.chunks, r.chunk.id = id := by
  rw [listed, List.map_map, List.mem_map]
  rfl

theorem listed_putChunk {c : StoredChunk} (h : c.chunk.id ∉ t.listed.map Chunk.id) :
    (t.putChunk c).listed = t.listed ++ [c.chunk] := by
  have hk : t.keyOf? c.chunk.id = none := by
    rw [keyOf?_eq_none]
    exact fun r hr he => h (mem_listed_ids.mpr ⟨r, hr, he⟩)
  rw [putChunk, hk]
  exact List.map_append

theorem listed_putWithVector {entry : Chunk × Embedding} (h : entry.1.id ∉ t.listed.map Chunk.id)
    (ha : t.putWithVector g entry = .ok after) :
    after.listed = t.listed ++ [keptChunk entry.1] := by
  have hput := listed_putChunk (t := t) (c := ⟨keptChunk entry.1, profileIn g entry.1.id⟩) h
  unfold putWithVector putVector at ha
  split at ha
  · exact absurd ha nofun
  · split at ha
    · obtain rfl := Except.ok.inj ha
      exact hput
    · obtain rfl := Except.ok.inj ha
      exact hput

/-- Chunks with new ids are written behind the others, in their order. -/
theorem listed_putAll {entries : List (Chunk × Embedding)}
    (hn : (entries.map fun e => e.1.id).Nodup)
    (hnew : ∀ e ∈ entries, e.1.id ∉ t.listed.map Chunk.id)
    (ha : entries.foldlM (putWithVector g) t = .ok after) :
    after.listed = t.listed ++ entries.map fun e => keptChunk e.1 := by
  induction entries generalizing t with
  | nil =>
    obtain rfl := Except.ok.inj ha
    simp
  | cons e rest ih =>
    rw [List.map_cons, List.nodup_cons] at hn
    rw [List.foldlM_cons] at ha
    cases he : t.putWithVector g e with
    | error err =>
      rw [he] at ha
      exact absurd ha nofun
    | ok next =>
      rw [he] at ha
      have hnext := listed_putWithVector (hnew e List.mem_cons_self) he
      rw [ih hn.2 _ ha, hnext, List.append_assoc]
      · rfl
      · intro d hd
        rw [hnext, List.map_append, List.mem_append, not_or]
        refine ⟨hnew d (List.mem_cons_of_mem e hd), ?_⟩
        rw [List.map_singleton, List.mem_singleton]
        intro heq
        exact hn.1 (List.mem_map.mpr ⟨d, hd, heq⟩)

theorem listed_removeFile (t : Tables) (path : String) :
    (t.removeFile path).listed = t.listed.filter fun c => c.path != path := by
  rw [listed, listed, List.filter_map]
  rfl

end Listed

end Store.Tables

namespace Indexing

open Store

variable {embed : Embedder} {g : Graph} {s s' : Store} {path : String} {cs : List Chunk}

theorem storedOf_eq (s : Store) (path : String) :
    storedOf s path = s.tables.listed.filter fun c => c.path == path := by
  rw [Tables.listed, List.filter_map]
  rfl

structure FileChunks.Whole (f : FileChunks) : Prop where
  carried : f.Carried
  kept : ∀ c ∈ f.chunks, keptChunk c = c
  ids : (f.chunks.map Chunk.id).Nodup

section StoreFile

variable {f : FileChunks}

theorem storeFile_listed (ha : Apart s cs) (hf : f.Whole) (hsub : f.chunks ⊆ cs)
    (h : storeFile embed g s f = (s', .ok ())) :
    s'.tables.listed = (s.tables.listed.filter fun c => c.path != f.path) ++ f.chunks := by
  obtain ⟨vectors, written, hv, hw, rfl⟩ := storeFile_steps h
  obtain ⟨htables, -⟩ := deleteFile_eq s f.path
  show written.tables.listed = _
  rw [← Tables.listed_removeFile, ← htables]
  rcases insert_steps hw with ⟨hnil, rfl⟩ | ⟨t, ht, rfl⟩
  · rw [hnil, List.append_nil]
  · have hchunks : (f.chunks.zip vectors).map (fun e => keptChunk e.1) = f.chunks := by
      have hfst := congrArg (List.map keptChunk)
        (List.map_fst_zip (Nat.le_of_eq (length_of_embedAll hv)))
      rw [List.map_map] at hfst
      refine hfst.trans ?_
      rw [List.map_congr_left hf.kept, List.map_id']
    have hnew : ∀ e ∈ f.chunks.zip vectors, e.1.id ∉ (s.deleteFile f.path).2.tables.listed.map
        Chunk.id := by
      intro e he hm
      have hc : e.1 ∈ f.chunks := (List.of_mem_zip he).1
      rw [htables, Tables.listed_removeFile] at hm
      obtain ⟨d, hd, hid⟩ := List.mem_map.mp hm
      obtain ⟨hd, hne⟩ := List.mem_filter.mp hd
      obtain ⟨r, hr, rfl⟩ := List.mem_map.mp hd
      -- the id would come up under another path
      have hpath := (ha.stored e.1 (hsub hc) _ ⟨r, hr, rfl, hid⟩).trans (hf.carried e.1 hc)
      exact absurd hpath (by simpa using hne)
    have hlisted := Tables.listed_putAll ((zip_map_id hv).symm ▸ hf.ids) hnew ht
    rw [hchunks] at hlisted
    exact hlisted

theorem storeFile_storedOf (ha : Apart s cs) (hf : f.Whole) (hsub : f.chunks ⊆ cs)
    (h : storeFile embed g s f = (s', .ok ())) :
    storedOf s' f.path = f.chunks ∧ ∀ path, path ≠ f.path → storedOf s' path = storedOf s path := by
  simp only [storedOf_eq, storeFile_listed ha hf hsub h, List.filter_append, List.filter_filter]
  constructor
  · have hnone : (s.tables.listed.filter fun c => c.path == f.path && c.path != f.path) = [] := by
      rw [List.filter_eq_nil_iff]
      intro c _
      simp
    have hall : (f.chunks.filter fun c => c.path == f.path) = f.chunks := by
      rw [List.filter_eq_self]
      intro c hc
      simp [hf.carried c hc]
    rw [hnone, hall, List.nil_append]
  · intro path hne
    have hnone : (f.chunks.filter fun c => c.path == path) = [] := by
      rw [List.filter_eq_nil_iff]
      intro c hc
      simp [hf.carried c hc, hne.symm]
    rw [hnone, List.append_nil]
    apply List.filter_congr
    intro c _
    by_cases hc : c.path = path
    · simp [hc, hne]
    · simp [hc]

/-- Files that are stored have the rows of their chunks, and the others keep theirs. -/
theorem storeFiles_storedOf {fs : List FileChunks} (hs : s.tables.Sound) (ha : Apart s cs)
    (hf : ∀ f ∈ fs, f.Whole) (hsub : ∀ f ∈ fs, f.chunks ⊆ cs) (hp : (fs.map FileChunks.path).Nodup)
    (h : storeFiles embed g s fs = (s', .ok ())) :
    (∀ f ∈ fs, storedOf s' f.path = f.chunks) ∧
      ∀ path, path ∉ fs.map FileChunks.path → storedOf s' path = storedOf s path := by
  induction fs generalizing s with
  | nil =>
    obtain rfl : s = s' := (Prod.mk.inj h).1
    exact ⟨fun f hf => absurd hf List.not_mem_nil, fun _ _ => rfl⟩
  | cons f fs ih =>
    obtain ⟨next, hn, hr⟩ := storeFiles_cons h
    have hf₀ := hf f List.mem_cons_self
    have hsub₀ := hsub f List.mem_cons_self
    rw [List.map_cons, List.nodup_cons] at hp
    obtain ⟨hown, hothers⟩ := storeFile_storedOf ha hf₀ hsub₀ hn
    obtain ⟨hstored, hleft⟩ :=
      ih (storeFile_frame hs hn).1 (storeFile_apart hs ha hf₀.carried hsub₀ hn)
        (fun d hd => hf d (List.mem_cons_of_mem f hd))
          (fun d hd => hsub d (List.mem_cons_of_mem f hd)) hp.2 hr
    constructor
    · intro d hd
      cases List.mem_cons.mp hd with
      | inl he => rw [he, hleft f.path hp.1, hown]
      | inr hd => exact hstored d hd
    · intro path hm
      rw [List.map_cons, List.mem_cons, not_or] at hm
      rw [hleft path hm.2, hothers path hm.1]

end StoreFile

section Run

theorem removeFiles_storedOf {gone : List String} (h : path ∉ gone) :
    storedOf (gone.foldl (fun s path => (s.deleteFile path).2) s) path = storedOf s path := by
  induction gone generalizing s with
  | nil => rfl
  | cons other rest ih =>
    rw [List.mem_cons, not_or] at h
    rw [List.foldl_cons, ih h.2, storedOf_eq, storedOf_eq, (deleteFile_eq s other).1,
      Tables.listed_removeFile, List.filter_filter]
    apply List.filter_congr
    intro c _
    by_cases hc : c.path = path
    · simp [hc, h.1]
    · simp [hc]

theorem listed_sync (s : Store) (g : Graph) : (s.sync g).tables.listed = s.tables.listed := by
  rw [sync_tables, Tables.listed, Tables.place, List.map_map]
  rfl

theorem edges_sync (s : Store) (chunks : List Chunk) :
    (s.sync (Graph.ofChunks chunks)).tables.edges =
      (Graph.ofChunks chunks).edges.map EdgeRow.ofEdge :=
  Tables.putEdges_empty (Inference.ofChunks_keys_nodup chunks)

theorem sync_storedOf (s : Store) (g : Graph) (path : String) :
    storedOf (s.sync g) path = storedOf s path := by
  rw [storedOf_eq, storedOf_eq, listed_sync]

def OfDisk (x : Extraction) : Prop :=
  ∃ w excluded root, OnDisk w ∧ extractAll w excluded root = .ok x

theorem OfDisk.pathsApart {x : Extraction} (h : OfDisk x) : PathsApart x := by
  obtain ⟨w, excluded, root, hw, hx⟩ := h
  exact extractAll_pathsApart hw hx

theorem OfDisk.whole {x : Extraction} (h : OfDisk x) {f : FileChunks} (hf : f ∈ x.files) :
    f.Whole := by
  obtain ⟨w, excluded, root, hw, hx⟩ := h
  refine ⟨extractAll_carried hx f hf, fun c hc => extractAll_kept hx c (Complete.mem_chunks hf hc),
    ?_⟩
  have hids := extractAll_ids hw hx
  rw [Extraction.chunks, List.map_flatMap] at hids
  exact (List.nodup_flatMap.mp hids).1 f hf

variable {force : Bool} {past : List Extraction} {x : Extraction} {summary : Summary}

/-- After a run the files it stores have the rows of their chunks, and those it leaves alone keep
theirs. -/
theorem run_storedOf (hs : Kept embed s) (hx : OfDisk x) (ha : Apart s x.chunks)
    (h : run embed force x s = (s', .ok summary)) :
    (∀ f ∈ storedFiles s force x, storedOf s' f.path = f.chunks) ∧
      ∀ path, path ∉ (storedFiles s force x).map FileChunks.path → path ∉ goneFiles s.files x →
        storedOf s' path = storedOf s path := by
  obtain ⟨old, stored, -, hstored, rfl, -⟩ := run_steps h
  have hall := storeFiles_storedOf hs.sound ha
    (fun f hf => hx.whole (storedFiles_sublist.subset hf))
    (fun f hf c hc => Complete.mem_chunks (storedFiles_sublist.subset hf) hc)
    (hx.pathsApart.files.sublist (storedFiles_sublist.map _)) hstored
  constructor
  · intro f hf
    rw [finish, sync_storedOf, removeFiles_storedOf (not_gone (storedFiles_sublist.subset hf))]
    exact hall.1 f hf
  · intro path hn hg
    rw [finish, sync_storedOf, removeFiles_storedOf hg]
    exact hall.2 path hn

/-- Whether the rows of recorded files are those of the chunks that were read once, at the time that
is recorded. -/
def Filed (past : List Extraction) (s : Store) : Prop :=
  ∀ path time, (path, time) ∈ s.tables.files → ∃ z ∈ past, ∃ f ∈ z.files, f.path = path ∧
    f.modified = time ∧ storedOf s path = f.chunks

theorem filed_empty (dimensions : Nat) : Filed [] { dimensions } :=
  fun _ _ hm => absurd hm List.not_mem_nil

theorem Filed.run (hf : Filed past s) (hs : Kept embed s) (hx : OfDisk x) (ha : Apart s x.chunks)
    (h : run embed force x s = (s', .ok summary)) : Filed (x :: past) s' := by
  intro path time hm
  obtain ⟨hstored, hleft⟩ := run_storedOf hs hx ha h
  rcases (run_files hs (fun f hf => (hx.whole hf).carried) hx.pathsApart.files h time).mp hm with
    ⟨f, hfs, rfl, rfl⟩ | ⟨hn, hg, hm⟩
  · exact ⟨x, List.mem_cons_self, f, storedFiles_sublist.subset hfs, rfl, rfl, hstored f hfs⟩
  · obtain ⟨z, hz, f, hfz, hp, ht, he⟩ := hf path time hm
    exact ⟨z, List.mem_cons_of_mem x hz, f, hfz, hp, ht, (hleft path hn hg).trans he⟩

/-- The rows of the files that a run finds are those of their chunks, if files with the same time,
in whole seconds, have the same chunks. -/
theorem storedOf_after_run (hf : Filed past s) (hs : Kept embed s) (hx : OfDisk x)
    (ha : Apart s x.chunks) (hsteady : ∀ z ∈ past, Steady Instant.seconds x z)
    (h : run embed force x s = (s', .ok summary)) {f : FileChunks} (hfx : f ∈ x.files) :
    storedOf s' f.path = f.chunks := by
  obtain ⟨hstored, hleft⟩ := run_storedOf hs hx ha h
  by_cases hfs : f ∈ storedFiles s force x
  · exact hstored f hfs
  · obtain ⟨time, ht, hsec⟩ := changeOf_eq_skipped hs (skipped_of_not_mem hfx hfs)
    obtain ⟨z, hz, d, hd, hp, rfl, he⟩ := hf f.path time ((fileTime?_eq_some hs).mp ht)
    rw [hleft f.path (hx.pathsApart.not_stored hfx hfs) (not_gone hfx), he]
    exact (hsteady z hz f hfx d hd hp.symm hsec.symm).symm

end Run

section Retained

def sortedOf (s : Store) (path : String) : List Chunk :=
  (storedOf s path).mergeSort fun a b => signed a.startLine ≤ signed b.startLine

theorem sortedOf_perm (s : Store) (path : String) : (sortedOf s path).Perm (storedOf s path) :=
  List.mergeSort_perm _ _

theorem map_fileChunks (hs : s.tables.Sound) (path : String) :
    ∃ ds, s.fileChunks path = .ok ds ∧ ds.map StoredChunk.chunk = sortedOf s path := by
  refine ⟨_, mapM_ok (h := ChunkRow.toStoredChunk) fun r hr => ?_, ?_⟩
  · have hm := List.mem_of_mem_filter (List.mem_mergeSort.mp hr)
    rw [ChunkRow.read, hs.readable r hm]
    rfl
  · rw [List.map_map]
    exact List.map_mergeSort fun _ _ _ _ => rfl

theorem storedOf_eq_nil (hs : Kept embed s) (h : s.fileTime? path = none) :
    storedOf s path = [] := by
  rw [List.eq_nil_iff_forall_not_mem]
  intro c hc
  obtain ⟨rfl, r, hr, rfl⟩ := mem_storedOf.mp hc
  obtain ⟨v, hold⟩ := hs.sound.exists_holds hr
  obtain ⟨⟨p, time⟩, hm, he⟩ := List.mem_map.mp (hs.recorded _ _ hold)
  obtain rfl : p = r.chunk.path := he
  rw [(fileTime?_eq_some hs).mpr hm] at h
  exact absurd h nofun

theorem flatMap_sortedOf (hs : Kept embed s) (failed : List String) :
    (failed.filter fun path => (s.fileTime? path).isSome).flatMap (sortedOf s) =
      failed.flatMap (sortedOf s) := by
  induction failed with
  | nil => rfl
  | cons path rest ih =>
    rw [List.filter_cons, List.flatMap_cons, ← ih]
    cases ht : s.fileTime? path with
    | none =>
      have hnone : sortedOf s path = [] := by
        rw [sortedOf, storedOf_eq_nil hs ht, List.mergeSort_nil]
      rw [hnone]
      rfl
    | some time => exact List.flatMap_cons

/-- The chunks with which files that cannot be read take part in the graph. -/
theorem retained_eq (hs : Kept embed s) (failed : List String) :
    retained s failed = .ok (failed.flatMap (sortedOf s)) := by
  choose chunksOf hok hsorted using fun path => map_fileChunks hs.sound path
  unfold retained
  dsimp only
  rw [mapM_ok fun path _ => hok path]
  show Except.ok ((((failed.filter fun path => (s.fileTime? path).isSome).map chunksOf).flatten).map
    StoredChunk.chunk) = _
  have hmap : List.map StoredChunk.chunk ∘ chunksOf = sortedOf s := funext hsorted
  rw [List.map_flatten, List.map_map, hmap, ← List.flatMap_def, flatMap_sortedOf hs]

end Retained

section Listing

variable {force : Bool} {past : List Extraction} {x : Extraction} {summary : Summary}

/-- The chunks that a graph is made of: those of the files that could be read, as they are stored,
and those of the others by their first lines. -/
def listing (s : Store) (x : Extraction) : List Chunk :=
  (x.files.map FileChunks.path).flatMap (storedOf s) ++ x.failed.flatMap (sortedOf s)

/-- A run leaves the dependencies of the graph of what is then stored, and its places. -/
theorem run_listing (hf : Filed past s) (hs : Kept embed s) (hx : OfDisk x) (ha : Apart s x.chunks)
    (hsteady : ∀ z ∈ past, Steady Instant.seconds x z)
    (h : run embed force x s = (s', .ok summary)) :
    s'.tables.edges = (Graph.ofChunks (listing s' x)).edges.map EdgeRow.ofEdge ∧
      ∀ r ∈ s'.tables.chunks, r.profile = profileIn (Graph.ofChunks (listing s' x)) r.chunk.id := by
  have hstored : ∀ f ∈ x.files, storedOf s' f.path = f.chunks :=
    fun f hfx => storedOf_after_run hf hs hx ha hsteady h hfx
  have hfailed : ∀ path ∈ x.failed, sortedOf s' path = sortedOf s path := by
    intro path hpath
    have hleft := (run_storedOf hs hx ha h).2 path
    rw [sortedOf, hleft (hx.pathsApart.failed_not_stored hpath) (not_gone_of_failed hpath),
      sortedOf]
  have hlisting : listing s' x = x.chunks ++ x.failed.flatMap (sortedOf s) := by
    rw [listing, List.flatMap_map, Extraction.chunks, List.flatMap_congr hstored,
      List.flatMap_congr hfailed]
  obtain ⟨old, stored, hold, -, rfl, -⟩ := run_steps h
  obtain rfl := Except.ok.inj ((retained_eq hs x.failed).symm.trans hold)
  rw [hlisting]
  constructor
  · exact edges_sync _ _
  · intro r hr
    obtain ⟨d, -, rfl⟩ := List.mem_map.mp hr
    rfl

theorem fileTime?_after_run (hs : Kept embed s) (hx : OfDisk x)
    (h : run embed force x s = (s', .ok summary)) {f : FileChunks} (hf : f ∈ x.files) :
    ∃ time, s'.fileTime? f.path = some time ∧ time.seconds = f.modified.seconds := by
  have hcarried : ∀ d ∈ x.files, d.Carried := fun d hd => (hx.whole hd).carried
  obtain ⟨hs', -⟩ := run_kept hs hcarried h
  by_cases hfs : f ∈ storedFiles s force x
  · refine ⟨f.modified, ?_, rfl⟩
    rw [fileTime?_eq_some hs', run_files hs hcarried hx.pathsApart.files h]
    exact Or.inl ⟨f, hfs, rfl, rfl⟩
  · obtain ⟨time, ht, hsec⟩ := changeOf_eq_skipped hs (skipped_of_not_mem hf hfs)
    refine ⟨time, ?_, hsec⟩
    rw [fileTime?_eq_some hs', run_files hs hcarried hx.pathsApart.files h]
    exact Or.inr ⟨hx.pathsApart.not_stored hf hfs, not_gone hf, (fileTime?_eq_some hs).mp ht⟩

theorem recorded_after_run (hs : Kept embed s) (hx : OfDisk x)
    (h : run embed force x s = (s', .ok summary)) {path : String}
    (hp : path ∈ s'.files.map Prod.fst) : path ∈ x.files.map FileChunks.path ++ x.failed := by
  obtain ⟨⟨p, time⟩, hm, rfl⟩ := List.mem_map.mp (mem_files.mp hp)
  rcases (run_files hs (fun f hf => (hx.whole hf).carried) hx.pathsApart.files h time).mp hm with
    ⟨f, hf, rfl, -⟩ | ⟨-, hg, hm⟩
  · exact List.mem_append_left _ (List.mem_map_of_mem (storedFiles_sublist.subset hf))
  · by_contra hn
    exact hg (mem_goneFiles_iff.mpr ⟨mem_files.mpr (List.mem_map_of_mem hm), hn⟩)

theorem exists_last_run {dimensions : Nat} (h : History embed dimensions (x :: past) s)
    (hw : Works embed dimensions) (hp : ∀ z ∈ past, PathsApart z) :
    ∃ before force summary, History embed dimensions past before ∧
      Kept embed before ∧ Dated past before ∧
      (∃ w excluded root, extractAll w excluded root = .ok x) ∧
      run embed force x before = (s, .ok summary) := by
  cases h with
  | @run past before s force w excluded root x outcome hb hx hr =>
    obtain ⟨hs, hdims, hd⟩ := hb.dated hw hp
    obtain ⟨t, summary, ht⟩ := runAt_succeeds (hdims ▸ hw) hs force hx
    obtain ⟨rfl, -⟩ := Prod.mk.inj (ht.symm.trans hr)
    obtain ⟨x', hx', hrun⟩ := runAt_eq ht
    obtain rfl := Except.ok.inj (hx.symm.trans hx')
    exact ⟨before, force, summary, hb, hs, hd, ⟨w, excluded, root, hx⟩, hrun⟩

theorem filed_of_history {dimensions : Nat} (h : History embed dimensions past s)
    (hw : Works embed dimensions) (hdisk : ∀ z ∈ past, OfDisk z) : Filed past s := by
  induction past generalizing s with
  | nil =>
    cases h with
    | empty h =>
      obtain rfl := ofDimensions_eq h
      exact filed_empty dimensions
  | cons x past ih =>
    have hpast : ∀ z ∈ past, OfDisk z := fun z hz => hdisk z (List.mem_cons_of_mem x hz)
    obtain ⟨before, force, summary, hb, hs, hd, ⟨w, excluded, root, hx⟩, hr⟩ :=
      exists_last_run h hw fun z hz => (hpast z hz).pathsApart
    exact (ih hb hpast).run hs (hdisk x List.mem_cons_self) (hd.apart hx) hr

/-- What the last run of a history leaves: of the files that it could read the rows of their chunks,
and the graph of what is then stored. -/
structure Settled (embed : Embedder) (x : Extraction) (s : Store) : Prop where
  kept : Kept embed s
  stored : ∀ f ∈ x.files, storedOf s f.path = f.chunks
  edges : s.tables.edges = (Graph.ofChunks (listing s x)).edges.map EdgeRow.ofEdge
  places : ∀ r ∈ s.tables.chunks, r.profile = profileIn (Graph.ofChunks (listing s x)) r.chunk.id
  times : ∀ f ∈ x.files, ∃ time, s.fileTime? f.path = some time ∧ time.seconds = f.modified.seconds
  recorded : ∀ path ∈ s.files.map Prod.fst, path ∈ x.files.map FileChunks.path ++ x.failed

theorem settled_of_history {dimensions : Nat} (h : History embed dimensions (x :: past) s)
    (hw : Works embed dimensions) (hdisk : ∀ z ∈ x :: past, OfDisk z)
    (hsteady : ∀ z ∈ past, Steady Instant.seconds x z) : Settled embed x s := by
  have hpast : ∀ z ∈ past, OfDisk z := fun z hz => hdisk z (List.mem_cons_of_mem x hz)
  have hx : OfDisk x := hdisk x List.mem_cons_self
  obtain ⟨before, force, summary, hb, hs, hd, ⟨_, _, _, hx'⟩, hr⟩ :=
    exists_last_run h hw fun z hz => (hpast z hz).pathsApart
  have hf := filed_of_history hb hw hpast
  obtain ⟨hedges, hplaces⟩ := run_listing hf hs hx (hd.apart hx') hsteady hr
  exact {
    kept := (run_kept hs (fun f hfx => (hx.whole hfx).carried) hr).1
    stored := fun f hfx => storedOf_after_run hf hs hx (hd.apart hx') hsteady hr hfx
    edges := hedges
    places := hplaces
    times := fun f hfx => fileTime?_after_run hs hx hr hfx
    recorded := fun path hp => recorded_after_run hs hx hr hp }

end Listing

end Indexing

end CodeAtlas
