import CodeAtlas.Proofs.Indexing.Rebuild

/-!
The ends of stored dependencies. The graph is made anew of what is read of all files, while the
chunks of a file are only written when its time is another one than is recorded for it. Every end of
a dependency is a stored chunk as long as files with the same time, in whole seconds, have the same
chunks.
-/

namespace CodeAtlas.Indexing

open Store

/-- Whether both ends of every dependency of a store are chunks of it. -/
def Closed (s : Store) : Prop :=
  ∀ r ∈ s.tables.edges, (∃ path, Stores s path r.edge.source) ∧ ∃ path, Stores s path r.edge.target

/-- Whether an embedder answers for every text, with vectors of some length. -/
def Works (embed : Embedder) (dimensions : Nat) : Prop :=
  ∀ text, ∃ v, embed text = .ok v ∧ v.length = dimensions

/-- Whether files with one path and, as far as can be told, one time have the same chunks. -/
def Steady {α : Type} (told : Instant → α) (x y : Extraction) : Prop :=
  ∀ f ∈ x.files, ∀ f' ∈ y.files, f.path = f'.path → told f.modified = told f'.modified →
  f.chunks = f'.chunks

/-- What was read in runs with one embedder on an empty store, the latest first, and the store they
lead to. -/
inductive History (embed : Embedder) (dimensions : Nat) : List Extraction → Store → Prop where
  | empty {s : Store} : Store.ofDimensions dimensions = .ok s → History embed dimensions [] s
  | run {past : List Extraction} {s s' : Store} {force : Bool} {w : Workspace}
      {excluded : List Glob}
      {root : Place} {x : Extraction} {outcome : Except Failure Summary} :
        History embed dimensions past s →
      extractAll w excluded root = .ok x → runAt embed force w excluded root s = (s', outcome) →
      History embed dimensions (x :: past) s'

/-- Whether ids name their paths in a store, and the chunks that are stored for a path are those
that were read of it once, at the time that is recorded for it. -/
structure Dated (past : List Extraction) (s : Store) : Prop where
  isIdIn : ∀ path id, Stores s path id → IsIdIn path id
  read : ∀ path time, (path, time) ∈ s.tables.files → ∃ x ∈ past, ∃ f ∈ x.files, f.path = path ∧
    f.modified = time ∧ ∀ id, Stores s path id ↔ id ∈ f.chunks.map Chunk.id

section Dated

variable {embed : Embedder} {force : Bool} {w : Workspace} {excluded : List Glob} {root : Place}
  {past : List Extraction} {x : Extraction} {s s' : Store} {summary : Summary} {dimensions : Nat}

theorem dated_empty (dimensions : Nat) : Dated [] { dimensions } where
  isIdIn := by
    rintro path id ⟨r, hr, -⟩
    exact absurd hr List.not_mem_nil
  read := fun _ _ hm => absurd hm List.not_mem_nil

theorem Dated.apart (hd : Dated past s) (hx : extractAll w excluded root = .ok x) :
    Apart s x.chunks :=
  extractAll_apart hx fun c hc path hst => (hd.isIdIn path c.id hst).path_eq (isIdIn_of_mem hx hc)

/-- A file that a run stores has the ids of its chunks after it. -/
theorem stores_of_stored (hs : Kept embed s) (hd : Dated past s)
    (hx : extractAll w excluded root = .ok x) (hp : PathsApart x)
    (h : run embed force x s = (s', .ok summary)) {f : FileChunks} (hf : f ∈ storedFiles s force x)
    (id : String) : Stores s' f.path id ↔ id ∈ f.chunks.map Chunk.id := by
  rw [run_stores hs (extractAll_carried hx) hp.files (hd.apart hx) h]
  constructor
  · rintro (⟨d, hds, he, hid⟩ | ⟨hn, -⟩)
    · obtain rfl := hp.file_eq (storedFiles_sublist.subset hds) (storedFiles_sublist.subset hf) he
      exact hid
    · exact absurd (List.mem_map_of_mem hf) hn
  · exact fun hid => Or.inl ⟨f, hf, rfl, hid⟩

/-- A path that a run neither stores nor removes has the ids after it that it had before. -/
theorem stores_of_left (hs : Kept embed s) (hd : Dated past s)
    (hx : extractAll w excluded root = .ok x) (hp : PathsApart x)
    (h : run embed force x s = (s', .ok summary)) {path : String}
    (hn : path ∉ (storedFiles s force x).map FileChunks.path) (hg : path ∉ goneFiles s.files x)
    (id : String) : Stores s' path id ↔ Stores s path id := by
  rw [run_stores hs (extractAll_carried hx) hp.files (hd.apart hx) h]
  constructor
  · rintro (⟨f, hf, rfl, -⟩ | ⟨-, -, hst⟩)
    · exact absurd (List.mem_map_of_mem hf) hn
    · exact hst
  · exact fun hst => Or.inr ⟨hn, hg, hst⟩

theorem Dated.run (hd : Dated past s) (hs : Kept embed s) (hx : extractAll w excluded root = .ok x)
    (hp : PathsApart x) (h : run embed force x s = (s', .ok summary)) : Dated (x :: past) s' where
  isIdIn path id hst := by
    rcases (run_stores hs (extractAll_carried hx) hp.files (hd.apart hx) h).mp hst with
      ⟨f, hf, rfl, hid⟩ | ⟨-, -, hst⟩
    · exact extractAll_isIdIn hx (storedFiles_sublist.subset hf) hid
    · exact hd.isIdIn path id hst
  read path time hm := by
    rcases (run_files hs (extractAll_carried hx) hp.files h time).mp hm with
      ⟨f, hf, rfl, rfl⟩ | ⟨hn, hg, hm⟩
    · exact ⟨x, List.mem_cons_self, f, storedFiles_sublist.subset hf, rfl, rfl,
        stores_of_stored hs hd hx hp h hf⟩
    · obtain ⟨y, hy, f, hf, he, ht, hids⟩ := hd.read path time hm
      refine ⟨y, List.mem_cons_of_mem x hy, f, hf, he, ht, fun id => ?_⟩
      rw [stores_of_left hs hd hx hp h hn hg, hids]

theorem changeOf_of_recorded (hs : Kept embed s) {f : FileChunks} {time : Instant}
    (ht : s.fileTime? f.path = some time) (hsec : time.seconds = f.modified.seconds) :
    changeOf s.files false f = .skipped := by
  rw [changeOf, lookup_files hs, ht]
  simp [hsec]

theorem Mirrors.stores_iff (h : Mirrors embed x s) {path id : String} :
    Stores s path id ↔ ∃ c ∈ x.chunks, c.path = path ∧ c.id = id := by
  constructor
  · rintro ⟨r, hr, hp, hi⟩
    exact ⟨r.chunk, h.chunks_perm.mem_iff.mp (List.mem_map_of_mem hr), hp, hi⟩
  · rintro ⟨c, hc, hp, hi⟩
    obtain ⟨r, hr, rfl⟩ := List.mem_map.mp (h.chunks_perm.mem_iff.mpr hc)
    exact ⟨r, hr, hp, hi⟩

theorem runAt_succeeds (hw : Works embed s.dimensions) (hs : Kept embed s) (force : Bool)
    (hx : extractAll w excluded root = .ok x) :
    ∃ s' summary, runAt embed force w excluded root s = (s', .ok summary) := by
  obtain ⟨s', summary, h⟩ :=
    run_succeeds hs (extractAll_carried hx) force fun c _ => hw c.embeddingText
  refine ⟨s', summary, ?_⟩
  rw [runAt, hx]
  exact h

theorem History.dated (h : History embed dimensions past s) (hw : Works embed dimensions)
    (hp : ∀ y ∈ past, PathsApart y) : Kept embed s ∧ s.dimensions = dimensions ∧ Dated past s := by
  induction h with
  | empty h =>
    obtain rfl := ofDimensions_eq h
    exact ⟨kept_empty dimensions, rfl, dated_empty dimensions⟩
  | @run past s s' force w excluded root x outcome _ hx hr ih =>
    obtain ⟨hs, hdims, hd⟩ := ih fun y hy => hp y (List.mem_cons_of_mem x hy)
    obtain ⟨t, summary, ht⟩ := runAt_succeeds (hdims ▸ hw) hs force hx
    obtain ⟨rfl, -⟩ := Prod.mk.inj (ht.symm.trans hr)
    obtain ⟨x', hx', hrun⟩ := runAt_eq ht
    obtain rfl := Except.ok.inj (hx.symm.trans hx')
    obtain ⟨hs', hdims'⟩ := run_kept hs (extractAll_carried hx) hrun
    exact ⟨hs', hdims'.trans hdims, hd.run hs hx (hp x List.mem_cons_self) hrun⟩

/-- The chunks that the graph is made of are stored after a run. -/
theorem stores_after_run (hs : Kept embed s) (hd : Dated past s)
    (hx : extractAll w excluded root = .ok x) (hp : PathsApart x)
    (hsteady : ∀ y ∈ past, Steady Instant.seconds x y) (h : run embed force x s = (s', .ok summary))
    {f : FileChunks} (hf : f ∈ x.files) {id : String} (hid : id ∈ f.chunks.map Chunk.id) :
    Stores s' f.path id := by
  by_cases hfs : f ∈ storedFiles s force x
  · exact (stores_of_stored hs hd hx hp h hfs id).mpr hid
  · -- the file is as it was when its recorded time was read
    obtain ⟨time, ht, hsec⟩ := changeOf_eq_skipped hs (skipped_of_not_mem hf hfs)
    obtain ⟨y, hy, f', hf', he, rfl, hids⟩ := hd.read f.path time ((fileTime?_eq_some hs).mp ht)
    rw [hsteady y hy f hf f' hf' he.symm hsec.symm] at hid
    rw [stores_of_left hs hd hx hp h (hp.not_stored hf hfs) (not_gone hf), hids]
    exact hid

/-- The dependencies that are stored after a run are those of the graph. -/
theorem run_edges (h : run embed force x s = (s', .ok summary)) :
    ∃ old, retained s x.failed = .ok old ∧
    s'.tables.edges = (Graph.ofChunks (x.chunks ++ old)).edges.map EdgeRow.ofEdge := by
  obtain ⟨old, stored, hold, -, rfl, -⟩ := run_steps h
  exact ⟨old, hold, Tables.putEdges_empty (Inference.ofChunks_keys_nodup (x.chunks ++ old))⟩

theorem run_closed (hs : Kept embed s) (hd : Dated past s) (hx : extractAll w excluded root = .ok x)
    (hp : PathsApart x) (hsteady : ∀ y ∈ past, Steady Instant.seconds x y)
    (h : run embed force x s = (s', .ok summary)) : Closed s' := by
  obtain ⟨old, hold, hedges⟩ := run_edges h
  have hall : ∀ id ∈ (x.chunks ++ old).map Chunk.id, ∃ path, Stores s' path id := by
    intro id hid
    obtain ⟨c, hc, rfl⟩ := List.mem_map.mp hid
    rcases List.mem_append.mp hc with hc | hc
    · obtain ⟨f, hf, hc⟩ := List.mem_flatMap.mp hc
      exact ⟨f.path, stores_after_run hs hd hx hp hsteady h hf (List.mem_map_of_mem hc)⟩
    · obtain ⟨old', hold', hstores⟩ := exists_retained hs.sound x.failed
      obtain rfl := Except.ok.inj (hold.symm.trans hold')
      obtain ⟨path, hpath, hst⟩ := hstores c hc
      have hleft :=
        stores_of_left hs hd hx hp h (hp.failed_not_stored hpath) (not_gone_of_failed hpath)
      exact ⟨path, (hleft c.id).mpr hst⟩
  intro r hr
  rw [hedges] at hr
  obtain ⟨e, he, rfl⟩ := List.mem_map.mp hr
  obtain ⟨hsource, htarget⟩ := Inference.ofChunks_ends he
  exact ⟨hall e.source hsource, hall e.target htarget⟩

/-- Whatever runs there were, with an embedder that works the next one succeeds, and leaves no
dependency without its ends if files with the same time, in whole seconds, always have the same
chunks. That paths tell files apart is so on every disk by `extractAll_pathsApart`. -/
theorem runAt_closed (hw : Works embed dimensions) (hs : History embed dimensions past s)
    (hx : extractAll w excluded root = .ok x) (hp : ∀ y ∈ x :: past, PathsApart y)
    (hsteady : ∀ y ∈ past, Steady Instant.seconds x y) :
    ∃ s' summary, runAt embed force w excluded root s = (s', .ok summary) ∧ Closed s' := by
  obtain ⟨hkept, hdims, hd⟩ := hs.dated hw fun y hy => hp y (List.mem_cons_of_mem x hy)
  obtain ⟨s', summary, h⟩ := runAt_succeeds (hdims ▸ hw) hkept force hx
  obtain ⟨x', hx', hrun⟩ := runAt_eq h
  obtain rfl := Except.ok.inj (hx.symm.trans hx')
  exact ⟨s', summary, h, run_closed hkept hd hx (hp x List.mem_cons_self) hsteady hrun⟩

end Dated

section EditedFile

theorem constantEmbedder_works : Works constantEmbedder 1 := fun _ => ⟨[1.0], rfl, rfl⟩

theorem readWith_pathsApart (f : FileEntry) : PathsApart (readWith f) := by
  show ["a.py", "b.py"].Nodup
  decide

theorem all_readWith_pathsApart (fs : List FileEntry) : ∀ y ∈ fs.map readWith, PathsApart y := by
  intro y hy
  obtain ⟨f, -, rfl⟩ := List.mem_map.mp hy
  exact readWith_pathsApart f

theorem history_storeWith {past : List Extraction} {s : Store}
    (h : History constantEmbedder 1 past s) (f : FileEntry) :
    History constantEmbedder 1 (readWith f :: past) (storeWith f s) :=
  h.run (extractAll_folderWith f) rfl

def firstStore : Store := storeWith firstDraft { dimensions := 1 }

theorem history_firstStore : History constantEmbedder 1 [readWith firstDraft] firstStore :=
  history_storeWith (.empty rfl) firstDraft

theorem firstStore_dated : Kept constantEmbedder firstStore ∧ firstStore.dimensions = 1 ∧
    Dated [readWith firstDraft] firstStore :=
  history_firstStore.dated constantEmbedder_works (all_readWith_pathsApart [firstDraft])

/-- The file is edited, and its time tells so. -/
theorem steady_readWith {α : Type} {told : Instant → α} {f f' : FileEntry}
    (h : told f.modified ≠ told f'.modified) : Steady told (readWith f) (readWith f') := by
  intro d hd d' hd' hp ht
  rcases List.mem_pair.mp hd with rfl | rfl
  · rcases List.mem_pair.mp hd' with rfl | rfl
    · rfl
    · exact absurd (show "a.py" = "b.py" from hp) (by decide)
  · rcases List.mem_pair.mp hd' with rfl | rfl
    · exact absurd (show "b.py" = "a.py" from hp) (by decide)
    · exact absurd ht h

theorem runAt_closed_editedFile :
    ∃ s' summary, runAt constantEmbedder false (folderWith secondDraft) [] [] firstStore =
      (s', .ok summary) ∧ Closed s' := by
  apply runAt_closed constantEmbedder_works history_firstStore (extractAll_folderWith secondDraft)
  · exact all_readWith_pathsApart [secondDraft, firstDraft]
  · intro y hy
    obtain rfl := List.mem_singleton.mp hy
    exact steady_readWith (by decide)

/-- The file half a second after its first draft. -/
def savedAgain : FileEntry :=
  { declaringFile with modified := { seconds := 1, nanos := 500000000 } }

theorem savedAgain_wellFormed : savedAgain.root.WellFormed .python savedAgain.bytes.length := by
  decide

theorem tree_declaringFile :
    (Source.File.tree ⟨"a.py", declaringFile.bytes, declaringFile.root⟩ .python).map Chunk.id =
      ["a.py#file:0-28", "a.py#container:0-27", "a.py#context:0-8", "a.py#member:11-27"] := by
  decide +kernel

theorem tree_firstDraft :
    (Source.File.tree ⟨"b.py", firstDraft.bytes, firstDraft.root⟩ .python).map Chunk.id =
      ["b.py#file:0-1"] := by
  decide +kernel

theorem tree_savedAgain :
    (Source.File.tree ⟨"b.py", savedAgain.bytes, savedAgain.root⟩ .python).map
      (fun c => (c.id, c.children)) = [("b.py#file:0-28", ["b.py#container:0-27"]),
        ("b.py#container:0-27", ["b.py#context:0-8", "b.py#member:11-27"]),
        ("b.py#context:0-8", []), ("b.py#member:11-27", [])] := by
  decide +kernel

/-- The file contains the class. -/
theorem exists_edge_savedAgain : ∃ e ∈ (Graph.ofChunks (readWith savedAgain).chunks).edges,
    e.source = "b.py#file:0-28" ∧ e.target = "b.py#container:0-27" := by
  have hlinked :=
    (Chunk.link_map (g := fun c => (c.id, c.children)) (fun _ _ _ => rfl) _).trans tree_savedAgain
  have hmem : ∀ p ∈ (Source.File.chunks ⟨"b.py", savedAgain.bytes, savedAgain.root⟩ .python).map
      (fun c => (c.id, c.children)), ∃ c ∈ (readWith savedAgain).chunks, c.id = p.1 ∧
          c.children = p.2 := by
    intro p hp
    obtain ⟨c, hc, rfl⟩ := List.mem_map.mp hp
    exact ⟨c, List.mem_flatMap.mpr ⟨_, List.mem_pair.mpr (Or.inr rfl), hc⟩, rfl, rfl⟩
  rw [Source.File.chunks, hlinked] at hmem
  obtain ⟨file, hfile, hid, hchildren⟩ := hmem _ List.mem_cons_self
  obtain ⟨child, hchild, hid', -⟩ := hmem _ (List.mem_cons_of_mem _ List.mem_cons_self)
  obtain ⟨e, he, hs, ht⟩ :=
    Inference.exists_edge_to_child (readWith_complete savedAgain_wellFormed).ids hfile hchild
      (by rw [hchildren, hid']; decide) (by rw [hid, hid']; decide)
  exact ⟨e, he, hs.trans hid, ht.trans hid'⟩

/-- The class that was added does not come up before. -/
theorem not_mem_ids : "b.py#container:0-27" ∉ (readWith firstDraft).chunks.map Chunk.id := by
  have hids : (readWith firstDraft).chunks.map Chunk.id =
      ["a.py#file:0-28", "a.py#container:0-27", "a.py#context:0-8", "a.py#member:11-27",
          "b.py#file:0-1"] := by
    rw [readWith, Extraction.chunks, List.flatMap_cons, List.flatMap_singleton, List.map_append,
      Source.File.chunks, Source.File.chunks, Chunk.link_map_id, Chunk.link_map_id,
      tree_declaringFile, tree_firstDraft]
    rfl
  rw [hids]
  decide

theorem run_readWith {f : FileEntry} (hf : f.root.WellFormed .python f.bytes.length) {s : Store}
    (hs : Kept constantEmbedder s) (hd : s.dimensions = 1) :
    ∃ summary, run constantEmbedder false (readWith f) s = (storeWith f s, .ok summary) := by
  obtain ⟨summary, h⟩ := runAt_folderWith hf hs hd
  obtain ⟨x, hx, hrun⟩ := runAt_eq h
  obtain rfl := Except.ok.inj ((extractAll_folderWith f).symm.trans hx)
  exact ⟨summary, hrun⟩

theorem firstStore_mirrors : Mirrors constantEmbedder (readWith firstDraft) firstStore := by
  obtain ⟨summary, h⟩ := run_readWith firstDraft_wellFormed (kept_empty 1) rfl
  exact (run_mirrors (kept_empty 1) (readWith_complete firstDraft_wellFormed)
    (upToDate_empty _) h).1

/-- The second run leaves the file alone, so that the class is not stored. -/
theorem not_stores_savedAgain (path : String) :
    ¬ Stores (storeWith savedAgain firstStore) path "b.py#container:0-27" := by
  obtain ⟨hs, hdims, hd⟩ := firstStore_dated
  obtain ⟨summary, h⟩ := run_readWith savedAgain_wellFormed hs hdims
  have hx := extractAll_folderWith savedAgain
  rw [run_stores hs (extractAll_carried hx) (readWith_pathsApart savedAgain).files (hd.apart hx) h]
  rintro (⟨f, hf, -, hid⟩ | ⟨-, -, hst⟩)
  · obtain ⟨hf, hne⟩ := List.mem_filter.mp hf
    rcases List.mem_pair.mp hf with rfl | rfl
    · rw [Source.File.chunks, Chunk.link_map_id, tree_declaringFile] at hid
      exact absurd hid (by decide)
    · obtain ⟨time, ht, hsec⟩ := firstStore_mirrors.times _ (List.mem_pair.mpr (Or.inr rfl))
      rw [bne_iff_ne] at hne
      exact hne (changeOf_of_recorded hs ht hsec)
  · obtain ⟨c, hc, -, hi⟩ := firstStore_mirrors.stores_iff.mp hst
    exact not_mem_ids (List.mem_map.mpr ⟨c, hc, hi⟩)

/-- With times as exact as they are recorded, a file that is edited within a second is left alone,
and what it then declares is an end of dependencies that is not stored. -/
theorem not_closed_savedAgain :
    Works constantEmbedder 1 ∧ History constantEmbedder 1 [readWith firstDraft] firstStore ∧
      extractAll (folderWith savedAgain) [] [] = .ok (readWith savedAgain) ∧
      (∀ y ∈ [readWith savedAgain, readWith firstDraft], PathsApart y) ∧
      (∀ y ∈ [readWith firstDraft], Steady id (readWith savedAgain) y) ∧
      ∃ s' summary, runAt constantEmbedder false (folderWith savedAgain) [] [] firstStore =
        (s', .ok summary) ∧ ¬ Closed s' := by
  obtain ⟨hs, hdims, -⟩ := firstStore_dated
  obtain ⟨summary, hrun⟩ := runAt_folderWith savedAgain_wellFormed hs hdims
  refine ⟨constantEmbedder_works, history_firstStore, extractAll_folderWith savedAgain,
    all_readWith_pathsApart [savedAgain, firstDraft], ?_, _, summary, hrun, fun hclosed => ?_⟩
  · intro y hy
    obtain rfl := List.mem_singleton.mp hy
    exact steady_readWith (by decide)
  · obtain ⟨second, h⟩ := run_readWith savedAgain_wellFormed hs hdims
    obtain ⟨old, hold, hedges⟩ := run_edges h
    have hnone : [] = old := Except.ok.inj hold
    rw [← hnone, List.append_nil] at hedges
    obtain ⟨e, he, -, htarget⟩ := exists_edge_savedAgain
    obtain ⟨path, hst⟩ := (hclosed (EdgeRow.ofEdge e) (hedges ▸ List.mem_map_of_mem he)).2
    exact not_stores_savedAgain path (htarget ▸ hst)

end EditedFile

end CodeAtlas.Indexing
