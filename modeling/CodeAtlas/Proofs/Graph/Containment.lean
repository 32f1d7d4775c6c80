import CodeAtlas.Proofs.Graph.Passes
import CodeAtlas.Proofs.Source.ChunkTree
import CodeAtlas.Proofs.Source.Origin

/-!
Containment in the graph of many files. The dependencies of chunks on their children join each chunk
to its parent and no other, so that from the chunk of a file one path leads to every chunk of the
file and none leaves it.
-/

namespace CodeAtlas

namespace Graph

/-- A path along dependencies from one id to another. -/
inductive Path (edges : List Dependency) (start : String) : List Dependency → String → Prop where
  | nil : Path edges start [] start
  | snoc {walk : List Dependency} {e : Dependency} : Path edges start walk e.source → e ∈ edges →
      Path edges start (walk ++ [e]) e.target

/-- Where nothing leads to the start and one dependency at most to any other id, there is one path
at most. -/
theorem Path.unique {edges : List Dependency} {start id : String} {walk walk' : List Dependency}
    (hstart : ∀ e ∈ edges, e.target ≠ start)
    (hone : ∀ e ∈ edges, ∀ e' ∈ edges, e.target = e'.target → e = e')
    (h : Path edges start walk id) (h' : Path edges start walk' id) : walk = walk' := by
  induction h generalizing walk' with
  | nil =>
    generalize hid : start = id at h'
    cases h' with
    | nil => rfl
    | snoc _ he => exact absurd hid.symm (hid ▸ hstart _ he)
  | @snoc walk e _ he ih =>
    generalize hid : e.target = id at h'
    cases h' with
    | nil => exact absurd hid (hstart e he)
    | snoc hw he' =>
      obtain rfl := hone e he _ he' hid
      rw [ih hw]

end Graph

namespace Chunk

/-- Chunks with distinct ids whose children and parents agree. What a chunk lists as its children
are chunks with this parent, each once and never the chunk itself, and a parent lists its chunk. -/
structure Linked (chunks : List Chunk) : Prop where
  distinct : (chunks.map Chunk.id).Nodup
  child : ∀ p ∈ chunks, ∀ id ∈ p.children, ∃ c ∈ chunks, c.id = id ∧ c.parent = some p.id
  parent : ∀ c ∈ chunks, ∀ q, c.parent = some q → ∃ p ∈ chunks, p.id = q ∧ c.id ∈ p.children
  once : ∀ p ∈ chunks, p.children.Nodup
  loopless : ∀ p ∈ chunks, p.id ∉ p.children

theorem FileTree.linked {file : Chunk} {rest : List Chunk} (h : FileTree file rest) :
    Linked (file :: rest) where
  distinct := h.distinct
  child p hp id hid := by
    obtain ⟨c, hc, hcp⟩ := h.child hp id hid
    exact ⟨c, List.mem_cons_of_mem file hc, hcp⟩
  parent c hc q hq := by
    cases List.mem_cons.mp hc with
    | inl he =>
      rw [he, h.root] at hq
      exact absurd hq nofun
    | inr hc =>
      obtain ⟨p, hp, hcp, hm⟩ := h.parent hc
      exact ⟨p, hp, Option.some.inj (hcp.symm.trans hq), hm⟩
  once p hp := h.children_nodup hp
  loopless p hp := h.not_mem_children hp

/-- Lists of chunks that are linked by themselves and share no ids are linked together. -/
theorem linked_flatMap {α : Type} {files : List α} {chunksOf : α → List Chunk}
    (h : ∀ x ∈ files, Linked (chunksOf x))
    (hapart : files.Pairwise fun x y => ∀ c ∈ chunksOf x, ∀ d ∈ chunksOf y, c.id ≠ d.id) :
    Linked (files.flatMap chunksOf) where
  distinct := by
    apply List.pairwise_map.mpr
    apply List.pairwise_flatMap.mpr
    exact ⟨fun x hx => List.pairwise_map.mp (h x hx).distinct, hapart⟩
  child p hp id hid := by
    obtain ⟨x, hx, hp⟩ := List.mem_flatMap.mp hp
    obtain ⟨c, hc, hcp⟩ := (h x hx).child p hp id hid
    exact ⟨c, List.mem_flatMap.mpr ⟨x, hx, hc⟩, hcp⟩
  parent c hc q hq := by
    obtain ⟨x, hx, hc⟩ := List.mem_flatMap.mp hc
    obtain ⟨p, hp, hpq⟩ := (h x hx).parent c hc q hq
    exact ⟨p, List.mem_flatMap.mpr ⟨x, hx, hp⟩, hpq⟩
  once p hp := by
    obtain ⟨x, hx, hp⟩ := List.mem_flatMap.mp hp
    exact (h x hx).once p hp
  loopless p hp := by
    obtain ⟨x, hx, hp⟩ := List.mem_flatMap.mp hp
    exact (h x hx).loopless p hp

end Chunk

namespace Inference

open Resolution
open Chunk (Linked Forest FileTree)

section Linked

variable {chunks : List Chunk} {p c : Chunk} {d e : Dependency}

theorem containment_targets (hl : Linked chunks) (hp : p ∈ chunks) :
    (containment chunks p).map Dependency.target = p.children := by
  unfold containment
  rw [List.map_map, List.map_filterMap]
  have hchild : ∀ id ∈ p.children, (byId? chunks id).map (fun c => c.id) = some id := by
    intro id hid
    obtain ⟨c, hc, rfl, -⟩ := hl.child p hp id hid
    rw [byId?_eq_some hl.distinct hc]
    rfl
  exact (List.filterMap_congr hchild).trans List.filterMap_some

theorem source_of_mem_containment (h : d ∈ containment chunks p) : d.source = p.id :=
  (foundIn_containment h).source

/-- What a chunk depends on as its children are the chunks whose parent it is. -/
theorem exists_child_of_containment (hl : Linked chunks) (hp : p ∈ chunks)
    (h : d ∈ containment chunks p) : ∃ c ∈ chunks, c.parent = some p.id ∧ d.target = c.id := by
  have ht : d.target ∈ p.children := by
    rw [← containment_targets hl hp]
    exact List.mem_map_of_mem h
  obtain ⟨c, hc, hid, hcp⟩ := hl.child p hp d.target ht
  exact ⟨c, hc, hcp, hid.symm⟩

theorem containment_keys_nodup (hl : Linked chunks) :
    ((chunks.flatMap (containment chunks)).map Dependency.key).Nodup := by
  apply List.pairwise_map.mpr
  apply List.pairwise_flatMap.mpr
  constructor
  · intro p hp
    have hn := hl.once p hp
    rw [← containment_targets hl hp] at hn
    apply (List.pairwise_map.mp hn).imp
    intro d e hde hk
    exact hde (congrArg (fun k => k.2.1) hk)
  · apply (List.pairwise_map.mp hl.distinct).imp
    intro p q hpq d hd e he hk
    apply hpq
    rw [← source_of_mem_containment hd, ← source_of_mem_containment he]
    exact congrArg Prod.fst hk

theorem edgesOf_contains_eq (hl : Linked chunks) :
    (Graph.ofChunks chunks).edgesOf .contains = chunks.flatMap (containment chunks) := by
  apply edgesOf_eq hl.distinct (filter_found_contains chunks) _ (containment_keys_nodup hl)
  intro d hd
  obtain ⟨p, hp, hd⟩ := List.mem_flatMap.mp hd
  obtain ⟨c, hc, -, ht⟩ := exists_child_of_containment hl hp hd
  have htarget : d.target ∈ p.children := by
    rw [← containment_targets hl hp]
    exact List.mem_map_of_mem hd
  rw [source_of_mem_containment hd]
  refine ⟨?_, List.mem_map_of_mem hp, ht ▸ List.mem_map_of_mem hc⟩
  intro he
  exact hl.loopless p hp (he ▸ htarget)

/-- A containment joins a chunk to its parent. -/
theorem ends_of_contains (hl : Linked chunks) (h : d ∈ (Graph.ofChunks chunks).edgesOf .contains) :
    ∃ p ∈ chunks, ∃ c ∈ chunks, c.parent = some p.id ∧ d.source = p.id ∧ d.target = c.id := by
  rw [edgesOf_contains_eq hl] at h
  obtain ⟨p, hp, hd⟩ := List.mem_flatMap.mp h
  obtain ⟨c, hc, hcp, ht⟩ := exists_child_of_containment hl hp hd
  exact ⟨p, hp, c, hc, hcp, source_of_mem_containment hd, ht⟩

theorem parent_of_contains (hl : Linked chunks) (h : d ∈ (Graph.ofChunks chunks).edgesOf .contains)
    (hc : c ∈ chunks) (ht : d.target = c.id) : c.parent = some d.source := by
  obtain ⟨p, hp, c', hc', hcp, hs, ht'⟩ := ends_of_contains hl h
  obtain rfl := Chunk.eq_of_id_eq hl.distinct hc' hc (ht'.symm.trans ht)
  rw [hcp, hs]

theorem exists_contains (hl : Linked chunks) (hc : c ∈ chunks) {q : String}
    (hq : c.parent = some q) :
    ∃ d ∈ (Graph.ofChunks chunks).edgesOf .contains, d.source = q ∧ d.target = c.id := by
  obtain ⟨p, hp, rfl, hm⟩ := hl.parent c hc q hq
  rw [← containment_targets hl hp] at hm
  obtain ⟨d, hd, ht⟩ := List.mem_map.mp hm
  refine ⟨d, ?_, source_of_mem_containment hd, ht⟩
  rw [edgesOf_contains_eq hl]
  exact List.mem_flatMap.mpr ⟨p, hp, hd⟩

/-- No two containments lead to one chunk. -/
theorem contains_unique (hl : Linked chunks) (hd : d ∈ (Graph.ofChunks chunks).edgesOf .contains)
    (he : e ∈ (Graph.ofChunks chunks).edgesOf .contains) (h : d.target = e.target) : d = e := by
  obtain ⟨p, -, c, hc, -, -, ht⟩ := ends_of_contains hl hd
  have hsource : d.source = e.source := by
    apply Option.some.inj
    rw [← parent_of_contains hl hd hc ht, parent_of_contains hl he hc (h.symm.trans ht)]
  obtain ⟨hd, hdr⟩ := List.mem_filter.mp hd
  obtain ⟨he, her⟩ := List.mem_filter.mp he
  have hkey : d.key = e.key := by
    rw [Dependency.key, Dependency.key, hsource, h, eq_of_beq hdr, eq_of_beq her]
  exact List.inj_on_of_nodup_map (ofChunks_keys_nodup chunks) hd he hkey

theorem filter_target_eq_singleton (hl : Linked chunks)
    (hd : d ∈ (Graph.ofChunks chunks).edgesOf .contains) :
    (((Graph.ofChunks chunks).edgesOf .contains).filter fun e => e.target == d.target) = [d] := by
  have hn : ((Graph.ofChunks chunks).edgesOf .contains).Nodup := by
    apply List.Nodup.of_map Dependency.key
    exact (ofChunks_keys_nodup chunks).sublist (List.filter_sublist.map _)
  apply Chunk.filter_eq_singleton hn hd
  intro e he
  rw [beq_iff_eq]
  constructor
  · exact fun h => contains_unique hl he hd h
  · exact fun h => congrArg Dependency.target h

/-- From where a path leads to the parent of a forest, one leads to every chunk of it. -/
theorem exists_path_of_forest {edges : List Dependency} {start parent : String} {ids : List String}
    {cs : List Chunk} (hf : Forest parent ids cs)
    (he : ∀ c ∈ cs, ∀ q, c.parent = some q → ∃ e ∈ edges, e.source = q ∧ e.target = c.id)
    (hpath : ∃ walk, Graph.Path edges start walk parent) :
    ∀ c ∈ cs, ∃ walk, Graph.Path edges start walk c.id := by
  induction hf with
  | nil => exact fun c hc => absurd hc List.not_mem_nil
  | @cons parent ids d below after hp hb ha ihb iha =>
    have hd : ∃ walk, Graph.Path edges start walk d.id := by
      obtain ⟨walk, hw⟩ := hpath
      obtain ⟨e, hm, rfl, ht⟩ := he d (by simp) parent hp
      exact ⟨walk ++ [e], ht ▸ .snoc hw hm⟩
    intro c hc
    cases List.mem_append.mp hc with
    | inl hc =>
      cases List.mem_cons.mp hc with
      | inl hcd => exact hcd ▸ hd
      | inr hc => exact ihb (fun b hb => he b (by simp [hb])) hd c hc
    | inr hc => exact iha (fun b hb => he b (by simp [hb])) hpath c hc

end Linked

/-- Containments among which the chunks of a file are a tree: none leads to the file, one to each
other chunk, from its parent, and one path leads from the file to every chunk. -/
structure TreeAmong (edges : List Dependency) (file : Chunk) (rest : List Chunk) : Prop where
  kind : file.kind = .file
  others : ∀ c ∈ rest, c.kind ≠ .file
  root : ∀ e ∈ edges, e.target ≠ file.id
  parent : ∀ c ∈ rest, ∃ e, (edges.filter fun e => e.target == c.id) = [e] ∧
    c.parent = some e.source
  path : ∀ c ∈ file :: rest, ∃! walk, Graph.Path edges file.id walk c.id

theorem treeAmong_of_fileTree {chunks : List Chunk} {file : Chunk} {rest : List Chunk}
    (hl : Linked chunks) (ht : FileTree file rest) (hsub : file :: rest ⊆ chunks) :
    TreeAmong ((Graph.ofChunks chunks).edgesOf .contains) file rest := by
  have hroot : ∀ e ∈ (Graph.ofChunks chunks).edgesOf .contains, e.target ≠ file.id := by
    intro e he htarget
    have hparent := parent_of_contains hl he (hsub List.mem_cons_self) htarget
    rw [ht.root] at hparent
    exact absurd hparent nofun
  have hchild : ∀ c ∈ rest, ∀ q, c.parent = some q →
      ∃ e ∈ (Graph.ofChunks chunks).edgesOf .contains, e.source = q ∧ e.target = c.id :=
    fun c hc q hq => exists_contains hl (hsub (List.mem_cons_of_mem file hc)) hq
  refine ⟨ht.kind, ht.others, hroot, ?_, ?_⟩
  · intro c hc
    obtain ⟨p, -, hp, -⟩ := ht.parent hc
    obtain ⟨e, he, hs, htarget⟩ := hchild c hc p.id hp
    refine ⟨e, ?_, hs ▸ hp⟩
    rw [← htarget]
    exact filter_target_eq_singleton hl he
  · intro c hc
    have hexists : ∃ walk, Graph.Path ((Graph.ofChunks chunks).edgesOf .contains) file.id
        walk c.id := by
      cases List.mem_cons.mp hc with
      | inl he => exact ⟨[], he ▸ .nil⟩
      | inr hc => exact exists_path_of_forest ht.below hchild ⟨[], .nil⟩ c hc
    obtain ⟨walk, hw⟩ := hexists
    refine ⟨walk, hw, fun walk' hw' => ?_⟩
    exact hw'.unique hroot (fun e he e' he' => contains_unique hl he he') hw

end Inference

namespace Source

open Inference

def chunksOfFiles (files : List (File × Language)) : List Chunk :=
  files.flatMap fun x => x.1.chunks x.2

variable {files : List (File × Language)}

theorem chunksOfFiles_linked (hpaths : (files.map fun x => x.1.path).Nodup)
    (hw : ∀ x ∈ files, x.1.root.WellFormed x.2 x.1.bytes.length) :
    Chunk.Linked (chunksOfFiles files) := by
  apply Chunk.linked_flatMap
  · intro x hx
    obtain ⟨file, rest, hchunks, ht⟩ := File.chunks_shape x.1 x.2 (hw x hx)
    rw [hchunks]
    exact ht.linked
  · apply (List.pairwise_map.mp hpaths).imp
    intro x y hne c hc d hd
    exact (File.chunks_origin hc).id_ne (File.chunks_origin hd) hne

/-- The containments in the graph of files with well-formed trees and different paths are one tree
for each file, and no containment joins chunks of two files. -/
theorem contains_forest (hpaths : (files.map fun x => x.1.path).Nodup)
    (hw : ∀ x ∈ files, x.1.root.WellFormed x.2 x.1.bytes.length) :
    ((chunksOfFiles files).map Chunk.id).Nodup ∧
      (∀ x ∈ files, ∃ file rest, x.1.chunks x.2 = file :: rest ∧
        TreeAmong ((Graph.ofChunks (chunksOfFiles files)).edgesOf .contains) file rest) ∧
      ∀ e ∈ (Graph.ofChunks (chunksOfFiles files)).edgesOf .contains, ∃ x ∈ files,
        e.source ∈ (x.1.chunks x.2).map Chunk.id ∧ e.target ∈ (x.1.chunks x.2).map Chunk.id := by
  have hl := chunksOfFiles_linked hpaths hw
  refine ⟨hl.distinct, ?_, ?_⟩
  · intro x hx
    obtain ⟨file, rest, hchunks, ht⟩ := File.chunks_shape x.1 x.2 (hw x hx)
    refine ⟨file, rest, hchunks, treeAmong_of_fileTree hl ht ?_⟩
    rw [← hchunks]
    exact fun c hc => List.mem_flatMap.mpr ⟨x, hx, hc⟩
  · intro e he
    obtain ⟨p, hp, c, hc, hcp, hs, ht⟩ := ends_of_contains hl he
    obtain ⟨x, hx, hcx⟩ := List.mem_flatMap.mp hc
    obtain ⟨file, rest, hchunks, htree⟩ := File.chunks_shape x.1 x.2 (hw x hx)
    -- the parent of a chunk is in its file, and no other chunk has its id
    have hlinked := hchunks ▸ htree.linked
    obtain ⟨q, hq, hqp, -⟩ := hlinked.parent c hcx p.id hcp
    refine ⟨x, hx, ?_, ht ▸ List.mem_map_of_mem hcx⟩
    rw [hs, ← hqp]
    exact List.mem_map_of_mem hq

def twoFiles : List (File × Language) :=
  [(File.nestedClasses, .python), ({ File.nestedClasses with path := "shapes/line.py" }, .python)]

theorem contains_forest_twoFiles :
    ((twoFiles.map fun x => x.1.path).Nodup ∧
      ∀ x ∈ twoFiles, x.1.root.WellFormed x.2 x.1.bytes.length) ∧
      ∀ x ∈ twoFiles, ∃ file rest, x.1.chunks x.2 = file :: rest ∧
        TreeAmong ((Graph.ofChunks (chunksOfFiles twoFiles)).edgesOf .contains) file rest := by
  have hpaths : (twoFiles.map fun x => x.1.path).Nodup := by decide
  have hw : ∀ x ∈ twoFiles, x.1.root.WellFormed x.2 x.1.bytes.length := by decide
  exact ⟨⟨hpaths, hw⟩, (contains_forest hpaths hw).2.1⟩

end Source

end CodeAtlas
