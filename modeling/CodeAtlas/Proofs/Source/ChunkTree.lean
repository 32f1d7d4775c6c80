import CodeAtlas.Proofs.Source.BlockChunks

/-!
The chunks of a file as a tree. What stands at the top of a file are imports and blocks; a block is
apart from every declaration of a package, and an import has a kind of its own. So the chunks of a
file with a well-formed tree are a rooted tree.
-/

namespace CodeAtlas.Source.File

open Chunk (Forest)

variable {f : File} {l : Language} {p : Parts}

section Shape
variable {parent : String}

def topId (f : File) (l : Language) : TopItem → String
  | .context c => (f.contextChunk l "" c).id
  | .block b => f.blockId false b

theorem topChunks_forest (fileId : String) (package : Option String) (item : TopItem) :
    Forest fileId [f.topId l item] (f.topChunks l p fileId package item) := by
  cases item with
  | context c => exact .leaf rfl rfl rfl
  | block b => exact blockChunks_forest b false fileId package

theorem head?_of_forest {id : String} {cs : List Chunk} (h : Forest parent [id] cs) :
    cs.head?.map Chunk.id = some id := by
  cases h with
  | cons hp hb ha => rfl

theorem topForest (fileId : String) (package : Option String) (items : List TopItem) :
    Forest fileId ((items.map (f.topChunks l p fileId package)).filterMap fun cs =>
      cs.head?.map Chunk.id) (items.map (f.topChunks l p fileId package)).flatten := by
  induction items with
  | nil => exact .nil fileId
  | cons item items ih =>
    have hi := topChunks_forest (f := f) (l := l) (p := p) fileId package item
    rw [List.map_cons, List.filterMap_cons, head?_of_forest hi, List.flatten_cons]
    exact hi.append ih

end Shape

section Distinct
variable {package : Option String}

theorem node_mem_of_mem_roots {b : Block} (hb : b ∈ Block.roots p) :
    b.node ∈ p.primaries ++ p.secondaries ∧
      ∀ {i t bs}, b = .container i t bs → b.node ∈ p.primaries := by
  obtain ⟨item, hi, rfl⟩ := List.mem_map.mp hb
  have hm := (Parts.mem_itemsOf.mp hi).1
  rw [Block.node_ofItem]
  cases item with
  | container i =>
    have hp := Parts.primary_mem hm
    exact ⟨List.mem_append_left _ hp, fun _ => hp⟩
  | member k =>
    refine ⟨List.mem_append_right _ (Parts.secondary_mem hm), fun h => ?_⟩
    rw [Block.ofItem] at h
    exact Block.noConfusion h

/-- The chunk of an import or a package is not a container, and its id names the span of its
node. -/
theorem contextChunk_spansIn {m : Language} (hp : p.Sound m) {t : Tree} (ht : t ∈ p.contexts)
    (parent : String) :
    f.SpansIn t.first t.last (f.contextChunk l parent (Context.ofNode l f.bytes t)) :=
  ⟨t.first, t.last, rfl, Nat.le_refl _, hp.nonempty t (List.mem_append_left _ ht), Nat.le_refl _⟩

theorem not_holds_of_context (hp : p.Sound l) {t : Tree} (ht : t ∈ p.contexts) (u : Tree) :
    ¬ l.Holds t u := by
  intro h
  have hc := hp.contexts.2 t ht
  have hk := h.container
  simp only [Language.contextNode] at hc
  simp [Language.containerNode, Language.opens, hc] at hk

theorem contexts_apart (hp : p.Sound l) {t u : Tree} (ht : t ∈ p.contexts) (hu : u ∈ p.contexts)
    (hne : t ≠ u) : Tree.Apart t u := by
  rcases hp.compatible t (List.mem_append_left _ ht) u (List.mem_append_left _ hu)
    hne with h | h | h
  · exact h
  · exact absurd h (not_holds_of_context hp ht u)
  · exact absurd h (not_holds_of_context hp hu t)

theorem package_apart (hp : p.Sound l) {t u : Tree} (ht : t ∈ p.contexts)
    (hk : l.packageKinds.contains t.kind = true) (hu : u ∈ p.primaries) : Tree.Apart t u := by
  have htall : t ∈ p.all := List.mem_append_left _ ht
  have huall : u ∈ p.all := List.mem_append_right _ (List.mem_append_left _ hu)
  have hne : t ≠ u := by
    rintro rfl
    have hc := hp.contexts.2 t ht
    have hu := hp.primaries.2 t hu
    simp only [Language.contextNode] at hc
    simp [Language.containerNode, Language.opens, hc] at hu
  rcases hp.compatible t htall u huall hne with h | h | h
  · exact h
  · exact absurd h (not_holds_of_context hp ht u)
  · have hplain := h.plain
    rw [Language.declaresPackage, hp.named t htall, hk] at hplain
    exact Bool.noConfusion hplain

theorem contextChunk_kind (f : File) (l : Language) (parent : String) (c : Context) :
    (f.contextChunk l parent c).kind =
      if l.packageKinds.contains c.node.kind then .context else .imported := rfl

/-- A package is apart from every container, so that its chunk is no segment of one. -/
theorem contextChunk_id_ne (hp : p.Sound l) {t : Tree} (ht : t ∈ p.contexts) {b : Block}
    (hb : b ∈ Block.roots p) {parent fileId : String} {d : Chunk}
    (hd : d ∈ f.blockChunks l p false fileId package b) :
    (f.contextChunk l parent (Context.ofNode l f.bytes t)).id ≠ d.id := by
  have hlaid := Block.roots_laid hp b hb
  have hcs := contextChunk_spansIn (f := f) (l := l) hp ht parent
  have hds := blockChunks_spansIn hlaid d hd
  obtain ⟨-, himported, hsegment⟩ := blockChunks_kind hlaid d hd
  intro he
  have hkind := hcs.kind_eq hds he
  rw [contextChunk_kind] at hkind
  split at hkind
  · rename_i hpk
    obtain ⟨i, u, bs, hbu⟩ := hsegment hkind.symm
    rcases package_apart hp ht hpk ((node_mem_of_mem_roots hb).2 hbu) with h | h
    · exact hcs.id_ne hds h he
    · exact hds.id_ne hcs h he.symm
  · exact himported hkind.symm

theorem topItems_perm (f : File) (l : Language) (p : Parts) :
    (f.topItems l p).Perm (p.contexts.map (fun t => TopItem.context (Context.ofNode l f.bytes t)) ++
      (Block.roots p).map TopItem.block) :=
  List.mergeSort_perm _ _

theorem contextChunks_pairwise {m : Language} (hp : p.Sound m) (parent : String) :
    (p.contexts.map fun t => f.contextChunk l parent (Context.ofNode l f.bytes t)).Pairwise
      fun c d => c.id ≠ d.id := by
  apply List.pairwise_map.mpr
  apply hp.contexts.1.imp_of_mem
  intro t u ht hu hne
  cases contexts_apart hp ht hu hne with
  | inl h => exact (contextChunk_spansIn hp ht _).id_ne (contextChunk_spansIn hp hu _) h
  | inr h => exact ((contextChunk_spansIn hp hu _).id_ne (contextChunk_spansIn hp ht _) h).symm

theorem rootsChunks_pairwise {m : Language} (hp : p.Sound m) (inside : Bool) (parent : String) :
    ((Block.roots p).flatMap (f.blockChunks l p inside parent package)).Pairwise fun c d =>
      c.id ≠ d.id := by
  have hlaid := Block.roots_laid hp
  apply List.pairwise_flatMap.mpr
  refine ⟨fun b hb => blockChunks_pairwise (hlaid b hb), (Block.roots_pairwise hp).imp_of_mem ?_⟩
  intro b b' hb hb' hbb c hc d hd
  exact (blockChunks_spansIn (hlaid b hb) c hc).id_ne (blockChunks_spansIn (hlaid b' hb') d hd) hbb

/-- What is below the file are the chunks of its imports and of its blocks. -/
theorem topChunks_perm (f : File) (l : Language) (p : Parts) (fileId : String)
    (package : Option String) : ((f.topItems l p).map (f.topChunks l p fileId package)).flatten.Perm
      (p.contexts.map (fun t => f.contextChunk l fileId (Context.ofNode l f.bytes t)) ++
        (Block.roots p).flatMap (f.blockChunks l p false fileId package)) := by
  rw [← List.flatMap_def]
  apply ((topItems_perm f l p).flatMap_right _).trans
  rw [List.flatMap_append, List.flatMap_map, List.flatMap_map]
  apply List.Perm.append_right
  rw [List.map_eq_flatMap]
  exact List.Perm.refl _

/-- The chunks below the file have different ids. -/
theorem topChunks_pairwise (hp : p.Sound l) (fileId : String) :
    ((f.topItems l p).map (f.topChunks l p fileId package)).flatten.Pairwise
      fun c d => c.id ≠ d.id := by
  apply ((topChunks_perm f l p fileId package).pairwise_iff fun h => Ne.symm h).mpr
  apply List.pairwise_append.mpr
  refine ⟨contextChunks_pairwise hp fileId, rootsChunks_pairwise hp false fileId, ?_⟩
  intro c hc d hd
  obtain ⟨t, ht, rfl⟩ := List.mem_map.mp hc
  obtain ⟨b, hb, hd⟩ := List.mem_flatMap.mp hd
  exact contextChunk_id_ne hp ht hb hd

/-- What is below the file spans bytes of a node that matters. -/
theorem topChunks_spansIn {m : Language} (hp : p.Sound m) {fileId : String} {c : Chunk}
    (hc : c ∈ ((f.topItems l p).map (f.topChunks l p fileId package)).flatten) :
    c.kind ≠ .file ∧ ∃ t ∈ p.all, f.SpansIn t.first t.last c := by
  rw [(topChunks_perm f l p fileId package).mem_iff] at hc
  cases List.mem_append.mp hc with
  | inl hc =>
    obtain ⟨t, ht, rfl⟩ := List.mem_map.mp hc
    refine ⟨?_, t, List.mem_append_left _ ht, contextChunk_spansIn hp ht _⟩
    rw [contextChunk_kind]
    split <;> exact nofun
  | inr hc =>
    obtain ⟨b, hb, hc⟩ := List.mem_flatMap.mp hc
    have hlaid := Block.roots_laid hp b hb
    exact ⟨(blockChunks_kind hlaid c hc).1, b.node, List.mem_append_right _
      (node_mem_of_mem_roots hb).1, blockChunks_spansIn hlaid c hc⟩

end Distinct

/-- The chunks of a file with a well-formed tree, before references are linked, are a file chunk and
a forest below it, all with different ids. -/
theorem tree_shape (f : File) (l : Language) (h : f.root.WellFormed l f.bytes.length) :
    ∃ file rest, f.tree l = file :: rest ∧ Chunk.FileTree file rest := by
  have hp := Parts.ofRoot_sound h
  refine ⟨_, _, rfl, rfl, rfl, fun c hc => (topChunks_spansIn hp hc).1, topForest _ _ _, ?_⟩
  rw [List.map_cons, List.nodup_cons]
  refine ⟨?_, List.pairwise_map.mpr (topChunks_pairwise hp _)⟩
  intro hm
  obtain ⟨c, hc, hid⟩ := List.mem_map.mp hm
  obtain ⟨hk, t, -, a, b, hs, -⟩ := topChunks_spansIn hp hc
  exact hk (Chunk.idOf_inj (hs.symm.trans hid)).2.1

theorem chunks_shape (f : File) (l : Language) (h : f.root.WellFormed l f.bytes.length) :
    ∃ file rest, f.chunks l = file :: rest ∧ Chunk.FileTree file rest := by
  obtain ⟨file, rest, htree, ht⟩ := tree_shape f l h
  rw [chunks, htree]
  exact ht.link

/-- The chunks of a file with a well-formed tree are a rooted tree in pre-order. -/
theorem chunks_rootedTree (f : File) (l : Language) (h : f.root.WellFormed l f.bytes.length) :
    Chunk.RootedTree (f.chunks l) := by
  obtain ⟨file, rest, hchunks, ht⟩ := chunks_shape f l h
  rw [hchunks]
  exact ht.rootedTree

/-- A Python file with an import and a class around a method and an empty class. -/
def nestedClasses : File where
  path := "shapes/point.py"
  bytes := "import os\nclass A:\n  def f(self): pass\n  class B: pass\n".toList.map fun c =>
    c.toNat.toUInt8
  root := .node { kind := "module", first := 0, last := 55 }
    [.node { kind := "import_statement", first := 0, last := 9 }
      [.node { kind := "dotted_name", first := 7, last := 9, field := some "name" } []],
    .node { kind := "class_definition", first := 10, last := 54 }
      [.node { kind := "identifier", first := 16, last := 17, field := some "name" } [],
      .node { kind := "block", first := 21, last := 54, field := some "body" }
        [.node { kind := "function_definition", first := 21, last := 38 }
          [.node { kind := "identifier", first := 25, last := 26, field := some "name" } []],
        .node { kind := "class_definition", first := 41, last := 54 }
          [.node { kind := "identifier", first := 47, last := 48, field := some "name" } []]]]]

theorem chunks_rootedTree_nestedClasses :
    nestedClasses.root.WellFormed .python nestedClasses.bytes.length ∧
      Chunk.RootedTree (nestedClasses.chunks .python) := by
  have h : nestedClasses.root.WellFormed .python nestedClasses.bytes.length := by decide
  exact ⟨h, chunks_rootedTree nestedClasses .python h⟩

end CodeAtlas.Source.File
