import CodeAtlas.Proofs.Source.Placement

/-!
What containers are cut into. The chunks below the chunk of a container are its declaration, the
nodes in it and its closing; they are apart and in order, and but for blanks nothing is left out
before the first node and after the last.
-/

namespace CodeAtlas.Source

structure Cut where
  kind : ChunkKind
  first : Nat
  last : Nat
  role? : Option String

namespace Cut

def ofNode (l : Language) (t : Tree) : Cut :=
  ⟨if l.containerNode t then .container else .member, t.first, t.last, none⟩

def ofSegment (role : String) (span : Nat × Nat) : Cut :=
  ⟨.context, span.1, span.2, some role⟩

end Cut

/-- What a container is cut into by the nodes in it: nothing without any; or else what stands before
the first of them, the nodes, and what stands after the last of them, less the blanks. -/
inductive CutUp (l : Language) (bytes : List UInt8) (q : Tree) : List Tree → List Cut → Prop where
  | empty : CutUp l bytes q [] []
  | around {t : Tree} {ts : List Tree} {before after : Option (Nat × Nat)} :
      Stripped bytes q.first t.first before →
      Stripped bytes ((t :: ts).getLast (List.cons_ne_nil t ts)).last q.last after →
      CutUp l bytes q (t :: ts)
        (before.toList.map (Cut.ofSegment "declaration") ++ (t :: ts).map (Cut.ofNode l) ++
          after.toList.map (Cut.ofSegment "closing"))

/-- Parts that stand one after the other between two bytes, none of them empty. -/
structure InOrder (first last : Nat) (cuts : List Cut) : Prop where
  apart : cuts.Pairwise fun a b => a.last ≤ b.first
  inside : ∀ c ∈ cuts, first ≤ c.first ∧ c.first < c.last ∧ c.last ≤ last

theorem InOrder.append {first middle last : Nat} {cuts more : List Cut}
    (h : InOrder first middle cuts) (hmore : InOrder middle last more) (hfirst : first ≤ middle)
    (hlast : middle ≤ last) : InOrder first last (cuts ++ more) where
  apart := List.pairwise_append.mpr ⟨h.apart, hmore.apart, fun a ha b hb =>
    (h.inside a ha).2.2.trans (hmore.inside b hb).1⟩
  inside := by
    intro c hc
    rcases List.mem_append.mp hc with hc | hc
    · have hspan := h.inside c hc
      omega
    · have hspan := hmore.inside c hc
      omega

theorem Stripped.inOrder {bytes : List UInt8} {first last : Nat} {found : Option (Nat × Nat)}
    (h : Stripped bytes first last found) (role : String) :
    InOrder first last (found.toList.map (Cut.ofSegment role)) := by
  cases h with
  | none _ => exact ⟨.nil, nofun⟩
  | some ha hab hb =>
    refine ⟨List.pairwise_singleton _ _, fun c hc => ?_⟩
    obtain rfl := List.mem_singleton.mp hc
    exact ⟨ha, hab, hb⟩

namespace File

variable {f : File} {l : Language} {p : Parts}

def IsCut (f : File) (l : Language) (parent : String) (c : Chunk) (cut : Cut) : Prop :=
  c.core = f.chunkOf l cut.kind cut.first cut.last (some parent) ∧
    ∀ role ∈ cut.role?, c.metadata.lookup "segment" = some (.text role)

section Cuts
variable {i : Nat} {t : Tree} {b : Block} {bs : List Block} {before after : Option (Nat × Nat)}

theorem inOrder_nodes (l : Language) (h : (Block.container i t (b :: bs)).Laid) :
    InOrder b.node.first ((b :: bs).getLast (List.cons_ne_nil b bs)).node.last
      (((b :: bs).map Block.node).map (Cut.ofNode l)) := by
  cases h with
  | container _ hl _ hp =>
    constructor
    · rw [List.pairwise_map, List.pairwise_map]
      exact hp
    · intro c hc
      rw [List.map_map] at hc
      obtain ⟨d, hd, rfl⟩ := List.mem_map.mp hc
      obtain ⟨hfirst, hlast⟩ := between_ends hl hp d hd
      exact ⟨hfirst, (hl d hd).nonempty, hlast⟩

theorem inOrder_cuts (l : Language) (h : (Block.container i t (b :: bs)).Laid) {bytes : List UInt8}
    (hbefore : Stripped bytes t.first b.node.first before)
    (hafter : Stripped bytes ((b :: bs).getLast (List.cons_ne_nil b bs)).node.last t.last after) :
    InOrder t.first t.last (before.toList.map (Cut.ofSegment "declaration") ++
      ((b :: bs).map Block.node).map (Cut.ofNode l) ++ after.toList.map
          (Cut.ofSegment "closing")) := by
  have hnodes := inOrder_nodes l h
  cases h with
  | container _ hl he hp =>
    have hfirst := (Language.encloses_iff.mp (he b List.mem_cons_self)).1
    have hlast := (Language.encloses_iff.mp (he _ (List.getLast_mem (List.cons_ne_nil b bs)))).1
    have hends := (between_ends hl hp b List.mem_cons_self).2
    have hnonempty := (hl b List.mem_cons_self).nonempty
    unfold Tree.Inside at hfirst hlast
    exact ((hbefore.inOrder _).append hnodes (by omega) (by omega)).append (hafter.inOrder _)
      (by omega) (by omega)

/-- The chunk of a block in a container. -/
theorem exists_isCut (parent : String) (parentName : Option String) (b : Block)
    (hb : blockKind true b = (Cut.ofNode l b.node).kind) :
    ∃ c ∈ f.blockChunks l p true parent parentName b, c.id = f.blockId true b ∧
      f.IsCut l parent c (Cut.ofNode l b.node) := by
  cases b with
  | member t =>
    rw [blockChunks_member]
    refine ⟨_, List.mem_singleton_self _, rfl, ?_, nofun⟩
    rw [← hb]
    rfl
  | container i t bs =>
    cases bs with
    | nil =>
      rw [blockChunks_empty]
      refine ⟨_, List.mem_singleton_self _, rfl, ?_, nofun⟩
      rw [← hb]
      rfl
    | cons b bs =>
      rw [blockChunks_container]
      refine ⟨_, List.mem_cons_self, rfl, ?_, nofun⟩
      rw [← hb]
      rfl

theorem exists_forall₂_isCut (parent : String) (parentName : Option String) (bs : List Block)
    (hbs : ∀ b ∈ bs, blockKind true b = (Cut.ofNode l b.node).kind) :
    ∃ cs ⊆ f.blocksChunks l p true parent parentName bs, cs.map Chunk.id = bs.map (f.blockId true) ∧
      List.Forall₂ (f.IsCut l parent) cs ((bs.map Block.node).map (Cut.ofNode l)) := by
  induction bs with
  | nil => exact ⟨[], List.nil_subset _, rfl, .nil⟩
  | cons b bs ih =>
    obtain ⟨hb, hbs⟩ := List.forall_mem_cons.mp hbs
    obtain ⟨c, hc, hid, hcut⟩ := exists_isCut (f := f) (p := p) parent parentName b hb
    obtain ⟨cs, hsub, hids, hcuts⟩ := ih hbs
    refine ⟨c :: cs, ?_, by rw [List.map_cons, List.map_cons, hid, hids], .cons hcut hcuts⟩
    rw [blocksChunks]
    exact List.cons_subset.mpr ⟨List.mem_append_left _ hc,
      fun d hd => List.mem_append_right _ (hsub hd)⟩

theorem segment_isCut (parent role : String) (first last : Nat) :
    List.Forall₂ (f.IsCut l parent) (f.segment l parent role first last)
      ((trimSpan? f.bytes first last).toList.map (Cut.ofSegment role)) := by
  unfold segment
  rw [List.forall₂_map_left_iff, List.forall₂_map_right_iff, List.forall₂_same]
  intro span _
  refine ⟨rfl, ?_⟩
  rintro role ⟨rfl⟩
  rfl

/-- The chunk of a container lists the chunks of its parts. -/
theorem exists_cuts {inside : Bool} {parent : String} {parentName : Option String}
    (h : (Block.container i t bs).Laid)
    (hkinds : ∀ b ∈ bs, blockKind true b = (Cut.ofNode l b.node).kind) {c : Chunk}
    (hc : (f.blockChunks l p inside parent parentName (.container i t bs)).head? = some c) :
    ∃ cuts, ∃ cs ⊆ f.blockChunks l p inside parent parentName (.container i t bs),
      CutUp l f.bytes t (bs.map Block.node) cuts ∧ InOrder t.first t.last cuts ∧
        cs.map Chunk.id = c.children ∧
        List.Forall₂ (f.IsCut l c.id) cs cuts ∧
            c.id = Chunk.idOf f.path .container t.first t.last := by
  cases bs with
  | nil =>
    rw [blockChunks_empty, List.head?_cons] at hc
    obtain rfl := Option.some.inj hc
    exact ⟨[], [], List.nil_subset _, .empty, ⟨.nil, nofun⟩, rfl, .nil, rfl⟩
  | cons b bs =>
    have hbefore := stripped_trimSpan? f.bytes t.first b.node.first
    have hafter :=
      stripped_trimSpan? f.bytes ((b :: bs).getLast (List.cons_ne_nil b bs)).node.last t.last
    rw [blockChunks_container, List.head?_cons] at hc
    obtain rfl := Option.some.inj hc
    obtain ⟨inner, hsub, hids, hinner⟩ := exists_forall₂_isCut (f := f) (p := p)
      (f.containerChunk l p parent parentName i t).id
      (f.containerChunk l p parent parentName i t).qualifiedName (b :: bs) hkinds
    refine ⟨_,
      f.segment l (f.containerChunk l p parent parentName i t).id "declaration" t.first
          b.node.first ++ inner ++
        f.segment l (f.containerChunk l p parent parentName i t).id "closing"
          ((b :: bs).getLast (List.cons_ne_nil b bs)).node.last t.last,
      ?_, .around hbefore ?_, inOrder_cuts l h hbefore hafter, ?_, ?_, rfl⟩
    · rw [blockChunks_container]
      intro d hd
      rw [List.mem_append, List.mem_append] at hd
      rw [List.mem_cons, List.mem_append, List.mem_append]
      exact Or.inr (hd.imp_left (Or.imp_right fun hd => hsub hd))
    · show Stripped f.bytes
        (((b :: bs).map Block.node).getLast (List.cons_ne_nil _ _)).last t.last _
      rw [List.getLast_map]
      exact hafter
    · rw [List.map_append, List.map_append, hids]
    · exact List.rel_append (List.rel_append (segment_isCut ..) hinner) (segment_isCut ..)

end Cuts

section Containers

/-- Whether a chunk is that of a container among some blocks, the chunks of which are all among some
chunks. -/
def ContainerIn (f : File) (l : Language) (p : Parts) (blocks : List (Block × Option Tree))
    (cs : List Chunk) (c : Chunk) : Prop :=
  ∃ i t bs owner parentName, (.container i t bs, owner) ∈ blocks ∧
    (f.blockChunks l p owner.isSome (f.parentId owner) parentName (.container i t bs)).head? =
    some c ∧ f.blockChunks l p owner.isSome (f.parentId owner) parentName (.container i t bs) ⊆ cs

variable {blocks more : List (Block × Option Tree)} {cs ds : List Chunk} {c : Chunk}

theorem ContainerIn.mono (h : f.ContainerIn l p blocks cs c) (hblocks : blocks ⊆ more)
    (hcs : cs ⊆ ds) : f.ContainerIn l p more ds c := by
  obtain ⟨i, t, bs, owner, parentName, hmem, hhead, hsub⟩ := h
  exact ⟨i, t, bs, owner, parentName, hblocks hmem, hhead, List.Subset.trans hsub hcs⟩

mutual

/-- The containers among the chunks of a block are those among the blocks in it. -/
theorem containerIn_blockChunks :
    (b : Block) → (owner : Option Tree) → (parentName : Option String) →
    ∀ c ∈ f.blockChunks l p owner.isSome (f.parentId owner) parentName b, c.kind = .container →
      f.ContainerIn l p (b.owned owner)
      (f.blockChunks l p owner.isSome (f.parentId owner) parentName b) c
  | .member t, owner, parentName, c, hc, hk => by
    rw [blockChunks_member, List.mem_singleton] at hc
    subst hc
    cases owner <;> exact absurd hk nofun
  | .container i t [], owner, parentName, c, hc, hk => by
    refine ⟨i, t, [], owner, parentName, Block.mem_owned_self owner _, ?_, List.Subset.refl _⟩
    rw [blockChunks_empty, List.mem_singleton] at hc
    rw [blockChunks_empty, hc]
    rfl
  | .container i t (b :: bs), owner, parentName, c, hc, hk => by
    have hself : ∀ {c},
        (f.blockChunks l p owner.isSome (f.parentId owner) parentName
          (.container i t (b :: bs))).head? = some c →
        f.ContainerIn l p ((Block.container i t (b :: bs)).owned owner)
          (f.blockChunks l p owner.isSome (f.parentId owner) parentName
            (.container i t (b :: bs))) c :=
      fun hhead => ⟨i, t, b :: bs, owner, parentName, Block.mem_owned_self owner _, hhead,
        List.Subset.refl _⟩
    rw [blockChunks_container] at hc hself ⊢
    rcases List.mem_cons.mp hc with rfl | hc
    · exact hself rfl
    · rcases List.mem_append.mp hc with hc | hc
      · rcases List.mem_append.mp hc with hc | hc
        · exact absurd ((segment_spansIn c hc).2.symm.trans hk) nofun
        · have ih := containerIn_blocksChunks (b :: bs) (some t)
            (f.containerChunk l p (f.parentId owner) parentName i t).qualifiedName c hc hk
          refine ih.mono ?_ ?_
          · rw [Block.owned]
            exact List.subset_cons_self _ _
          · exact fun d hd =>
              List.mem_cons_of_mem _ (List.mem_append_left _ (List.mem_append_right _ hd))
      · exact absurd ((segment_spansIn c hc).2.symm.trans hk) nofun

theorem containerIn_blocksChunks :
    (bs : List Block) → (owner : Option Tree) → (parentName : Option String) →
    ∀ c ∈ f.blocksChunks l p owner.isSome (f.parentId owner) parentName bs, c.kind = .container →
      f.ContainerIn l p (Block.ownedAll owner bs)
        (f.blocksChunks l p owner.isSome (f.parentId owner) parentName bs) c
  | [], _, _, c, hc, _ => absurd hc List.not_mem_nil
  | b :: bs, owner, parentName, c, hc, hk => by
    rw [blocksChunks] at hc ⊢
    rw [Block.ownedAll]
    rcases List.mem_append.mp hc with hc | hc
    · exact (containerIn_blockChunks b owner parentName c hc hk).mono (List.subset_append_left _ _)
        (List.subset_append_left _ _)
    · exact (containerIn_blocksChunks bs owner parentName c hc hk).mono
        (List.subset_append_right _ _) (List.subset_append_right _ _)

end

/-- The nodes of the blocks in a container are those whose nearest container it is. -/
theorem mem_inner_iff (h : f.root.Spanned l) {i : Nat}
    (hi : .container i ∈ (Parts.ofRoot l f.root).items) {t : Tree} :
    t ∈ (((Parts.ofRoot l f.root).itemsOf (some i)).map (Block.ofItem (Parts.ofRoot l f.root))).map
      Block.node ↔
      (t, some ((Parts.ofRoot l f.root).primary i)) ∈ l.placements f.root ∧
          l.contextNode t = false := by
  rw [h.mem_placements_iff (x := (t, some ((Parts.ofRoot l f.root).primary i))), List.map_map,
    List.mem_map]
  constructor
  · rintro ⟨item, hitem, rfl⟩
    obtain ⟨hmem, howner⟩ := Parts.mem_itemsOf.mp hitem
    refine ⟨item, hmem, Prod.ext (Block.node_ofItem _ item) ?_⟩
    rw [Parts.ownerNode?, howner]
    rfl
  · rintro ⟨item, hmem, he⟩
    obtain ⟨rfl, howner⟩ := Prod.mk.inj he
    obtain ⟨j, hj, hnode⟩ := Option.map_eq_some_iff.mp howner.symm
    have hsame : Item.container j = .container i :=
      h.sound.node_inj (Parts.ownerOf?_eq_some hj).1 hi hnode
    exact ⟨item, Parts.mem_itemsOf.mpr ⟨hmem, (Item.container.inj hsame) ▸ hj⟩,
      Block.node_ofItem _ item⟩

theorem blockKind_eq (h : f.root.Spanned l) {item : Item}
    (hi : item ∈ (Parts.ofRoot l f.root).items) :
    blockKind true (Block.ofItem (Parts.ofRoot l f.root) item) =
      (Cut.ofNode l (Block.ofItem (Parts.ofRoot l f.root) item).node).kind := by
  rw [Cut.ofNode, Block.node_ofItem]
  cases item with
  | container i =>
    have hcontainer : l.containerNode ((Parts.ofRoot l f.root).node (.container i)) = true :=
      h.sound.primaries.2 _ (Parts.primary_mem hi)
    rw [if_pos hcontainer, Block.ofItem_container]
    rfl
  | member k =>
    have hmember : l.containerNode ((Parts.ofRoot l f.root).node (.member k)) = false :=
      h.sound.member_not_container hi
    rw [hmember, Block.ofItem]
    rfl

end Containers

section Below

variable {package : Option String} {cs ds : List Chunk} {c : Chunk}

def TopItem.isBlock : TopItem → Bool
  | .context _ => false
  | .block _ => true

def blockPart (f : File) (l : Language) (package : Option String) : List Chunk :=
  (((f.topItems l (Parts.ofRoot l f.root)).filter TopItem.isBlock).map
    (f.topChunks l (Parts.ofRoot l f.root) (f.parentId none) package)).flatten

/-- What does not belong to the file is in a block. -/
theorem filter_parent_below {id : String} (hid : id ≠ f.parentId none) :
    ((f.below l package).filter fun c => c.parent == some id) =
      (f.blockPart l package).filter fun c => c.parent == some id := by
  unfold below blockPart
  induction f.topItems l (Parts.ofRoot l f.root) with
  | nil => rfl
  | cons item rest ih =>
    cases item with
    | context context =>
      have hnone : (f.topChunks l (Parts.ofRoot l f.root) (f.parentId none) package
          (.context context)).filter (fun c => c.parent == some id) = [] :=
        List.filter_cons_of_neg (by simpa [contextChunk, chunkOf] using hid.symm)
      rw [List.map_cons, List.flatten_cons, List.filter_append, ih, hnone, List.nil_append,
        List.filter_cons_of_neg Bool.false_ne_true]
    | block b =>
      rw [List.filter_cons_of_pos rfl, List.map_cons, List.flatten_cons, List.filter_append, ih,
        List.map_cons, List.flatten_cons, List.filter_append]

theorem blockPart_perm (f : File) (l : Language) (package : Option String) :
    (f.blockPart l package).Perm ((Block.roots (Parts.ofRoot l f.root)).flatMap
      (f.blockChunks l (Parts.ofRoot l f.root) false (f.parentId none) package)) := by
  have hcontexts : ((Parts.ofRoot l f.root).contexts.map fun t => TopItem.context
      (Context.ofNode l f.bytes t)).filter TopItem.isBlock = [] := by
    apply List.filter_eq_nil_iff.mpr
    intro item hitem
    obtain ⟨t, -, rfl⟩ := List.mem_map.mp hitem
    exact Bool.false_ne_true
  have hblocks : ((Block.roots (Parts.ofRoot l f.root)).map TopItem.block).filter TopItem.isBlock =
      (Block.roots (Parts.ofRoot l f.root)).map TopItem.block := by
    apply List.filter_eq_self.mpr
    intro item hitem
    obtain ⟨b, -, rfl⟩ := List.mem_map.mp hitem
    rfl
  have hitems := (topItems_perm f l (Parts.ofRoot l f.root)).filter TopItem.isBlock
  rw [List.filter_append, hcontexts, hblocks, List.nil_append] at hitems
  rw [blockPart, ← List.flatMap_def]
  refine (hitems.flatMap_right _).trans (.of_eq ?_)
  rw [List.flatMap_map]
  rfl

theorem blockPart_forest (f : File) (l : Language) (package : Option String) :
    ∃ ids, Chunk.Forest (f.parentId none) ids (f.blockPart l package) :=
  ⟨_, topForest (f.parentId none) package _⟩

/-- The chunks of the blocks of a file and the file have different ids. -/
theorem blockPart_nodup (h : f.root.Spanned l) :
    (f.parentId none :: (f.blockPart l package).map Chunk.id).Nodup := by
  rw [List.nodup_cons, ((blockPart_perm f l package).map Chunk.id).nodup_iff]
  refine ⟨fun hm => ?_,
    List.pairwise_map.mpr (rootsChunks_pairwise h.sound false (f.parentId none))⟩
  obtain ⟨c, hc, hid⟩ := List.mem_map.mp hm
  obtain ⟨b, hb, hc⟩ := List.mem_flatMap.mp ((blockPart_perm f l package).mem_iff.mp hc)
  have hlaid := Block.roots_laid h.sound b hb
  obtain ⟨first, last, hs, -⟩ := blockChunks_spansIn hlaid c hc
  exact (blockChunks_kind hlaid c hc).1 (Chunk.idOf_inj (hs.symm.trans hid)).2.1

theorem mem_blockPart (hc : c ∈ f.below l package) (hk : c.kind = .container) :
    c ∈ f.blockPart l package := by
  rw [below, (topChunks_perm f l _ _ package).mem_iff, List.mem_append] at hc
  rw [(blockPart_perm f l package).mem_iff]
  refine hc.resolve_left fun hc => ?_
  obtain ⟨t, -, rfl⟩ := List.mem_map.mp hc
  rw [contextChunk_kind] at hk
  split at hk <;> exact absurd hk nofun

theorem containerIn_blockPart (hc : c ∈ f.blockPart l package) (hk : c.kind = .container) :
    f.ContainerIn l (Parts.ofRoot l f.root)
      (Block.ownedAll none (Block.roots (Parts.ofRoot l f.root))) (f.blockPart l package) c := by
  have hroots := (blockPart_perm f l package).mem_iff.mp hc
  have hsub := (blockPart_perm f l package).symm.subset
  rw [← blocksChunks_eq] at hroots hsub
  exact (containerIn_blocksChunks _ none package c hroots hk).mono (List.Subset.refl _) hsub

/-- The chunks below a chunk are told by its children. -/
theorem filter_parent_eq (h : f.root.Spanned l) (hc : c ∈ f.blockPart l package)
    (hds : ds ⊆ f.blockPart l package) (hids : ds.map Chunk.id = c.children) :
    ((f.below l package).filter fun d => d.parent == some c.id) = ds := by
  obtain ⟨ids, hforest⟩ := blockPart_forest f l package
  have hnodup : (f.parentId none :: (f.blockPart l package).map Chunk.id).Nodup := blockPart_nodup h
  obtain ⟨hfile, hapart⟩ := List.nodup_cons.mp hnodup
  rw [filter_parent_below fun he => hfile (he ▸ List.mem_map_of_mem hc)]
  refine Chunk.eq_of_map_id_eq hapart (List.filter_subset_self _) hds ?_
  exact ((hforest.map_id_filter_parent hnodup).2 c hc).trans hids.symm

end Below

/-- Whether the chunk of a container is divided among some chunks as its node is cut up by the nodes
in it, which are those whose nearest container it is. -/
structure Divided (f : File) (l : Language) (cs : List Chunk) (c : Chunk) (q : Tree)
    (inner : List Tree) (cuts : List Cut) : Prop where
  id : c.id = Chunk.idOf f.path .container q.first q.last
  node : ∃ above, (q, above) ∈ l.placements f.root
  container : l.containerNode q = true
  nodes : ∀ t, t ∈ inner ↔ (t, some q) ∈ l.placements f.root ∧ l.contextNode t = false
  cutUp : CutUp l f.bytes q inner cuts
  inOrder : InOrder q.first q.last cuts
  parts : List.Forall₂ (f.IsCut l c.id) (cs.filter fun d => d.parent == some c.id) cuts
  children : c.children = (cs.filter fun d => d.parent == some c.id).map Chunk.id

section Divided

variable {package : Option String} {cs ds : List Chunk} {c d : Chunk} {q : Tree} {inner : List Tree}
  {cuts : List Cut}

theorem exists_divided_below (h : f.root.Spanned l) (hc : c ∈ f.below l package)
    (hk : c.kind = .container) :
    ∃ q inner cuts, f.Divided l (f.below l package) c q inner cuts := by
  have hblock := mem_blockPart hc hk
  obtain ⟨i, t, bs, owner, parentName, hmem, hhead, hsub⟩ := containerIn_blockPart hblock hk
  obtain ⟨item, hitem, howned⟩ := Block.mem_ownedAll_roots.mp hmem
  cases item with
  | member k =>
    rw [Block.ownedItem, Block.ofItem] at howned
    cases congrArg Prod.fst howned
  | container j =>
    rw [Block.ownedItem, Block.ofItem_container] at howned
    obtain ⟨hblockEq, rfl⟩ := Prod.mk.inj howned
    obtain ⟨rfl, rfl, rfl⟩ := Block.container.inj hblockEq
    have hlaid := Block.laid_ofItem h.sound (.container i) hitem
    rw [Block.ofItem_container] at hlaid
    have hkinds :
        ∀ b ∈ ((Parts.ofRoot l f.root).itemsOf (some i)).map (Block.ofItem (Parts.ofRoot l f.root)),
        blockKind true b = (Cut.ofNode l b.node).kind := by
      intro b hb
      obtain ⟨other, hother, rfl⟩ := List.mem_map.mp hb
      exact blockKind_eq h (Parts.mem_itemsOf.mp hother).1
    obtain ⟨cuts, parts, hparts, hcutUp, hinOrder, hids, hcuts, hid⟩ :=
      exists_cuts hlaid hkinds hhead
    have hplaced := h.mem_placements_iff.mpr ⟨_, hitem, rfl⟩
    have hbelow := filter_parent_eq h hblock (List.Subset.trans hparts hsub) hids
    refine ⟨_, _, cuts, hid, ⟨_, hplaced.1⟩, h.sound.primaries.2 _ (Parts.primary_mem hitem),
      fun t => mem_inner_iff h hitem, hcutUp, hinOrder, ?_, ?_⟩
    · rwa [hbelow]
    · rw [hbelow, hids]

/-- References have no part in how a container is divided. -/
theorem Divided.of_unlinked (h : f.Divided l cs c q inner cuts)
    (hcs : ds.map Chunk.unlinked = cs.map Chunk.unlinked) (hd : d.unlinked = c.unlinked) :
    f.Divided l ds d q inner cuts := by
  have hid : d.unlinked.id = c.unlinked.id := congrArg Chunk.id hd
  change d.id = c.id at hid
  have hfilter : (ds.filter fun e => e.parent == some c.id).map Chunk.unlinked =
      (cs.filter fun e => e.parent == some c.id).map Chunk.unlinked := by
    have hparents := congrArg (List.filter fun e => e.parent == some c.id) hcs
    rwa [List.filter_map, List.filter_map] at hparents
  refine ⟨hid.trans h.id, h.node, h.container, h.nodes, h.cutUp, h.inOrder, ?_, ?_⟩
  · rw [hid]
    have hparts : List.Forall₂ (f.IsCut l c.id)
        ((cs.filter fun e => e.parent == some c.id).map Chunk.unlinked) cuts :=
      List.forall₂_map_left_iff.mpr h.parts
    rw [← hfilter] at hparts
    have hunlinked : List.Forall₂ (fun e cut => f.IsCut l c.id e.unlinked cut)
        (ds.filter fun e => e.parent == some c.id) cuts := List.forall₂_map_left_iff.mp hparts
    exact hunlinked
  · have hids := congrArg (List.map Chunk.id) hfilter
    rw [List.map_map, List.map_map] at hids
    rw [hid]
    have hchildren : d.unlinked.children = c.unlinked.children := congrArg Chunk.children hd
    exact hchildren.trans (h.children.trans hids.symm)

/-- Every chunk of a container is divided as its node is cut up by the nodes in it: its children
are, in this order, its declaration, the chunks of the nodes, and its closing. -/
theorem container_divided (f : File) (l : Language) (h : f.root.Spanned l) :
    ∀ c ∈ f.chunks l, c.kind = .container → ∃ q inner cuts,
      f.Divided l (f.chunks l) c q inner cuts := by
  intro c hc hk
  have hlink : (f.chunks l).map Chunk.unlinked = (f.tree l).map Chunk.unlinked :=
    Chunk.map_unlinked_link _
  have htree : ∃ file package, f.tree l = file :: f.below l package ∧ file.kind = .file ∧
      file.parent = none :=
    ⟨_, _, rfl, rfl, rfl⟩
  obtain ⟨file, package, htree, hfile, hroot⟩ := htree
  obtain ⟨d, hd, hdc⟩ := List.mem_map.mp (hlink ▸ List.mem_map_of_mem hc)
  have hdk : d.kind = .container := (congrArg Chunk.kind hdc).trans hk
  rw [htree] at hd hlink
  have hbelow : d ∈ f.below l package := (List.mem_cons.mp hd).resolve_left fun he => by
    rw [he, hfile] at hdk
    exact absurd hdk nofun
  obtain ⟨q, inner, cuts, hdivided⟩ := exists_divided_below h hbelow hdk
  have hfilter : ((file :: f.below l package).filter fun e => e.parent == some d.id) =
      (f.below l package).filter fun e => e.parent == some d.id :=
        List.filter_cons_of_neg (by simp [hroot])
  have hwhole : f.Divided l (file :: f.below l package) d q inner cuts :=
    { hdivided with
      parts := hfilter.symm ▸ hdivided.parts
      children := hfilter.symm ▸ hdivided.children }
  exact ⟨q, inner, cuts, hwhole.of_unlinked hlink hdc.symm⟩

theorem exists_chunk_of_placement (h : f.root.Spanned l) {x : Tree × Option Tree}
    (hx : x ∈ l.placements f.root) : ∃ c ∈ f.chunks l, c.core = f.coreOf l x := by
  have hlink : (f.chunks l).map Chunk.core = (f.tree l).map Chunk.core :=
    Chunk.link_map (fun _ _ _ => rfl) _
  have htree : ∃ file package, f.tree l = file :: f.below l package := ⟨_, _, rfl⟩
  obtain ⟨file, package, htree⟩ := htree
  have hbelow : f.coreOf l x ∈ (f.below l package).filterMap Chunk.core? :=
    (mem_below_iff h).mpr ⟨x, hx, rfl⟩
  obtain ⟨d, hd, hcore⟩ := List.mem_filterMap.mp hbelow
  have hmem : f.coreOf l x ∈ (f.chunks l).map Chunk.core := by
    rw [hlink, htree, ← (Chunk.core?_eq_some.mp hcore).2]
    exact List.mem_map_of_mem (List.mem_cons_of_mem _ hd)
  exact List.mem_map.mp hmem

/-- The outer class is divided around its method and the class in it. -/
theorem container_divided_nestedClasses :
    nestedClasses.root.Spanned .python ∧
      ∃ c ∈ nestedClasses.chunks .python, c.kind = .container ∧ ∃ q inner cuts,
        nestedClasses.Divided .python (nestedClasses.chunks .python) c q inner cuts ∧
          (q.first, q.last) = (10, 54) ∧ ∃ t ∈ inner, (t.first, t.last) = (21, 38) := by
  have hw : nestedClasses.root.WellFormed .python nestedClasses.bytes.length := by decide
  have hplaced : ∃ q t, (Language.python.placements nestedClasses.root)[1]? = some (q, none) ∧
      (Language.python.placements nestedClasses.root)[2]? = some (t, some q) ∧
      kindOf .python (q, none) = .container ∧ Language.python.contextNode t = false ∧
      (q.first, q.last) = (10, 54) ∧ (t.first, t.last) = (21, 38) :=
        ⟨_, _, rfl, rfl, rfl, rfl, rfl, rfl⟩
  obtain ⟨q, t, hq, ht, hkind, hcontext, hqspan, htspan⟩ := hplaced
  have hmem := List.mem_of_getElem? hq
  obtain ⟨c, hc, hcore⟩ := exists_chunk_of_placement hw.spanned hmem
  have hck : c.kind = .container := (congrArg Chunk.kind hcore).trans hkind
  have hid : c.id = Chunk.idOf nestedClasses.path .container q.first q.last := by
    rw [← hkind]
    exact congrArg Chunk.id hcore
  obtain ⟨q', inner, cuts, hdivided⟩ := container_divided nestedClasses .python hw.spanned c hc hck
  obtain ⟨above, habove⟩ := hdivided.node
  have hspan := (Chunk.idOf_inj (hdivided.id.symm.trans hid)).2.2
  obtain ⟨rfl, -⟩ := Prod.mk.inj (hw.spanned.eq_of_sameSpan habove hmem hspan)
  exact ⟨hw.spanned, c, hc, hck, _, inner, cuts, hdivided, hqspan, t,
    (hdivided.nodes t).mpr ⟨List.mem_of_getElem? ht, hcontext⟩, htspan⟩

end Divided

end File

end CodeAtlas.Source
