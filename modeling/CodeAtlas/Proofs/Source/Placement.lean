import CodeAtlas.Proofs.Chunk.Distinct
import CodeAtlas.Proofs.Source.Ancestry
import CodeAtlas.Proofs.Source.ChunkTree
import CodeAtlas.Proofs.Source.Origin

/-!
The chunks of the nodes of a file. Every node that becomes a chunk becomes one only, which spans the
node and belongs to the chunk of the nearest container above it; all other chunks but that of the
file are declarations and closings of containers. None of this depends on where packages are
declared.
-/

namespace CodeAtlas

namespace Metadata

theorem lookup_ofFields_eq_none {fields : List (String × Document)} {name : String}
    (h : ∀ e ∈ fields, e.1 ≠ name) : (ofFields fields).lookup name = none := by
  apply List.lookup_eq_none_iff.mpr
  intro e he
  exact bne_iff_ne.mpr (h e (mem_ofFields he)).symm

end Metadata

namespace Chunk

/-- Whether a chunk is the declaration or the closing of a container. -/
def isSegment (c : Chunk) : Bool :=
  c.kind == .context && ["declaration", "closing"].any fun role =>
    (c.metadata.lookup "segment").bind Document.text? == some role

/-- What a chunk has of its kind, its span and its parent. -/
def core (c : Chunk) : Chunk where
  id := c.id
  kind := c.kind
  content := c.content
  path := c.path
  startLine := c.startLine
  endLine := c.endLine
  language := c.language
  parent := c.parent

/-- The core of a chunk, unless it is a declaration or a closing. -/
def core? (c : Chunk) : Option Chunk := if c.isSegment then none else some c.core

theorem core?_eq_some {c d : Chunk} : c.core? = some d ↔ c.isSegment = false ∧ c.core = d := by
  unfold core?
  cases c.isSegment <;> simp

theorem not_isSegment {c : Chunk} (h : c.metadata.lookup "segment" = none) :
    c.isSegment = false := by
  rw [isSegment, h]
  exact Bool.and_false _

theorem map_id_filterMap_core? (cs : List Chunk) :
    (cs.filterMap core?).map id = (cs.filter fun c => !c.isSegment).map id := by
  induction cs with
  | nil => rfl
  | cons c rest ih =>
    rw [List.filterMap_cons, List.filter_cons, core?]
    cases c.isSegment with
    | true => exact ih
    | false => exact congrArg (c.id :: ·) ih

/-- Linking references leaves kinds, spans and parents as they are. -/
theorem link_core? (first : Chunk) (rest : List Chunk) :
    ∃ first' rest', Reference.link (first :: rest) = first' :: rest' ∧
    first'.core = first.core ∧ rest'.filterMap core? = rest.filterMap core? := by
  have hcore : (Reference.link (first :: rest)).map core = (first :: rest).map core :=
    link_map (fun _ _ _ => rfl) _
  have hmap : (Reference.link (first :: rest)).map core? = (first :: rest).map core? :=
    link_map (fun _ _ _ => rfl) _
  cases h : Reference.link (first :: rest) with
  | nil =>
    rw [h] at hcore
    exact absurd hcore nofun
  | cons first' rest' =>
    rw [h] at hcore hmap
    refine ⟨first', rest', rfl, (List.cons.inj hcore).1, ?_⟩
    have hrest := congrArg (List.filterMap fun c => c) (List.cons.inj hmap).2
    rwa [List.filterMap_map, List.filterMap_map] at hrest

end Chunk

namespace Source

open CodeAtlas.Source.Tree

namespace Tree

/-- A tree in which spans are as nodes are: children lie inside their parents, in order and apart;
nodes with a role are not empty and span different bytes; and the root has no role. -/
structure Spanned (l : Language) (root : Tree) : Prop where
  span : ∀ t ∈ root.preorder, t.first ≤ t.last
  nested : ∀ t ∈ root.preorder, ∀ c ∈ t.children, Inside c t
  ordered : ∀ t ∈ root.preorder, t.children.Pairwise Before
  nonempty : ∀ t ∈ root.preorder, l.hasRole t = true → t.first < t.last
  distinct : (root.preorder.filter l.hasRole).Pairwise fun a b => ¬ SameSpan a b
  rootRole : l.hasRole root = false

end Tree

namespace Language

def withoutPackages (l : Language) : Language := { l with packageKinds := [] }

mutual

theorem placed_withoutPackages (l : Language) : (above : Option Tree) → (t : Tree) →
    l.withoutPackages.placed above t = l.placed above t
  | above, .node info children => by
    unfold placed
    rw [placedAll_withoutPackages l _ children]
    rfl

theorem placedAll_withoutPackages (l : Language) : (above : Option Tree) → (ts : List Tree) →
    l.withoutPackages.placedAll above ts = l.placedAll above ts
  | _, [] => rfl
  | above, t :: ts => by
    rw [placedAll, placedAll, placed_withoutPackages l above t,
      placedAll_withoutPackages l above ts]

end

theorem placements_withoutPackages (l : Language) (root : Tree) :
    l.withoutPackages.placements root = l.placements root := by
  rw [placements, placedAll_withoutPackages]
  rfl

end Language

namespace Parts

mutual

theorem ofTree_withoutPackages (l : Language) : (t : Tree) → ofTree l.withoutPackages t = ofTree l t
  | .node info children => by
    unfold ofTree
    rw [ofTrees_withoutPackages l children]
    rfl

theorem ofTrees_withoutPackages (l : Language) :
    (ts : List Tree) → ofTrees l.withoutPackages ts = ofTrees l ts
  | [] => rfl
  | t :: ts => by
    rw [ofTrees, ofTrees, ofTree_withoutPackages l t, ofTrees_withoutPackages l ts]

end

theorem ofRoot_withoutPackages (l : Language) (root : Tree) :
    ofRoot l.withoutPackages root = ofRoot l root := by
  rw [ofRoot, ofTrees_withoutPackages]
  rfl

theorem mem_contexts_iff {l : Language} {root t : Tree} :
    t ∈ (ofRoot l root).contexts ↔ ∃ x ∈ l.placements root, l.contextNode x.1 = true ∧ x.1 = t := by
  rw [(ofRoot_contexts_perm l root).mem_iff, ← Language.map_fst_placements, List.mem_filter,
    List.mem_map]
  constructor
  · rintro ⟨⟨x, hx, rfl⟩, hc⟩
    exact ⟨x, hx, hc, rfl⟩
  · rintro ⟨x, hx, hc, rfl⟩
    exact ⟨⟨x, hx, rfl⟩, hc⟩

end Parts

namespace Tree
variable {l : Language} {root : Tree}

theorem WellFormed.spanned {size : Nat} (h : WellFormed l size root) : Spanned l root :=
  ⟨h.span, h.nested, h.ordered, h.nonempty, h.distinct, h.rootRole⟩

theorem Spanned.wellFormed (h : Spanned l root) : WellFormed l.withoutPackages root.last root where
  span := h.span
  nested := h.nested
  ordered := h.ordered
  nonempty := h.nonempty
  distinct := h.distinct
  packages := fun _ _ _ b _ => Bool.and_false b.info.named
  bounded := Nat.le_refl _
  rootRole := h.rootRole

theorem Spanned.sound (h : Spanned l root) : (Parts.ofRoot l root).Sound l.withoutPackages := by
  rw [← Parts.ofRoot_withoutPackages]
  exact Parts.ofRoot_sound h.wellFormed

theorem Spanned.placements_nearest (h : Spanned l root) {x : Tree × Option Tree}
    (hx : x ∈ l.placements root) : Language.Nearest (Parts.ofRoot l root).primaries none x := by
  rw [← Language.placements_withoutPackages] at hx
  have hnearest := Parts.placements_nearest h.wellFormed hx
  rwa [Parts.ofRoot_withoutPackages] at hnearest

/-- The declarations among the placements are the items with their owners. -/
theorem Spanned.mem_placements_iff (h : Spanned l root) {x : Tree × Option Tree} :
    (x ∈ l.placements root ∧ l.contextNode x.1 = false) ↔ ∃ item ∈ (Parts.ofRoot l root).items,
      x = ((Parts.ofRoot l root).node item, (Parts.ofRoot l root).ownerNode? item) := by
  have hiff := Parts.mem_placements_iff h.wellFormed (x := x)
  rwa [Language.placements_withoutPackages, Parts.ofRoot_withoutPackages] at hiff

/-- Placements of the same span are the same. -/
theorem Spanned.eq_of_sameSpan (h : Spanned l root) {x y : Tree × Option Tree}
    (hx : x ∈ l.placements root) (hy : y ∈ l.placements root) (hs : SameSpan x.1 y.1) : x = y := by
  have hdistinct : ((l.placements root).map Prod.fst).Pairwise fun a b => ¬ SameSpan a b := by
    rw [Language.map_fst_placements]
    exact h.distinct.sublist (Language.roleNodes_sublist l root)
  by_contra hne
  have hsymm : Std.Symm fun a b : Tree × Option Tree => ¬ SameSpan a.1 b.1 :=
    ⟨fun a b hab hba => hab ⟨hba.1.symm, hba.2.symm⟩⟩
  exact (List.pairwise_map.mp hdistinct).forall hx hy hne hs

end Tree

namespace File

variable {f : File} {l : Language} {p : Parts}

/-- The id of the chunk that what stands in a container belongs to, or what stands in none. -/
def parentId (f : File) : Option Tree → String
  | none => Chunk.idOf f.path .file 0 f.bytes.length
  | some q => Chunk.idOf f.path .container q.first q.last

/-- The kind of the chunk of a node, given the nearest container above it. -/
def kindOf (l : Language) (x : Tree × Option Tree) : ChunkKind :=
  if l.contextNode x.1 then if l.packageKinds.contains x.1.kind then .context else .imported
  else if l.containerNode x.1 then .container
  else if x.2.isSome then .member else .orphanedMember

/-- What the chunk of a node has of its kind, its span and its parent, given the nearest container
above it. Imports and packages belong to the file wherever they stand. -/
def coreOf (f : File) (l : Language) (x : Tree × Option Tree) : Chunk :=
  f.chunkOf l (kindOf l x) x.1.first x.1.last
    (some (f.parentId (if l.contextNode x.1 then none else x.2)))

def blockCore (f : File) (l : Language) (x : Block × Option Tree) : Chunk :=
  f.chunkOf l (blockKind x.2.isSome x.1) x.1.node.first x.1.node.last (some (f.parentId x.2))

theorem contextChunk_core? (parent : String) (c : Context) :
    (f.contextChunk l parent c).core? = some (f.contextChunk l parent c).core := by
  apply Chunk.core?_eq_some.mpr
  exact ⟨Chunk.not_isSegment (Metadata.lookup_ofFields_eq_none (by simp)), rfl⟩

theorem memberChunk_core? (kind : ChunkKind) (parent : String) (parentName : Option String)
    (t : Tree) :
    (f.memberChunk l kind parent parentName t).core? =
      some (f.chunkOf l kind t.first t.last (some parent)) := by
  apply Chunk.core?_eq_some.mpr
  exact ⟨Chunk.not_isSegment (Metadata.lookup_ofFields_eq_none (by simp)), rfl⟩

theorem containerChunk_core? (parent : String) (parentName : Option String) (i : Nat) (t : Tree)
    (children : List String) :
    ({ f.containerChunk l p parent parentName i t with children } : Chunk).core? =
      some (f.chunkOf l .container t.first t.last (some parent)) := by
  apply Chunk.core?_eq_some.mpr
  refine ⟨Chunk.not_isSegment (Metadata.lookup_ofFields_eq_none ?_), rfl⟩
  intro e he
  cases List.mem_append.mp he with
  | inl he =>
    simp only [List.mem_cons, List.not_mem_nil, or_false] at he
    rcases he with rfl | rfl | rfl <;> simp
  | inr he =>
    split at he
    · exact absurd he List.not_mem_nil
    · obtain rfl := List.mem_singleton.mp he
      simp

theorem segment_core? {parent role : String} {first last : Nat}
    (hr : role = "declaration" ∨ role = "closing") :
    (f.segment l parent role first last).filterMap Chunk.core? = [] := by
  apply List.filterMap_eq_nil_iff.mpr
  intro c hc
  obtain ⟨⟨a, b⟩, -, rfl⟩ := List.mem_map.mp hc
  have hs : (f.segmentChunk l parent role a b).isSegment = true := by
    rcases hr with rfl | rfl <;> rfl
  rw [Chunk.core?, hs]
  rfl

mutual

/-- The chunks of a block but for declarations and closings are those of the blocks in it. -/
theorem filterMap_core?_blockChunks :
    (b : Block) → (owner : Option Tree) → (parentName : Option String) →
    (f.blockChunks l p owner.isSome (f.parentId owner) parentName b).filterMap Chunk.core? =
      (b.owned owner).map (f.blockCore l)
  | .member t, owner, parentName => by
    rw [blockChunks_member, Block.owned, List.filterMap_cons_some (memberChunk_core? _ _ _ t)]
    rfl
  | .container i t [], owner, parentName => by
    rw [blockChunks_empty, Block.owned]
    exact List.filterMap_cons_some (containerChunk_core? _ parentName i t [])
  | .container i t (b :: bs), owner, parentName => by
    have ih := filterMap_core?_blocksChunks (b :: bs) (some t)
      (f.containerChunk l p (f.parentId owner) parentName i t).qualifiedName
    rw [blockChunks_container, Block.owned, List.filterMap_cons_some
      (containerChunk_core? _ parentName i t _), List.filterMap_append, List.filterMap_append,
      segment_core? (Or.inl rfl), segment_core? (Or.inr rfl), List.nil_append, List.append_nil,
        List.map_cons, ← ih]
    rfl

theorem filterMap_core?_blocksChunks :
    (bs : List Block) → (owner : Option Tree) → (parentName : Option String) →
    (f.blocksChunks l p owner.isSome (f.parentId owner) parentName bs).filterMap Chunk.core? =
      (Block.ownedAll owner bs).map (f.blockCore l)
  | [], _, _ => rfl
  | b :: bs, owner, parentName => by
    rw [blocksChunks, Block.ownedAll, List.filterMap_append, List.map_append,
      filterMap_core?_blockChunks b owner parentName,
      filterMap_core?_blocksChunks bs owner parentName]

end

theorem core_contextChunk {x : Tree × Option Tree} (hc : l.contextNode x.1 = true) :
    (f.contextChunk l (f.parentId none) (Context.ofNode l f.bytes x.1)).core = f.coreOf l x := by
  rw [coreOf, kindOf, if_pos hc, if_pos hc]
  rfl

theorem blockCore_ownedItem (hp : p.Sound l.withoutPackages) {item : Item} (hi : item ∈ p.items) :
    f.blockCore l (Block.ownedItem p item) = f.coreOf l (p.node item, p.ownerNode? item) := by
  have hc : l.contextNode (p.node item) = false := hp.not_context hi
  rw [coreOf, kindOf, hc, if_neg Bool.false_ne_true, if_neg Bool.false_ne_true, blockCore,
    Block.ownedItem, Block.node_ofItem]
  cases item with
  | container i =>
    have hcontainer : l.containerNode (p.node (.container i)) = true :=
      hp.primaries.2 _ (Parts.primary_mem hi)
    rw [hcontainer, Block.ofItem_container]
    rfl
  | member k =>
    have hmember : l.containerNode (p.node (.member k)) = false := hp.member_not_container hi
    rw [hmember, Block.ofItem]
    rfl

section Below
variable {package : Option String} {d : Chunk}

def below (f : File) (l : Language) (package : Option String) : List Chunk :=
  ((f.topItems l (Parts.ofRoot l f.root)).map
    (f.topChunks l (Parts.ofRoot l f.root) (f.parentId none) package)).flatten

theorem below_perm (f : File) (l : Language) (package : Option String) :
    ((f.below l package).filterMap Chunk.core?).Perm
      (((Parts.ofRoot l f.root).contexts.map fun t =>
        (f.contextChunk l (f.parentId none) (Context.ofNode l f.bytes t)).core) ++
      (Block.ownedAll none (Block.roots (Parts.ofRoot l f.root))).map (f.blockCore l)) := by
  apply ((topChunks_perm f l _ _ package).filterMap Chunk.core?).trans
  rw [List.filterMap_append, ← filterMap_core?_blocksChunks _ none package, blocksChunks_eq,
    List.filterMap_map]
  apply List.Perm.append_right
  have hcontext : Chunk.core? ∘
      (fun t => f.contextChunk l (f.parentId none) (Context.ofNode l f.bytes t)) =
      some ∘ fun t => (f.contextChunk l (f.parentId none) (Context.ofNode l f.bytes t)).core :=
    funext fun t => contextChunk_core? _ _
  rw [hcontext, List.filterMap_eq_map]

/-- What is below the file, but for declarations and closings, are the chunks of the nodes. -/
theorem mem_below_iff (h : f.root.Spanned l) :
    d ∈ (f.below l package).filterMap Chunk.core? ↔
      ∃ x ∈ l.placements f.root, f.coreOf l x = d := by
  rw [(below_perm f l package).mem_iff, List.mem_append, List.mem_map, List.mem_map]
  constructor
  · rintro (⟨t, ht, rfl⟩ | ⟨y, hy, rfl⟩)
    · obtain ⟨x, hx, hc, rfl⟩ := Parts.mem_contexts_iff.mp ht
      exact ⟨x, hx, (core_contextChunk hc).symm⟩
    · obtain ⟨item, hi, rfl⟩ := Block.mem_ownedAll_roots.mp hy
      exact ⟨_, (h.mem_placements_iff.mpr ⟨item, hi, rfl⟩).1, (blockCore_ownedItem h.sound hi).symm⟩
  · rintro ⟨x, hx, rfl⟩
    cases hc : l.contextNode x.1 with
    | true => exact Or.inl ⟨x.1, Parts.mem_contexts_iff.mpr ⟨x, hx, hc, rfl⟩, core_contextChunk hc⟩
    | false =>
      obtain ⟨item, hi, rfl⟩ := h.mem_placements_iff.mp ⟨hx, hc⟩
      exact Or.inr ⟨_, Block.mem_ownedAll_roots.mpr ⟨item, hi, rfl⟩, blockCore_ownedItem h.sound hi⟩

theorem blockKind_ne_context (inside : Bool) (b : Block) :
    blockKind inside b ≠ .context ∧ blockKind inside b ≠ .imported := by
  cases b with
  | container i t children => exact ⟨nofun, nofun⟩
  | member t => cases inside <;> exact ⟨nofun, nofun⟩

/-- No two of them have the same id. -/
theorem below_ids_nodup (h : f.root.Spanned l) :
    (((f.below l package).filterMap Chunk.core?).map Chunk.id).Nodup := by
  have hp := h.sound
  rw [((below_perm f l package).map Chunk.id).nodup_iff]
  apply List.pairwise_map.mpr
  apply List.pairwise_append.mpr
  refine ⟨?_, ?_, ?_⟩
  · have hcontexts :=
      List.pairwise_map.mp (contextChunks_pairwise (f := f) (l := l) hp (f.parentId none))
    exact List.pairwise_map.mpr hcontexts
  · rw [← filterMap_core?_blocksChunks _ none package, blocksChunks_eq]
    apply List.pairwise_filterMap.mpr
    apply (rootsChunks_pairwise hp false (f.parentId none)).imp
    intro c d hne c' hc d' hd
    rw [← (Chunk.core?_eq_some.mp hc).2, ← (Chunk.core?_eq_some.mp hd).2]
    exact hne
  · intro c hc d hd hid
    obtain ⟨t, -, rfl⟩ := List.mem_map.mp hc
    obtain ⟨y, -, rfl⟩ := List.mem_map.mp hd
    have hkind := (Chunk.idOf_inj hid).2.1
    obtain ⟨hcontext, himported⟩ := blockKind_ne_context y.2.isSome y.1
    split at hkind
    · exact hcontext hkind.symm
    · exact himported hkind.symm

end Below

def isAt (f : File) (t : Tree) (c : Chunk) : Bool := c.id == Chunk.idOf f.path c.kind t.first t.last

theorem isAt_iff {x : Tree × Option Tree} {y : Tree × Option Tree} {c : Chunk}
    (hc : c.core = f.coreOf l y) : f.isAt x.1 c = true ↔ SameSpan y.1 x.1 := by
  have hid : c.id = Chunk.idOf f.path c.kind y.1.first y.1.last := by
    rw [show c.kind = kindOf l y from congrArg Chunk.kind hc]
    exact congrArg Chunk.id hc
  rw [isAt, hid, beq_iff_eq]
  constructor
  · exact fun h => (Chunk.idOf_inj h).2.2
  · exact fun h => by rw [h.1, h.2]

section Linked

variable {f : File} {l : Language} {package : Option String} {rest : List Chunk}

/-- A chunk below the file that is no declaration or closing is that of a node. -/
theorem exists_coreOf (h : f.root.Spanned l) (hrest : rest.filterMap Chunk.core? =
    (f.below l package).filterMap Chunk.core?) {c : Chunk} (hc : c ∈ rest)
    (hs : c.isSegment = false) : ∃ x ∈ l.placements f.root, c.core = f.coreOf l x := by
  have hd : c.core ∈ (f.below l package).filterMap Chunk.core? := by
    rw [← hrest]
    exact List.mem_filterMap.mpr ⟨c, hc, Chunk.core?_eq_some.mpr ⟨hs, rfl⟩⟩
  obtain ⟨x, hx, he⟩ := (mem_below_iff h).mp hd
  exact ⟨x, hx, he.symm⟩

/-- One chunk is that of a node. -/
theorem exists_filter_isAt (h : f.root.Spanned l) (hrest : rest.filterMap Chunk.core? =
    (f.below l package).filterMap Chunk.core?) {x : Tree × Option Tree}
    (hx : x ∈ l.placements f.root) :
    ∃ c, (rest.filter fun c => !c.isSegment && f.isAt x.1 c) = [c] ∧ c.core = f.coreOf l x := by
  have hnodup : ((rest.filter fun c => !c.isSegment).map Chunk.id).Nodup := by
    rw [← Chunk.map_id_filterMap_core?, hrest]
    exact below_ids_nodup h
  have hc : f.coreOf l x ∈ rest.filterMap Chunk.core? := by
    rw [hrest]
    exact (mem_below_iff h).mpr ⟨x, hx, rfl⟩
  obtain ⟨c, hc, hcx⟩ := List.mem_filterMap.mp hc
  obtain ⟨hs, hcx⟩ := Chunk.core?_eq_some.mp hcx
  refine ⟨c, ?_, hcx⟩
  have hcm : c ∈ rest.filter fun c => !c.isSegment := List.mem_filter.mpr ⟨hc, by simp [hs]⟩
  have hfilter : (rest.filter fun c => !c.isSegment && f.isAt x.1 c) =
      (rest.filter fun c => !c.isSegment).filter (f.isAt x.1) := by
    rw [List.filter_filter]
    exact List.filter_congr fun c _ => Bool.and_comm _ _
  rw [hfilter]
  apply Chunk.filter_eq_singleton (List.Nodup.of_map _ hnodup) hcm
  intro d hd
  obtain ⟨hdm, hds⟩ := List.mem_filter.mp hd
  obtain ⟨y, hy, hdy⟩ := exists_coreOf h hrest hdm (by simpa using hds)
  rw [isAt_iff hdy]
  constructor
  · intro hspan
    obtain rfl := h.eq_of_sameSpan hy hx hspan
    have hid : d.core.id = c.core.id := by rw [hdy, hcx]
    exact Chunk.eq_of_id_eq hnodup hd hcm hid
  · intro hdc
    subst hdc
    exact (isAt_iff hdy).mp ((isAt_iff hcx).mpr ⟨rfl, rfl⟩)

end Linked

/-- Every node that becomes a chunk becomes exactly one, of its kind and with its span, which
belongs to the chunk of the nearest container above the node, or to the file. That container is such
a node itself. All other chunks are the file and the declarations and closings of containers. -/
theorem chunks_placements (f : File) (l : Language) (h : f.root.Spanned l) :
    ∃ file rest, f.chunks l = file :: rest ∧ file.kind = .file ∧ file.id = f.parentId none ∧
      (∀ x ∈ l.placements f.root, ∃ c, (rest.filter fun c => !c.isSegment && f.isAt x.1 c) = [c] ∧
        c.core = f.coreOf l x) ∧
      (∀ x ∈ l.placements f.root, ∀ q, x.2 = some q → l.containerNode q = true ∧
        ∃ above, (q, above) ∈ l.placements f.root) ∧
      ∀ c ∈ rest, c.isSegment = true ∨ ∃ x ∈ l.placements f.root, f.isAt x.1 c = true := by
  have htree : ∃ file package, f.tree l = file :: f.below l package ∧ file.core.kind = .file ∧
      file.core.id = f.parentId none := ⟨_, _, rfl, rfl, rfl⟩
  obtain ⟨first, package, htree, hkind, hid⟩ := htree
  obtain ⟨file, rest, hlink, hcore, hrest⟩ := Chunk.link_core? first (f.below l package)
  refine ⟨file, rest, ?_, (congrArg Chunk.kind hcore).trans hkind,
    (congrArg Chunk.id hcore).trans hid, fun x hx => exists_filter_isAt h hrest hx, ?_, ?_⟩
  · rw [chunks, htree, hlink]
  · intro x hx q hq
    have hprimary := (h.placements_nearest hx).mem hq
    obtain ⟨hrole, hc⟩ :=
      List.mem_filter.mp ((Parts.ofRoot_primaries_perm l f.root).mem_iff.mp hprimary)
    exact ⟨hc, Language.exists_placement hrole⟩
  · intro c hc
    cases hs : c.isSegment with
    | true => exact Or.inl rfl
    | false =>
      obtain ⟨x, hx, hcx⟩ := exists_coreOf h hrest hc hs
      exact Or.inr ⟨x, hx, (isAt_iff hcx).mpr ⟨rfl, rfl⟩⟩

theorem chunks_placements_nestedClasses :
    nestedClasses.root.Spanned .python ∧
      (Language.python.placements nestedClasses.root).map (kindOf .python) =
        [.imported, .container, .member, .container] ∧
      ∃ file rest, nestedClasses.chunks .python = file :: rest ∧
        ∀ x ∈ Language.python.placements nestedClasses.root, ∃ c,
          (rest.filter fun c => !c.isSegment && nestedClasses.isAt x.1 c) = [c] ∧
            c.core = nestedClasses.coreOf .python x := by
  have hw : nestedClasses.root.WellFormed .python nestedClasses.bytes.length := by decide
  obtain ⟨file, rest, hchunks, -, -, hnodes, -⟩ :=
    chunks_placements nestedClasses .python hw.spanned
  exact ⟨hw.spanned, by decide, file, rest, hchunks, hnodes⟩

end File

end Source

end CodeAtlas
