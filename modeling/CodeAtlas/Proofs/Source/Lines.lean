import CodeAtlas.Proofs.Source.Placement
import CodeAtlas.Proofs.StableSort

/-!
The lines of symbols. A line is told by the places lines start at, which is to say by the line feeds
before it. Containers and members stand in the chunks of a file in order of their first
lines; imports do not always, since they stand behind the block they are written in.
-/

namespace CodeAtlas.Source

section Starts

variable (bytes : List UInt8)

/-- Of the lines that start behind line feeds from a place on, those up to a byte are as many as the
line feeds before it. -/
theorem length_takeWhile_starts (place offset : Nat) :
    ((((bytes.zipIdx place).filter fun x => x.1 == 10).map fun x => x.2 + 1).takeWhile
      (· ≤ place + offset)).length = (bytes.take offset).count 10 := by
  induction bytes generalizing place offset with
  | nil => simp
  | cons b bytes ih =>
    cases offset with
    | zero =>
      rw [List.take_zero, List.count_nil, List.length_eq_zero_iff]
      cases hs : ((b :: bytes).zipIdx place).filter fun x => x.1 == 10 with
      | nil => rfl
      | cons x rest =>
        have hx : x ∈ (b :: bytes).zipIdx place := List.mem_of_mem_filter (hs ▸ List.mem_cons_self)
        have hplace := List.le_snd_of_mem_zipIdx hx
        rw [List.map_cons, List.takeWhile_cons_of_neg (by simpa using Nat.lt_succ_of_le hplace)]
    | succ offset =>
      have hrest := ih (place + 1) offset
      rw [Nat.add_assoc, Nat.add_comm 1] at hrest
      rw [List.zipIdx_cons, List.take_succ_cons, List.count_cons, List.filter_cons, ← hrest]
      dsimp only
      split
      · rw [List.map_cons, List.takeWhile_cons_of_pos (by simp), List.length_cons]
      · rfl

/-- The line of a byte is one more than the line feeds before it. -/
theorem lineOf_eq (offset : Nat) : lineOf bytes offset = (bytes.take offset).count 10 + 1 := by
  have hlines := length_takeWhile_starts bytes 0 offset
  rw [Nat.zero_add] at hlines
  rw [lineOf, lineStarts, List.takeWhile_cons_of_pos (by simp), List.length_cons, hlines]
  exact Nat.max_eq_right (Nat.le_add_left 1 _)

end Starts

theorem lineOf_mono {bytes : List UInt8} {a b : Nat} (h : a ≤ b) :
    lineOf bytes a ≤ lineOf bytes b := by
  have hsub : (bytes.take a).Sublist (bytes.take b) := (List.take_prefix_take_left h).sublist
  rw [lineOf_eq, lineOf_eq]
  exact Nat.succ_le_succ (hsub.count_le 10)

namespace Block

variable {b : Block}

theorem ownedAll_eq (owner : Option Tree) (bs : List Block) :
    ownedAll owner bs = bs.flatMap (owned owner) := by
  induction bs with
  | nil => rfl
  | cons b bs ih => rw [ownedAll, ih, List.flatMap_cons]

/-- What is in a block starts in it. -/
theorem Laid.starts (h : b.Laid) : ∀ {owner : Option Tree}, ∀ x ∈ b.owned owner,
    b.node.first ≤ x.1.node.first ∧ x.1.node.first < b.node.last := by
  induction h with
  | @member t ht =>
    intro owner x hx
    rw [owned, List.mem_singleton] at hx
    subst hx
    exact ⟨Nat.le_refl _, ht⟩
  | @container i t bs ht hl he hp ih =>
    intro owner x hx
    rw [owned] at hx
    cases List.mem_cons.mp hx with
    | inl hx =>
      subst hx
      exact ⟨Nat.le_refl _, ht⟩
    | inr hx =>
      obtain ⟨c, hc, hx⟩ := mem_ownedAll.mp hx
      obtain ⟨hin, -⟩ := Language.encloses_iff.mp (he c hc)
      obtain ⟨hfirst, hlast⟩ := ih c hc x hx
      exact ⟨Nat.le_trans hin.1 hfirst, Nat.lt_of_lt_of_le hlast hin.2⟩

/-- Blocks come before what is in them, and what is in a block before what is in a later one. -/
theorem Laid.owned_pairwise (h : b.Laid) : ∀ {owner : Option Tree},
    (b.owned owner).Pairwise fun x y => x.1.node.first ≤ y.1.node.first := by
  induction h with
  | @member t ht =>
    intro owner
    rw [owned]
    exact List.pairwise_singleton _ _
  | @container i t bs ht hl he hp ih =>
    intro owner
    have hstarts := @Laid.starts _ (Laid.container (i := i) ht hl he hp) owner
    rw [owned] at hstarts ⊢
    apply List.pairwise_cons.mpr
    refine ⟨fun x hx => (hstarts x (List.mem_cons_of_mem _ hx)).1, ?_⟩
    rw [ownedAll_eq]
    apply List.pairwise_flatMap.mpr
    refine ⟨fun c hc => ih c hc, hp.imp_of_mem ?_⟩
    intro c d hc hd hcd x hx y hy
    have hx := ((hl c hc).starts x hx).2
    have hy := ((hl d hd).starts y hy).1
    unfold Tree.Before at hcd
    omega

end Block

namespace File

variable {f : File} {l : Language} {p : Parts} {parent : String} {parentName : Option String}

/-- Whether a chunk is what stands between two bytes of its file: they tell its id, its text and its
lines. -/
structure Covers (f : File) (c : Chunk) (first last : Nat) : Prop where
  id : c.id = Chunk.idOf f.path c.kind first last
  content : c.content = textOf f.bytes first last
  startLine : c.startLine = lineOf f.bytes first
  endLine : c.endLine = lastLineOf f.bytes first last

theorem Made.covers {c : Chunk} (h : f.Made l c) : ∃ first last, f.Covers c first last := by
  cases h with
  | file =>
    refine ⟨0, f.bytes.length, rfl, rfl, ?_, rfl⟩
    rw [lineOf_eq, List.take_zero, List.count_nil]
    rfl
  | context _ x => exact ⟨x.node.first, x.node.last, rfl, rfl, rfl, rfl⟩
  | member _ _ _ t => exact ⟨t.first, t.last, rfl, rfl, rfl, rfl⟩
  | container _ _ _ _ t => exact ⟨t.first, t.last, rfl, rfl, rfl, rfl⟩
  | segment _ _ first last => exact ⟨first, last, rfl, rfl, rfl, rfl⟩

/-- Every chunk is what stands between two bytes. -/
theorem exists_covers {c : Chunk} (hc : c ∈ f.chunks l) : ∃ first last, f.Covers c first last := by
  obtain ⟨⟨d, i⟩, hd, rfl⟩ := List.mem_map.mp hc
  obtain ⟨first, last, hcovers⟩ := (tree_made (List.fst_mem_of_mem_zipIdx hd)).covers
  exact ⟨first, last, hcovers.id, hcovers.content, hcovers.startLine, hcovers.endLine⟩

/-- The bytes that a chunk stands between and its kind can be read off its id. -/
theorem Covers.of_id {c : Chunk} {first last first' last' : Nat} {kind : ChunkKind}
    (h : f.Covers c first last) (hid : c.id = Chunk.idOf f.path kind first' last') :
    c.kind = kind ∧ first = first' ∧ last = last' :=
  (Chunk.idOf_inj (h.id.symm.trans hid)).2

def InLines (c d : Chunk) :
    Prop := c.kind.isSymbol = true → d.kind.isSymbol = true → c.startLine ≤ d.startLine

theorem core?_of_isSymbol {c : Chunk} (h : c.kind.isSymbol = true) : c.core? = some c.core := by
  apply Chunk.core?_eq_some.mpr
  refine ⟨?_, rfl⟩
  rw [Chunk.isSegment]
  cases hk : c.kind <;> first | rfl | (rw [hk] at h; exact absurd h (by decide))

/-- The symbols among the chunks of a block start where the blocks in it do. -/
theorem exists_owned (owner : Option Tree) {b : Block} {c : Chunk}
    (hc : c ∈ f.blockChunks l p owner.isSome (f.parentId owner) parentName b)
    (h : c.kind.isSymbol = true) :
    ∃ x ∈ b.owned owner, c.startLine = lineOf f.bytes x.1.node.first := by
  have hm : c.core ∈ (b.owned owner).map (f.blockCore l) := by
    rw [← filterMap_core?_blockChunks b owner parentName]
    exact List.mem_filterMap.mpr ⟨c, hc, core?_of_isSymbol h⟩
  obtain ⟨x, hx, he⟩ := List.mem_map.mp hm
  exact ⟨x, hx, (congrArg Chunk.startLine he).symm⟩

theorem blockChunks_inLines {b : Block} (h : b.Laid) (owner : Option Tree) :
    (f.blockChunks l p owner.isSome (f.parentId owner) parentName b).Pairwise InLines := by
  have hcores : ((f.blockChunks l p owner.isSome (f.parentId owner) parentName b).filterMap
      Chunk.core?).Pairwise fun c d => c.startLine ≤ d.startLine := by
    rw [filterMap_core?_blockChunks b owner parentName]
    apply List.pairwise_map.mpr
    exact h.owned_pairwise.imp fun hxy => lineOf_mono hxy
  apply (List.pairwise_filterMap.mp hcores).imp
  intro c d hcd hc hd
  exact hcd c.core (core?_of_isSymbol hc) d.core (core?_of_isSymbol hd)

theorem topItems_sorted (f : File) (l : Language) (p : Parts) :
    (f.topItems l p).Pairwise fun x y => x.first ≤ y.first :=
  StableSort.pairwise_rank TopItem.first _

/-- The blocks at the top of a file lie apart, in whatever order they are looked at. -/
theorem topItems_apart {m : Language} (hp : p.Sound m) : (f.topItems l p).Pairwise fun x y =>
    ∀ b c, x = .block b → y = .block c → Tree.Apart b.node c.node := by
  apply ((topItems_perm f l p).pairwise_iff ?_).mpr
  · apply List.pairwise_append.mpr
    refine ⟨?_, ?_, ?_⟩
    · apply List.pairwise_map.mpr
      apply List.pairwise_of_forall
      intro t u b c hb
      exact absurd hb nofun
    · apply List.pairwise_map.mpr
      apply (Block.roots_pairwise hp).imp
      intro b c hbc b' c' hb hc
      obtain rfl := TopItem.block.inj hb
      obtain rfl := TopItem.block.inj hc
      exact Or.inl hbc
    · intro x hx y hy b c hb
      obtain ⟨t, -, rfl⟩ := List.mem_map.mp hx
      exact absurd hb nofun
  · intro x y hxy b c hb hc
    exact (hxy c b hc hb).symm

theorem mem_roots_of_topItems {b : Block} (h : .block b ∈ f.topItems l p) : b ∈ Block.roots p := by
  cases List.mem_append.mp ((topItems_perm f l p).mem_iff.mp h) with
  | inl h =>
    obtain ⟨t, -, ht⟩ := List.mem_map.mp h
    exact absurd ht nofun
  | inr h =>
    obtain ⟨c, hc, he⟩ := List.mem_map.mp h
    exact TopItem.block.inj he ▸ hc

theorem not_isSymbol_contextChunk (parent : String) (c : Context) :
    (f.contextChunk l parent c).kind.isSymbol = false := by
  rw [contextChunk_kind]
  split <;> rfl

theorem inLines_of_apart {b b' : Block} {package : Option String} (hb : b.Laid) (hb' : b'.Laid)
    (hfirst : b.node.first ≤ b'.node.first) (hapart : Tree.Apart b.node b'.node) {c d : Chunk}
    (hc : c ∈ f.blockChunks l p false (f.parentId none) package b)
    (hd : d ∈ f.blockChunks l p false (f.parentId none) package b') : InLines c d := by
  intro hcs hds
  obtain ⟨u, hu, hcl⟩ := exists_owned none hc hcs
  obtain ⟨v, hv, hdl⟩ := exists_owned none hd hds
  have hulast := (hb.starts u hu).2
  have hvfirst := (hb'.starts v hv).1
  have hb'n := hb'.nonempty
  rw [hcl, hdl]
  apply lineOf_mono
  unfold Tree.Apart Tree.Before at hapart
  omega

theorem topChunks_inLines {package : Option String} (hp : p.Sound l) :
    ((f.topItems l p).flatMap (f.topChunks l p (f.parentId none) package)).Pairwise InLines := by
  apply List.pairwise_flatMap.mpr
  constructor
  · intro item hitem
    cases item with
    | context c => exact List.pairwise_singleton _ _
    | block b =>
      exact blockChunks_inLines (Block.roots_laid hp b (mem_roots_of_topItems hitem)) none
  · apply ((topItems_sorted f l p).and (topItems_apart hp)).imp_of_mem
    intro x y hxm hym hxy c hc d hd
    cases x with
    | context x =>
      obtain rfl := List.mem_singleton.mp hc
      intro hcs
      exact absurd hcs (by simp [not_isSymbol_contextChunk])
    | block b =>
      cases y with
      | context y =>
        obtain rfl := List.mem_singleton.mp hd
        intro _ hds
        exact absurd hds (by simp [not_isSymbol_contextChunk])
      | block b' =>
        have hb := Block.roots_laid hp b (mem_roots_of_topItems hxm)
        have hb' := Block.roots_laid hp b' (mem_roots_of_topItems hym)
        exact inLines_of_apart hb hb' hxy.1 (hxy.2 b b' rfl rfl) hc hd

/-- The symbols of a file with a well-formed tree stand in order of their first lines. -/
theorem chunks_inLines (f : File) (l : Language) (h : f.root.WellFormed l f.bytes.length) :
    (f.chunks l).Pairwise InLines := by
  have htree : (f.tree l).Pairwise InLines := by
    apply List.pairwise_cons.mpr
    constructor
    · intro d _ hfile
      exact Bool.noConfusion hfile
    · rw [← List.flatMap_def]
      exact topChunks_inLines (Parts.ofRoot_sound h)
  have hmap : (f.chunks l).map (fun c => (c.kind, c.startLine)) = (f.tree l).map fun c =>
      (c.kind, c.startLine) :=
    Chunk.link_map (fun _ _ _ => rfl) (f.tree l)
  have hlines : ((f.tree l).map fun c => (c.kind, c.startLine)).Pairwise
      fun c d => c.1.isSymbol = true → d.1.isSymbol = true → c.2 ≤ d.2 :=
        List.pairwise_map.mpr htree
  rw [← hmap, List.pairwise_map] at hlines
  exact hlines

end File

end CodeAtlas.Source
