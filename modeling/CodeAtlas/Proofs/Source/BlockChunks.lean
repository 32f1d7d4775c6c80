import CodeAtlas.Proofs.Chunk.Id
import CodeAtlas.Proofs.Chunk.Tree
import CodeAtlas.Proofs.Source.Layout
import CodeAtlas.Proofs.Source.Trim
import CodeAtlas.Source.Chunking

/-!
The chunks of blocks. Their shape follows the recursion over blocks and needs nothing of the syntax
tree. That their ids are distinct is read off the spans, which are laid out as the blocks are.
-/

namespace CodeAtlas.Source.File

open Chunk (Forest)

variable {f : File} {l : Language} {p : Parts}

section Shape
variable {parent : String} {parentName : Option String}

theorem segment_forest (f : File) (l : Language) (parent role : String) (first last : Nat) :
    Forest parent ((f.segment l parent role first last).map Chunk.id)
      (f.segment l parent role first last) := by
  unfold segment
  cases trimSpan? f.bytes first last with
  | none => exact .nil parent
  | some span => exact .leaf rfl rfl rfl

@[simp] theorem blockChunks_member (inside : Bool) (t : Tree) :
    f.blockChunks l p inside parent parentName (.member t) =
      [f.memberChunk l (blockKind inside (.member t)) parent parentName t] := by
  rw [blockChunks]

@[simp] theorem blockChunks_empty (inside : Bool) (i : Nat) (t : Tree) :
    f.blockChunks l p inside parent parentName (.container i t []) =
      [f.containerChunk l p parent parentName i t] := by
  rw [blockChunks]
  rfl

/-- The chunks of a container that has something in it: its own, those of its declaration, of what
is in it and of its closing. -/
theorem blockChunks_container (inside : Bool) (i : Nat) (t : Tree) (b : Block) (bs : List Block) :
    let chunk := f.containerChunk l p parent parentName i t
    let before := f.segment l chunk.id "declaration" t.first b.node.first
    let after := f.segment l chunk.id "closing"
      ((b :: bs).getLast (List.cons_ne_nil b bs)).node.last t.last
    f.blockChunks l p inside parent parentName (.container i t (b :: bs)) =
      { chunk with
        children := before.map Chunk.id ++ (b :: bs).map (f.blockId true) ++ after.map Chunk.id } ::
        (before ++ f.blocksChunks l p true chunk.id chunk.qualifiedName (b :: bs) ++ after) := by
  rw [blockChunks, List.getLast?_eq_some_getLast (List.cons_ne_nil b bs)]
  rfl

mutual

theorem blockChunks_forest : (b : Block) → (inside : Bool) → (parent : String) →
    (parentName : Option String) →
    Forest parent [f.blockId inside b] (f.blockChunks l p inside parent parentName b)
  | .member t, inside, parent, parentName => by
    rw [blockChunks_member]
    exact .leaf rfl rfl rfl
  | .container i t [], inside, parent, parentName => by
    rw [blockChunks_empty]
    exact .leaf rfl rfl rfl
  | .container i t (b :: bs), inside, parent, parentName => by
    rw [blockChunks_container]
    refine .single rfl rfl (.append (.append ?_ ?_) ?_)
    · exact segment_forest ..
    · exact blocksChunks_forest (b :: bs) true _ _
    · exact segment_forest ..

theorem blocksChunks_forest : (bs : List Block) → (inside : Bool) → (parent : String) →
    (parentName : Option String) →
    Forest parent (bs.map (f.blockId inside)) (f.blocksChunks l p inside parent parentName bs)
  | [], _, parent, _ => .nil parent
  | b :: bs, inside, parent, parentName =>
    (blockChunks_forest b inside parent parentName).append
      (blocksChunks_forest bs inside parent parentName)

end

end Shape

section Spans

/-- The id of a chunk names a span inside some bytes. -/
def SpansIn (f : File) (first last : Nat) (c : Chunk) : Prop :=
  ∃ a b, c.id = Chunk.idOf f.path c.kind a b ∧ first ≤ a ∧ a < b ∧ b ≤ last

theorem SpansIn.mono {first last first' last' : Nat} {c : Chunk} (h : f.SpansIn first last c)
    (hf : first' ≤ first) (hl : last ≤ last') : f.SpansIn first' last' c := by
  obtain ⟨a, b, hid, ha, hab, hb⟩ := h
  exact ⟨a, b, hid, Nat.le_trans hf ha, hab, Nat.le_trans hb hl⟩

theorem SpansIn.kind_eq {first last first' last' : Nat} {c d : Chunk} (hc : f.SpansIn first last c)
    (hd : f.SpansIn first' last' d) (h : c.id = d.id) : c.kind = d.kind := by
  obtain ⟨a, b, hid, -⟩ := hc
  obtain ⟨a', b', hid', -⟩ := hd
  exact (Chunk.idOf_inj (hid.symm.trans (h.trans hid'))).2.1

/-- Chunks in bytes that are apart have different ids. -/
theorem SpansIn.id_ne {first last first' last' : Nat} {c d : Chunk} (hc : f.SpansIn first last c)
    (hd : f.SpansIn first' last' d) (h : last ≤ first') : c.id ≠ d.id := by
  obtain ⟨a, b, hid, ha, hab, hb⟩ := hc
  obtain ⟨a', b', hid', ha', hab', hb'⟩ := hd
  intro he
  obtain ⟨-, -, rfl, rfl⟩ := Chunk.idOf_inj (hid.symm.trans (he.trans hid'))
  omega

theorem segment_spansIn {parent role : String} {first last : Nat} :
    ∀ c ∈ f.segment l parent role first last, f.SpansIn first last c ∧ c.kind = .context := by
  intro c hc
  simp only [segment, List.mem_map, Option.mem_toList] at hc
  obtain ⟨⟨a, b⟩, hab, rfl⟩ := hc
  exact ⟨⟨a, b, rfl, trimSpan?_bounds hab⟩, rfl⟩

theorem blocksChunks_eq (inside : Bool) (parent : String) (parentName : Option String)
    (bs : List Block) : f.blocksChunks l p inside parent parentName bs =
      bs.flatMap (f.blockChunks l p inside parent parentName) := by
  induction bs with
  | nil => rfl
  | cons b bs ih => rw [blocksChunks, ih, List.flatMap_cons]

end Spans

section Distinct
variable {inside : Bool} {parent : String} {parentName : Option String}

/-- Blocks that stand one after the other lie between the first and the last of them. -/
theorem between_ends {b : Block} {bs : List Block} (hl : ∀ c ∈ b :: bs, c.Laid)
    (hp : (b :: bs).Pairwise fun c d => Tree.Before c.node d.node) : ∀ c ∈ b :: bs,
    b.node.first ≤ c.node.first ∧
      c.node.last ≤ ((b :: bs).getLast (List.cons_ne_nil b bs)).node.last := by
  intro c hc
  have hle : (b :: bs).Pairwise fun c d => c.node.first ≤ d.node.first ∧
      c.node.last ≤ d.node.last := by
    refine hp.imp_of_mem ?_
    intro c d hc hd hcd
    have h1 := (hl c hc).nonempty
    have h2 := (hl d hd).nonempty
    unfold Tree.Before at hcd
    omega
  constructor
  · rcases List.mem_cons.mp hc with rfl | hc
    · exact Nat.le_refl _
    · exact ((List.pairwise_cons.mp hle).1 c hc).1
  · exact (hle.rel_getLast_of_rel_getLast_getLast hc ⟨Nat.le_refl _, Nat.le_refl _⟩).2

/-- The chunks of a container that has something in it, with where their spans are. -/
theorem mem_blockChunks_container {i : Nat} {t : Tree} {b : Block} {bs : List Block} {c : Chunk}
    (hc : c ∈ f.blockChunks l p inside parent parentName (.container i t (b :: bs))) :
    (c.id = Chunk.idOf f.path c.kind t.first t.last ∧ c.kind = .container) ∨
      (f.SpansIn t.first b.node.first c ∧ c.kind = .context) ∨
      (∃ d ∈ b :: bs, ∃ parent parentName, c ∈ f.blockChunks l p true parent parentName d) ∨
      (f.SpansIn ((b :: bs).getLast (List.cons_ne_nil b bs)).node.last t.last c ∧
          c.kind = .context) := by
  rw [blockChunks_container] at hc
  simp only [List.mem_cons, List.mem_append, blocksChunks_eq, List.mem_flatMap] at hc
  rcases hc with rfl | (hc | ⟨d, hd, hc⟩) | hc
  · exact Or.inl ⟨rfl, rfl⟩
  · exact Or.inr (Or.inl (segment_spansIn c hc))
  · exact Or.inr (Or.inr (Or.inl ⟨d, List.mem_cons.mpr hd, _, _, hc⟩))
  · exact Or.inr (Or.inr (Or.inr (segment_spansIn c hc)))

theorem blockChunks_spansIn {b : Block} (h : b.Laid) : ∀ {inside parent parentName},
    ∀ c ∈ f.blockChunks l p inside parent parentName b, f.SpansIn b.node.first b.node.last c := by
  induction h with
  | @member t ht =>
    intro inside parent parentName c hc
    rw [blockChunks_member, List.mem_singleton] at hc
    exact hc ▸ ⟨t.first, t.last, rfl, Nat.le_refl _, ht, Nat.le_refl _⟩
  | @container i t bs ht hl he hp ih =>
    intro inside parent parentName c hc
    cases bs with
    | nil =>
      rw [blockChunks_empty, List.mem_singleton] at hc
      exact hc ▸ ⟨t.first, t.last, rfl, Nat.le_refl _, ht, Nat.le_refl _⟩
    | cons b bs =>
      have hin : ∀ d ∈ b :: bs, t.first ≤ d.node.first ∧ d.node.last ≤ t.last := fun d hd =>
        (Language.encloses_iff.mp (he d hd)).1
      have hb := hin b List.mem_cons_self
      have hlast := hin _ (List.getLast_mem (List.cons_ne_nil b bs))
      have hbn := (hl b List.mem_cons_self).nonempty
      have hln := (hl _ (List.getLast_mem (List.cons_ne_nil b bs))).nonempty
      have hbefore : b.node.first ≤ t.last := by omega
      have hafter : t.first ≤ ((b :: bs).getLast (List.cons_ne_nil b bs)).node.last := by omega
      rcases mem_blockChunks_container hc with ⟨hid, -⟩ | ⟨hs, -⟩ | ⟨d, hd, _, _, hm⟩ | ⟨hs, -⟩
      · exact ⟨t.first, t.last, hid, Nat.le_refl _, ht, Nat.le_refl _⟩
      · exact hs.mono (Nat.le_refl _) hbefore
      · exact (ih d hd c hm).mono (hin d hd).1 (hin d hd).2
      · exact hs.mono hafter (Nat.le_refl _)

/-- The chunks of blocks are containers, members and segments of containers. -/
theorem blockChunks_kind {b : Block} (h : b.Laid) : ∀ {inside parent parentName},
    ∀ c ∈ f.blockChunks l p inside parent parentName b, c.kind ≠ .file ∧ c.kind ≠ .imported ∧
      (c.kind = .context → ∃ i t bs, b = .container i t bs) := by
  induction h with
  | @member t ht =>
    intro inside parent parentName c hc
    rw [blockChunks_member, List.mem_singleton] at hc
    subst hc
    cases inside <;> exact ⟨nofun, nofun, nofun⟩
  | @container i t bs ht hl he hp ih =>
    intro inside parent parentName c hc
    have hself : c.kind = .context → ∃ j u ds, Block.container i t bs = .container j u ds :=
      fun _ => ⟨i, t, bs, rfl⟩
    cases bs with
    | nil =>
      rw [blockChunks_empty, List.mem_singleton] at hc
      subst hc
      exact ⟨nofun, nofun, hself⟩
    | cons b bs =>
      rcases mem_blockChunks_container hc with ⟨-, hk⟩ | ⟨-, hk⟩ | ⟨d, hd, _, _, hm⟩ | ⟨-, hk⟩
      · exact ⟨hk ▸ nofun, hk ▸ nofun, hself⟩
      · exact ⟨hk ▸ nofun, hk ▸ nofun, hself⟩
      · exact ⟨(ih d hd c hm).1, (ih d hd c hm).2.1, hself⟩
      · exact ⟨hk ▸ nofun, hk ▸ nofun, hself⟩

theorem segment_pairwise {parent role : String} {first last : Nat} :
    (f.segment l parent role first last).Pairwise fun c d => c.id ≠ d.id := by
  unfold segment
  cases trimSpan? f.bytes first last <;> simp

/-- What stands in a container is narrower than it or a segment of it. -/
theorem container_id_ne {i : Nat} {t : Tree} {bs : List Block} {d : Chunk}
    (h : (Block.container i t bs).Laid)
    (hd : (d.kind = .context ∧ ∃ first last, f.SpansIn first last d) ∨
      ∃ b ∈ bs, f.SpansIn b.node.first b.node.last d) :
    Chunk.idOf f.path .container t.first t.last ≠ d.id := by
  cases h with
  | container ht hl he hp =>
    intro hid
    rcases hd with ⟨hk, _, _, a, b, hd, -⟩ | ⟨b, hb, a, a', hd, ha, haa, ha'⟩
    · have hkind := (Chunk.idOf_inj (hid.trans hd)).2.1
      exact absurd (hkind.trans hk) nofun
    · obtain ⟨-, -, rfl, rfl⟩ := Chunk.idOf_inj (hid.trans hd)
      have hw := (Language.encloses_iff.mp (he b hb)).2
      unfold Tree.width at hw
      omega

/-- The chunks of a block have different ids. -/
theorem blockChunks_pairwise {b : Block} (h : b.Laid) : ∀ {inside parent parentName},
    (f.blockChunks l p inside parent parentName b).Pairwise fun c d => c.id ≠ d.id := by
  induction h with
  | @member t ht =>
    intro inside parent parentName
    rw [blockChunks_member]
    exact List.pairwise_singleton _ _
  | @container i t bs ht hl he hp ih =>
    intro inside parent parentName
    cases bs with
    | nil =>
      rw [blockChunks_empty]
      exact List.pairwise_singleton _ _
    | cons b bs =>
      have hends := between_ends hl hp
      have hspan : ∀ d ∈ b :: bs, ∀ {parent parentName},
          ∀ c ∈ f.blockChunks l p true parent parentName d,
            f.SpansIn d.node.first d.node.last c := fun d hd _ _ c hc =>
        blockChunks_spansIn (hl d hd) c hc
      rw [blockChunks_container]
      refine List.pairwise_cons.mpr ⟨?_, List.pairwise_append.mpr
        ⟨List.pairwise_append.mpr ⟨segment_pairwise, ?_, ?_⟩, segment_pairwise, ?_⟩⟩
      -- the container against what stands in it
      · intro d hd
        refine container_id_ne (.container (i := i) ht hl he hp) ?_
        rcases List.mem_append.mp hd with hd | hd
        · rcases List.mem_append.mp hd with hd | hd
          · exact Or.inl ⟨(segment_spansIn d hd).2, _, _, (segment_spansIn d hd).1⟩
          · rw [blocksChunks_eq] at hd
            obtain ⟨e, he, hd⟩ := List.mem_flatMap.mp hd
            exact Or.inr ⟨e, he, hspan e he d hd⟩
        · exact Or.inl ⟨(segment_spansIn d hd).2, _, _, (segment_spansIn d hd).1⟩
      -- its blocks against each other, and then each of its segments against what stands before
      · rw [blocksChunks_eq]
        refine List.pairwise_flatMap.mpr ⟨fun d hd => ih d hd, hp.imp_of_mem ?_⟩
        intro d e hd he hde c hc c' hc'
        exact (hspan d hd c hc).id_ne (hspan e he c' hc') hde
      · intro c hc c' hc'
        rw [blocksChunks_eq] at hc'
        obtain ⟨d, hd, hc'⟩ := List.mem_flatMap.mp hc'
        exact (segment_spansIn c hc).1.id_ne (hspan d hd c' hc') (hends d hd).1
      · intro c hc c' hc'
        have hc' := (segment_spansIn c' hc').1
        rcases List.mem_append.mp hc with hc | hc
        · have hbn := (hl b List.mem_cons_self).nonempty
          have hbl := (hends b List.mem_cons_self).2
          exact (segment_spansIn c hc).1.id_ne hc' (by omega)
        · rw [blocksChunks_eq] at hc
          obtain ⟨d, hd, hc⟩ := List.mem_flatMap.mp hc
          exact (hspan d hd c hc).id_ne hc' (hends d hd).2

end Distinct

end CodeAtlas.Source.File
