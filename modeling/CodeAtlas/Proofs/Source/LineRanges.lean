import CodeAtlas.Proofs.Source.QualifiedNames

/-!
The lines of chunks. A chunk starts in the line of its first byte and ends in the line of its last
one, or of its first if it has none; lines are told by the line feeds before a byte. What belongs to
a chunk stands between its bytes, so that its lines are between those of the chunk.
-/

namespace CodeAtlas.Source.File

open CodeAtlas.Source.Tree

variable {f : File} {l : Language} {c d : Chunk} {first last first' last' : Nat}

section Spans

theorem Covers.eq_of_parentId (h : f.Covers c first last) (hid : c.id = f.parentId none) :
    first = 0 ∧ last = f.bytes.length := (h.of_id hid).2

theorem Covers.bounds (h : f.Covers c first last) (hs : f.SpansIn first' last' c) :
    first' ≤ first ∧ first < last ∧ last ≤ last' := by
  obtain ⟨a, b, hid, hbounds⟩ := hs
  obtain ⟨-, rfl, rfl⟩ := h.of_id hid
  exact hbounds

/-- A chunk that stands between the bytes of another has its lines between those of the other. -/
theorem Covers.lines_within (hd : f.Covers d first last) (hc : f.Covers c first' last')
    (hinside : f.SpansIn first last c) : d.startLine ≤ c.startLine ∧ c.endLine ≤ d.endLine := by
  obtain ⟨hfirst, hnonempty, hlast⟩ := hc.bounds hinside
  rw [hd.startLine, hc.startLine, hd.endLine, hc.endLine]
  exact ⟨lineOf_mono hfirst, lineOf_mono (by omega)⟩

end Spans

section Inside

theorem exists_cut {parent : String} {cs : List Chunk} {cuts : List Cut}
    (h : List.Forall₂ (f.IsCut l parent) cs cuts) (hc : c ∈ cs) :
    ∃ cut ∈ cuts, f.IsCut l parent c cut := by
  induction h with
  | nil => exact absurd hc List.not_mem_nil
  | @cons d cut ds cuts hd hds ih =>
    rcases List.mem_cons.mp hc with rfl | hc
    · exact ⟨cut, List.mem_cons_self, hd⟩
    · obtain ⟨cut', hcut', hccut⟩ := ih hc
      exact ⟨cut', List.mem_cons_of_mem cut hcut', hccut⟩

/-- What is below the file stands between the bytes of the root. -/
theorem below_spansIn (h : f.root.Spanned l) {package : Option String}
    (hc : c ∈ f.below l package) : f.SpansIn f.root.first f.root.last c := by
  obtain ⟨-, t, ht, hspan⟩ := topChunks_spansIn h.sound hc
  have hmem := (Language.mem_preorder_of_mem_roleNodes (Parts.mem_roleNodes_of_mem_all ht)).1
  have hinside : Inside t f.root := inside_of_mem_preorder f.root h.wellFormed.toOrderly hmem
  exact hspan.mono hinside.1 hinside.2

/-- A chunk is the file or stands between the bytes of the root. -/
theorem file_or_spansIn (h : f.root.Spanned l) (hc : c ∈ f.chunks l) :
    (c.id = f.parentId none ∧ c.parent = none) ∨
    (c.kind ≠ .file ∧ f.SpansIn f.root.first f.root.last c) := by
  obtain ⟨d, hd, hdc⟩ := exists_unlinked hc
  obtain ⟨hid, hkind, hparent⟩ := eq_of_unlinked hdc
  obtain ⟨file, htree, -, hfile, hroot, -⟩ := tree_eq f l
  rw [SpansIn, ← hid, ← hkind, ← hparent]
  rcases List.mem_cons.mp (htree ▸ hd) with rfl | hd
  · exact Or.inl ⟨hfile, hroot⟩
  · exact Or.inr ⟨(topChunks_spansIn h.sound hd).1, below_spansIn h hd⟩

/-- What belongs to the chunk of a container stands between the bytes of the container. -/
theorem spansIn_of_container (h : f.root.Spanned l) (hd : d ∈ f.chunks l) (hk : d.kind = .container)
    (hdc : f.Covers d first last) (hc : c ∈ f.chunks l) (hparent : c.parent = some d.id) :
    f.SpansIn first last c := by
  obtain ⟨q, inner, cuts, hdivided⟩ := container_divided f l h d hd hk
  obtain ⟨-, rfl, rfl⟩ := hdc.of_id hdivided.id
  have hmem : c ∈ (f.chunks l).filter fun e => e.parent == some d.id :=
    List.mem_filter.mpr ⟨hc, by simp [hparent]⟩
  obtain ⟨cut, hcut, hcore, -⟩ := exists_cut hdivided.parts hmem
  have hid : c.id = Chunk.idOf f.path cut.kind cut.first cut.last := congrArg Chunk.id hcore
  have hkind : c.kind = cut.kind := congrArg Chunk.kind hcore
  exact ⟨cut.first, cut.last, hkind ▸ hid, hdivided.inOrder.inside cut hcut⟩

/-- What belongs to a chunk stands between its bytes. -/
theorem spansIn_of_parent (h : f.root.Spanned l) (hb : f.root.last ≤ f.bytes.length)
    (hd : d ∈ f.chunks l) (hdc : f.Covers d first last) (hc : c ∈ f.chunks l)
    (hparent : c.parent = some d.id) : f.SpansIn first last c := by
  rcases (namedIn_of_parent h hd hc hparent).1 with hk | hk
  · rcases file_or_spansIn h hd with ⟨hid, -⟩ | ⟨hne, -⟩
    · -- the file spans all bytes, and the root lies in them
      obtain ⟨rfl, rfl⟩ := hdc.eq_of_parentId hid
      rcases file_or_spansIn h hc with ⟨-, hroot⟩ | ⟨-, hspan⟩
      · exact absurd (hroot.symm.trans hparent) nofun
      · exact hspan.mono (Nat.zero_le _) hb
    · exact absurd hk hne
  · exact spansIn_of_container h hd hk hdc hc hparent

end Inside

/-- A chunk has the text between two bytes. Its first line is that of the first of them, its last
line that of the last byte before the other; both are counted from one by the line feeds in front.
The lines of a chunk are between those of the chunk it belongs to. -/
theorem chunks_lines (f : File) (l : Language) (h : f.root.Spanned l)
    (hb : f.root.last ≤ f.bytes.length) :
    ∀ c ∈ f.chunks l, ∃ first last, c.id = Chunk.idOf f.path c.kind first last ∧
      c.content = textOf f.bytes first last ∧ first ≤ last ∧ last ≤ f.bytes.length ∧
      c.startLine = 1 + (f.bytes.take first).count 10 ∧
      c.endLine = 1 + (f.bytes.take (max first (last - 1))).count 10 ∧
      1 ≤ c.startLine ∧ c.startLine ≤ c.endLine ∧
      ∀ d ∈ f.chunks l, c.parent = some d.id → d.startLine ≤ c.startLine ∧
          c.endLine ≤ d.endLine := by
  intro c hc
  obtain ⟨first, last, hcovers⟩ := exists_covers hc
  have hstart : c.startLine = 1 + (f.bytes.take first).count 10 := by
    rw [hcovers.startLine, lineOf_eq, Nat.add_comm]
  have hend : c.endLine = 1 + (f.bytes.take (max first (last - 1))).count 10 := by
    rw [hcovers.endLine, lastLineOf, lineOf_eq, Nat.add_comm]
  have hspan : first ≤ last ∧ last ≤ f.bytes.length := by
    rcases file_or_spansIn h hc with ⟨hid, -⟩ | ⟨-, hspan⟩
    · obtain ⟨rfl, rfl⟩ := hcovers.eq_of_parentId hid
      exact ⟨Nat.zero_le _, Nat.le_refl _⟩
    · obtain ⟨-, hlt, hle⟩ := hcovers.bounds hspan
      exact ⟨hlt.le, hle.trans hb⟩
  refine ⟨first, last, hcovers.id, hcovers.content, hspan.1, hspan.2, hstart, hend, ?_, ?_,
    fun d hd hparent => ?_⟩
  · rw [hstart]
    exact Nat.le_add_right 1 _
  · rw [hcovers.startLine, hcovers.endLine]
    exact lineOf_mono (Nat.le_max_left _ _)
  · obtain ⟨_, _, hdc⟩ := exists_covers hd
    exact hdc.lines_within hcovers (spansIn_of_parent h hb hd hdc hc hparent)

/-- The method stands in the third line, which is one of the lines of the class around it. -/
theorem chunks_lines_nestedClasses :
    nestedClasses.root.Spanned .python ∧ nestedClasses.root.last ≤ nestedClasses.bytes.length ∧
      ∃ c ∈ nestedClasses.chunks .python, ∃ m ∈ nestedClasses.chunks .python,
        c.kind = .container ∧ m.kind = .member ∧ m.parent = some c.id ∧
          m.startLine = 3 ∧ m.endLine = 3 ∧ c.startLine ≤ 3 ∧ 3 ≤ c.endLine := by
  have hw : nestedClasses.root.WellFormed .python nestedClasses.bytes.length := by decide
  have hplaced : ∃ q t, (Language.python.placements nestedClasses.root)[1]? = some (q, none) ∧
      (Language.python.placements nestedClasses.root)[2]? = some (t, some q) ∧
      kindOf .python (q, none) = .container ∧ kindOf .python (t, some q) = .member ∧
      Language.python.contextNode t = false ∧ (t.first, t.last) = (21, 38) :=
        ⟨_, _, rfl, rfl, rfl, rfl, rfl, rfl⟩
  obtain ⟨q, t, hq, ht, hqk, htk, hcontext, hspan⟩ := hplaced
  obtain ⟨c, hc, hccore⟩ := exists_chunk_of_placement hw.spanned (List.mem_of_getElem? hq)
  obtain ⟨m, hm, hmcore⟩ := exists_chunk_of_placement hw.spanned (List.mem_of_getElem? ht)
  have hck : c.kind = .container := (congrArg Chunk.kind hccore).trans hqk
  have hmk : m.kind = .member := (congrArg Chunk.kind hmcore).trans htk
  have hcid : c.id = nestedClasses.parentId (some q) := by
    have hid : c.id = Chunk.idOf nestedClasses.path (kindOf .python (q, none)) q.first q.last :=
      congrArg Chunk.id hccore
    rwa [hqk] at hid
  have hmparent : m.parent = some c.id := by
    have hparent : m.parent =
        some (nestedClasses.parentId (if Language.python.contextNode t then none else some q)) :=
      congrArg Chunk.parent hmcore
    rwa [hcontext, if_neg Bool.false_ne_true, ← hcid] at hparent
  obtain ⟨first, last, hid, -, -, -, hstart, hend, -, -, hwithin⟩ :=
    chunks_lines nestedClasses .python hw.spanned hw.bounded m hm
  have hmid : m.id = Chunk.idOf nestedClasses.path (kindOf .python (t, some q)) t.first t.last :=
    congrArg Chunk.id hmcore
  obtain ⟨-, -, rfl, rfl⟩ := Chunk.idOf_inj (hid.symm.trans hmid)
  obtain ⟨hfirst, hlast⟩ := Prod.mk.inj hspan
  obtain ⟨hcm, hmc⟩ := hwithin c hc hmparent
  rw [hfirst] at hstart hend
  rw [hlast] at hend
  have hstart : m.startLine = 3 := hstart.trans (by decide)
  have hend : m.endLine = 3 := hend.trans (by decide)
  exact ⟨hw.spanned, hw.bounded, c, hc, m, hm, hck, hmk, hmparent, hstart, hend,
    hstart ▸ hcm, hend ▸ hmc⟩

end CodeAtlas.Source.File
