import CodeAtlas.Proofs.Source.Lines
import CodeAtlas.Proofs.Source.Segments

/-!
Qualified names. The chunk a chunk belongs to is the file or a container, and it is the only one of
its id, whatever else shares one. The name of a symbol is qualified by that of the chunk it belongs
to; so along a chain of chunks, from the file down, the qualified name at the end is made of the
package and the names on the way.
-/

namespace CodeAtlas

namespace Name

theorem qualify_eq (parent : Option String) (name : String) :
    qualify parent name = if parent.getD "" = "" then name else parent.getD "" ++ "." ++ name := by
  cases parent with
  | none => rfl
  | some p =>
    rw [qualify, Option.getD_some]
    by_cases hp : p = ""
    · rw [if_pos hp, if_pos (String.isEmpty_iff.mpr hp)]
    · rw [if_neg hp, if_neg (mt String.isEmpty_iff.mp hp)]
      rfl

end Name

section Dotted

variable {parts : List String}

theorem intercalate_concat (sep last : String) (h : parts ≠ []) :
    sep.intercalate (parts ++ [last]) = sep.intercalate parts ++ sep ++ last := by
  induction parts with
  | nil => exact absurd rfl h
  | cons part rest ih =>
    cases rest with
    | nil =>
      rw [List.singleton_append, String.intercalate_cons_cons, String.intercalate_singleton,
        String.intercalate_singleton]
    | cons next rest =>
      rw [List.cons_append, List.cons_append, String.intercalate_cons_cons, ← List.cons_append,
        ih (List.cons_ne_nil _ _), String.intercalate_cons_cons, ← String.append_assoc,
        ← String.append_assoc]

/-- Parts with points between them are empty only if there are no parts. -/
theorem intercalate_ne_empty (sep : String) (h : ∀ part ∈ parts, part ≠ "") (hne : parts ≠ []) :
    sep.intercalate parts ≠ "" := by
  obtain ⟨part, rest, rfl⟩ := List.exists_cons_of_ne_nil hne
  have hpart := h part List.mem_cons_self
  cases rest with
  | nil => rwa [String.intercalate_singleton]
  | cons next rest =>
    rw [String.intercalate_cons_cons]
    intro he
    exact hpart (String.append_eq_empty_iff.mp (String.append_eq_empty_iff.mp he).1).1

end Dotted

namespace Source.File

variable {f : File} {l : Language} {p : Parts} {c d : Chunk}

/-- Whether a chunk belongs to another and, if it is a symbol, has its name qualified by that of the
other. -/
structure NamedIn (d c : Chunk) : Prop where
  parent : c.parent = some d.id
  qualified : c.kind.isSymbol = true → c.qualifiedName = c.name.map (Name.qualify d.qualifiedName)

section Blocks

variable {cs : List Chunk} {owner : Chunk}

/-- Whether a chunk is named in one that is around a list of chunks, or in a container of the
list. -/
def NamedAmong (owner : Chunk) (cs : List Chunk) (c : Chunk) : Prop :=
  NamedIn owner c ∨ ∃ d ∈ cs, d.kind = .container ∧ NamedIn d c

theorem NamedAmong.mono {ds : List Chunk} (h : NamedAmong owner cs c) (hsub : cs ⊆ ds) :
    NamedAmong owner ds c :=
  h.imp_right fun ⟨d, hd, hdc⟩ => ⟨d, hsub hd, hdc⟩

/-- What is named in the chunk of a container, or further below, is named among that chunk and those
below it. -/
theorem NamedAmong.of_container {chunk : Chunk} (children : List String)
    (hk : chunk.kind = .container) (h : NamedAmong chunk cs c) :
    NamedAmong owner ({ chunk with children } :: cs) c := by
  rcases h with h | ⟨d, hd, hdc⟩
  · exact Or.inr ⟨_, List.mem_cons_self, hk, h.parent, h.qualified⟩
  · exact Or.inr ⟨d, List.mem_cons_of_mem _ hd, hdc⟩

theorem namedIn_of_segment {role : String} {first last : Nat}
    (hc : c ∈ f.segment l owner.id role first last) : NamedIn owner c := by
  obtain ⟨span, -, rfl⟩ := List.mem_map.mp hc
  exact ⟨rfl, nofun⟩

mutual

/-- Every chunk of a block is named in the chunk around the block or in a container of the block. -/
theorem blockChunks_namedAmong : (b : Block) → (inside : Bool) → (owner : Chunk) →
    ∀ c ∈ f.blockChunks l p inside owner.id owner.qualifiedName b,
      NamedAmong owner (f.blockChunks l p inside owner.id owner.qualifiedName b) c
  | .member t, inside, owner, c, hc => by
    rw [blockChunks_member] at hc
    obtain rfl := List.mem_singleton.mp hc
    exact Or.inl ⟨rfl, fun _ => rfl⟩
  | .container i t [], inside, owner, c, hc => by
    rw [blockChunks_empty] at hc
    obtain rfl := List.mem_singleton.mp hc
    exact Or.inl ⟨rfl, fun _ => rfl⟩
  | .container i t (b :: bs), inside, owner, c, hc => by
    rw [blockChunks_container] at hc ⊢
    rcases List.mem_cons.mp hc with rfl | hc
    · exact Or.inl ⟨rfl, fun _ => rfl⟩
    · apply NamedAmong.of_container _ rfl
      rcases List.mem_append.mp hc with hc | hc
      · rcases List.mem_append.mp hc with hc | hc
        · exact Or.inl (namedIn_of_segment hc)
        · apply (blocksChunks_namedAmong (b :: bs) true _ c hc).mono
          exact fun d hd => List.mem_append_left _ (List.mem_append_right _ hd)
      · exact Or.inl (namedIn_of_segment hc)

theorem blocksChunks_namedAmong : (bs : List Block) → (inside : Bool) → (owner : Chunk) →
    ∀ c ∈ f.blocksChunks l p inside owner.id owner.qualifiedName bs,
      NamedAmong owner (f.blocksChunks l p inside owner.id owner.qualifiedName bs) c
  | [], _, _, c, hc => absurd hc List.not_mem_nil
  | b :: bs, inside, owner, c, hc => by
    rw [blocksChunks] at hc ⊢
    rcases List.mem_append.mp hc with hc | hc
    · exact (blockChunks_namedAmong b inside owner c hc).mono (List.subset_append_left _ _)
    · exact (blocksChunks_namedAmong bs inside owner c hc).mono (List.subset_append_right _ _)

end

end Blocks

section Parents

/-- The file is in front, and what is below it has its qualified name, which is the package. -/
theorem tree_eq (f : File) (l : Language) :
    ∃ file, f.tree l = file :: f.below l file.qualifiedName ∧
    file.kind = .file ∧ file.id = f.parentId none ∧ file.parent = none ∧
    file.declaration.package = file.qualifiedName :=
  ⟨_, rfl, rfl, rfl, rfl, rfl⟩

theorem below_namedAmong {file : Chunk} (hid : file.id = f.parentId none) :
    ∀ c ∈ f.below l file.qualifiedName, NamedAmong file (f.below l file.qualifiedName) c := by
  intro c hc
  obtain ⟨cs, hcs, hcm⟩ := List.mem_flatten.mp hc
  have hsub : cs ⊆ f.below l file.qualifiedName := fun d hd => List.mem_flatten_of_mem hcs hd
  obtain ⟨item, -, rfl⟩ := List.mem_map.mp hcs
  cases item with
  | context context =>
    obtain rfl := List.mem_singleton.mp hcm
    refine Or.inl ⟨congrArg some hid.symm, fun hsymbol => ?_⟩
    rw [not_isSymbol_contextChunk] at hsymbol
    exact absurd hsymbol Bool.false_ne_true
  | block b =>
    rw [topChunks, ← hid] at hcm hsub
    exact (blockChunks_namedAmong b false file c hcm).mono hsub

/-- Only a package and a declaration or a closing of a container can have the id of another
chunk. -/
theorem eq_of_id (h : f.root.Spanned l) (hc : c ∈ f.tree l) (hd : d ∈ f.tree l)
    (hk : d.kind ≠ .context) (hid : c.id = d.id) : c = d := by
  obtain ⟨first, last, hcovers⟩ := (tree_made hd).covers
  obtain ⟨first', last', hcovers'⟩ := (tree_made hc).covers
  have hkind : c.kind = d.kind := (hcovers'.of_id (hid.trans hcovers.id)).1
  have hsegment : ∀ {e : Chunk}, e.kind = d.kind → e.isSegment = false := fun he => by
    rw [Chunk.isSegment, he, beq_eq_false_iff_ne.mpr hk, Bool.false_and]
  obtain ⟨file, htree, hfile, -⟩ := tree_eq f l
  rw [htree] at hc hd
  rcases List.mem_cons.mp hc with rfl | hc <;> rcases List.mem_cons.mp hd with rfl | hd
  · rfl
  · exact absurd (hkind.symm.trans hfile) ((topChunks_spansIn h.sound hd).1)
  · exact absurd (hkind.trans hfile) ((topChunks_spansIn h.sound hc).1)
  · have hnodup : (((f.below l file.qualifiedName).filterMap Chunk.core?).map Chunk.id).Nodup :=
      below_ids_nodup h
    rw [Chunk.map_id_filterMap_core?] at hnodup
    exact Chunk.eq_of_id_eq hnodup (List.mem_filter.mpr ⟨hc, by rw [hsegment hkind]; rfl⟩)
      (List.mem_filter.mpr ⟨hd, by rw [hsegment rfl]; rfl⟩) hid

theorem map_unlinked_chunks (f : File) (l : Language) :
    (f.chunks l).map Chunk.unlinked = (f.tree l).map Chunk.unlinked :=
  Chunk.map_unlinked_link (f.tree l)

theorem exists_unlinked (hc : c ∈ f.chunks l) : ∃ d ∈ f.tree l, d.unlinked = c.unlinked :=
  List.mem_map.mp (map_unlinked_chunks f l ▸ List.mem_map_of_mem hc)

/-- The file stays in front when references are linked. -/
theorem chunks_eq (f : File) (l : Language) :
    ∃ file rest, f.chunks l = file :: rest ∧ file.kind = .file ∧
    file.id = f.parentId none ∧ file.declaration.package = file.qualifiedName := by
  obtain ⟨file, htree, hkind, hid, -, hpackage⟩ := tree_eq f l
  have hlink := map_unlinked_chunks f l
  rw [htree] at hlink
  obtain ⟨linked, rest, hchunks, hlinked, -⟩ := List.map_eq_cons_iff.mp hlink
  have hfields : file.unlinked.kind = .file ∧ file.unlinked.id = f.parentId none ∧
      file.unlinked.declaration.package = file.unlinked.qualifiedName := ⟨hkind, hid, hpackage⟩
  rw [← hlinked] at hfields
  exact ⟨linked, rest, hchunks, hfields⟩

theorem eq_of_unlinked (h : d.unlinked = c.unlinked) :
    d.id = c.id ∧ d.kind = c.kind ∧ d.parent = c.parent := by
  have hid : d.unlinked.id = c.unlinked.id := congrArg Chunk.id h
  have hkind : d.unlinked.kind = c.unlinked.kind := congrArg Chunk.kind h
  have hparent : d.unlinked.parent = c.unlinked.parent := congrArg Chunk.parent h
  exact ⟨hid, hkind, hparent⟩

/-- The chunk a chunk belongs to is the file or a container, and the chunk is named in it. -/
theorem namedIn_of_parent (h : f.root.Spanned l) (hd : d ∈ f.chunks l) (hc : c ∈ f.chunks l)
    (hparent : c.parent = some d.id) : (d.kind = .file ∨ d.kind = .container) ∧ NamedIn d c := by
  obtain ⟨d', hd', hdd⟩ := exists_unlinked hd
  obtain ⟨c', hc', hcc⟩ := exists_unlinked hc
  obtain ⟨hid, hkind, -⟩ := eq_of_unlinked hdd
  have hparent' : c'.parent = some d'.id := by
    rw [(eq_of_unlinked hcc).2.2, hparent, hid]
  -- what a chunk is named in has its id to itself, so that it is the one that the chunk belongs to
  have hnamed : ∀ e ∈ f.tree l, e.kind = .file ∨ e.kind = .container → NamedIn e c' →
      (d.kind = .file ∨ d.kind = .container) ∧ NamedIn d c := by
    intro e he hk hec
    have hid : d'.id = e.id := Option.some.inj (hparent'.symm.trans hec.parent)
    obtain rfl := eq_of_id h hd' he (by rcases hk with hk | hk <;> rw [hk] <;> exact nofun) hid
    have hunlinked : NamedIn d'.unlinked c'.unlinked := ⟨hec.parent, hec.qualified⟩
    rw [hdd, hcc] at hunlinked
    exact ⟨hkind ▸ hk, hunlinked.parent, hunlinked.qualified⟩
  obtain ⟨file, htree, hfile, hfileId, hroot, -⟩ := tree_eq f l
  rw [htree] at hc' hnamed
  rcases List.mem_cons.mp hc' with rfl | hc'
  · rw [hroot] at hparent'
    exact absurd hparent' nofun
  · rcases below_namedAmong hfileId c' hc' with hec | ⟨e, he, hk, hec⟩
    · exact hnamed file List.mem_cons_self (Or.inl hfile) hec
    · exact hnamed e (List.mem_cons_of_mem _ he) (Or.inr hk) hec

end Parents

section Chains

/-- Whether the qualified name of a chunk, if there is one, is made of some parts, none of them
empty. -/
structure Dotted (c : Chunk) (parts : List String) : Prop where
  name : c.qualifiedName.getD "" = ".".intercalate parts
  nonempty : ∀ part ∈ parts, part ≠ ""

/-- The name of a file is made of its package. -/
theorem dotted_of_package (h : c.declaration.package = c.qualifiedName) :
    Dotted c (c.declaration.package.filter (· ≠ "")).toList := by
  rw [h]
  cases hname : c.qualifiedName with
  | none => exact ⟨by rw [hname]; rfl, nofun⟩
  | some package =>
    by_cases hempty : package = ""
    · rw [Option.filter_some_neg (by simpa using hempty)]
      exact ⟨by rw [hname, hempty]; rfl, nofun⟩
    · rw [Option.filter_some_pos (by simpa using hempty)]
      constructor
      · rw [hname, Option.getD_some, Option.toList_some, String.intercalate_singleton]
      · exact fun part hpart => List.mem_singleton.mp hpart ▸ hempty

/-- The name of a symbol comes behind the parts of the chunk it belongs to. -/
theorem Dotted.concat {parts : List String} (h : Dotted d parts) (hc : NamedIn d c)
    (hsymbol : c.kind.isSymbol = true) {name : String} (hname : c.name = some name)
    (hne : name ≠ "") :
    Dotted c (parts ++ [name]) ∧ c.qualifiedName = some (".".intercalate (parts ++ [name])) := by
  have hqualified : c.qualifiedName = some (".".intercalate (parts ++ [name])) := by
    rw [hc.qualified hsymbol, hname, Option.map_some, Name.qualify_eq, h.name]
    by_cases hparts : parts = []
    · rw [hparts, if_pos String.intercalate_nil, List.nil_append, String.intercalate_singleton]
    · rw [if_neg (intercalate_ne_empty "." h.nonempty hparts), intercalate_concat "." name hparts]
  refine ⟨⟨by rw [hqualified, Option.getD_some], fun part hpart => ?_⟩, hqualified⟩
  rcases List.mem_append.mp hpart with hpart | hpart
  · exact h.nonempty part hpart
  · exact List.mem_singleton.mp hpart ▸ hne

theorem exists_name (h : c.isNamed = true) : ∃ name, c.name = some name ∧ name ≠ "" := by
  rw [Chunk.isNamed] at h
  cases hname : c.name with
  | none => simp [hname] at h
  | some name => exact ⟨name, rfl, by simpa [hname] using h⟩

/-- Along a chain of symbols the names come one behind the other. -/
theorem Dotted.chain (h : f.root.Spanned l) {cs : List Chunk} (hcs : cs ⊆ f.chunks l)
    (hnamed : ∀ c ∈ cs, c.kind.isSymbol = true ∧ c.isNamed = true) :
    ∀ {d : Chunk} {parts : List String},
    d ∈ f.chunks l → Dotted d parts → (d :: cs).IsChain (fun p c => c.parent = some p.id) →
    ∀ c ∈ cs.getLast?, c.qualifiedName =
      some (".".intercalate (parts ++ cs.filterMap Chunk.name)) := by
  -- along the chain, with the chunk that it starts at and the parts of its name left open
  induction cs with
  | nil => exact fun _ _ _ c hc => absurd hc nofun
  | cons c rest ih =>
    intro d parts hd hdotted hchain
    obtain ⟨hc, hrest⟩ := List.cons_subset.mp hcs
    obtain ⟨⟨hsymbol, hcn⟩, hnamed⟩ := List.forall_mem_cons.mp hnamed
    obtain ⟨hparent, hchain⟩ := List.isChain_cons_cons.mp hchain
    obtain ⟨name, hname, hne⟩ := exists_name hcn
    obtain ⟨hdotted, hqualified⟩ :=
      hdotted.concat (namedIn_of_parent h hd hc hparent).2 hsymbol hname hne
    rw [List.filterMap_cons_some hname]
    cases rest with
    | nil =>
      intro last hlast
      obtain rfl := Option.some.inj hlast
      exact hqualified
    | cons next rest =>
      rw [List.getLast?_cons_cons, List.append_cons]
      exact ih hrest hnamed hc hdotted hchain

end Chains

/-- The name of a chunk at the end of a chain of named symbols below the file is qualified by the
package, if there is one, and by the names on the way. So a symbol whose name is qualified, in a
chunk whose name is, has it behind that. -/
theorem chunks_qualified (f : File) (l : Language) (h : f.root.Spanned l) :
    ∃ file rest, f.chunks l = file :: rest ∧ file.kind = .file ∧
    (∀ cs ⊆ f.chunks l, (∀ c ∈ cs, c.kind.isSymbol = true ∧ c.isNamed = true) →
      (file :: cs).IsChain (fun p c => c.parent = some p.id) → ∀ c ∈ cs.getLast?, c.qualifiedName =
        some (".".intercalate ((file.declaration.package.filter (· ≠ "")).toList ++
        cs.filterMap Chunk.name))) ∧
    ∀ c ∈ f.chunks l, ∀ p ∈ f.chunks l, c.kind.isSymbol = true → c.parent = some p.id →
      ∀ name ∈ c.qualifiedName, ∀ above ∈ p.qualifiedName, above ≠ "" →
        ∃ own, c.name = some own ∧ name = above ++ "." ++ own := by
  obtain ⟨file, rest, hchunks, hkind, -, hpackage⟩ := chunks_eq f l
  have hfile : file ∈ f.chunks l := hchunks ▸ List.mem_cons_self
  refine ⟨file, rest, hchunks, hkind, fun cs hcs hnamed hchain => ?_,
    fun c hc p hp hsymbol hparent => ?_⟩
  · exact Dotted.chain h hcs hnamed hfile (dotted_of_package hpackage) hchain
  · intro name hname above habove hne
    rw [(namedIn_of_parent h hp hc hparent).2.qualified hsymbol] at hname
    obtain ⟨own, hown, rfl⟩ := Option.map_eq_some_iff.mp hname
    have hp : p.qualifiedName = some above := habove
    exact ⟨own, hown, by rw [Name.qualify_eq, hp, Option.getD_some, if_neg hne]⟩

def packagedInterface : File where
  path := "shapes/area.go"
  bytes := "package p\ntype A interface \x7b M() \x7d\n".toList.map fun c => c.toNat.toUInt8
  root := .node { kind := "source_file", first := 0, last := 35 }
    [.node { kind := "package_clause", first := 0, last := 9 }
      [.node { kind := "package_identifier", first := 8, last := 9 } []],
    .node { kind := "type_declaration", first := 10, last := 34 }
      [.node { kind := "type_spec", first := 15, last := 34 }
        [.node { kind := "type_identifier", first := 15, last := 16, field := some "name" } [],
        .node { kind := "interface_type", first := 17, last := 34, field := some "type" }
          [.node { kind := "method_elem", first := 29, last := 32 }
            [.node { kind := "field_identifier", first := 29, last := 30, field := some "name" }
            []]]]]]

theorem topItems_packagedInterface :
    packagedInterface.topItems .go (Parts.ofRoot .go packagedInterface.root) =
    (Parts.ofRoot .go packagedInterface.root).contexts.map
      (fun t => TopItem.context (Context.ofNode .go packagedInterface.bytes t)) ++
    (Block.roots (Parts.ofRoot .go packagedInterface.root)).map TopItem.block := by
  apply List.mergeSort_of_pairwise
  decide +kernel

theorem chunks_packagedInterface :
    (packagedInterface.chunks .go).map
      (fun c => (c.kind, c.id, c.parent, c.name, c.declaration.package)) =
      [(.file, "shapes/area.go#file:0-35", none, some "area.go", some "p"),
        (.context, "shapes/area.go#context:0-9", some "shapes/area.go#file:0-35",
        some "p", some "p"),
        (.container, "shapes/area.go#container:10-34", some "shapes/area.go#file:0-35",
          some "A", none),
        (.context, "shapes/area.go#context:10-28", some "shapes/area.go#container:10-34",
          none, none),
        (.member, "shapes/area.go#member:29-32", some "shapes/area.go#container:10-34",
          some "M", none),
        (.context, "shapes/area.go#context:33-34", some "shapes/area.go#container:10-34", none,
            none)] := by
  rw [chunks, Chunk.link_map (fun _ _ _ => rfl), tree]
  simp only [topItems_packagedInterface]
  decide +kernel

/-- The method is named behind the package and the interface. -/
theorem chunks_qualified_packagedInterface :
    packagedInterface.root.Spanned .go ∧ ∃ c ∈ packagedInterface.chunks .go,
      c.kind = .member ∧ c.name = some "M" ∧ c.qualifiedName = some "p.A.M" := by
  have hw : packagedInterface.root.WellFormed .go packagedInterface.bytes.length := by decide
  obtain ⟨file, rest, hchunks, -, hqualified, -⟩ :=
    chunks_qualified packagedInterface .go hw.spanned
  have hfields := chunks_packagedInterface
  rw [hchunks, List.map_cons, List.cons.injEq] at hfields
  obtain ⟨hfile, hrest⟩ := hfields
  have hplaced : ∀ x ∈ rest.map fun c => (c.kind, c.id, c.parent, c.name, c.declaration.package),
      ∃ c ∈ rest, (c.kind, c.id, c.parent, c.name, c.declaration.package) = x :=
        fun _ => List.mem_map.mp
  rw [hrest] at hplaced
  obtain ⟨a, ha, hafields⟩ := hplaced _ (List.mem_of_getElem? (i := 1) rfl)
  obtain ⟨m, hm, hmfields⟩ := hplaced _ (List.mem_of_getElem? (i := 3) rfl)
  simp only [Prod.mk.injEq] at hfile hafields hmfields
  obtain ⟨-, hfileId, -, -, hpackage⟩ := hfile
  obtain ⟨hak, haid, haparent, han, -⟩ := hafields
  obtain ⟨hmk, -, hmparent, hmn, -⟩ := hmfields
  have hm' : m ∈ packagedInterface.chunks .go := hchunks ▸ List.mem_cons_of_mem _ hm
  have ha' : a ∈ packagedInterface.chunks .go := hchunks ▸ List.mem_cons_of_mem _ ha
  refine ⟨hw.spanned, m, hm', hmk, hmn, ?_⟩
  have hname :=
    hqualified [a, m] (List.cons_subset.mpr ⟨ha', List.cons_subset.mpr ⟨hm', List.nil_subset _⟩⟩)
      (by simp [hak, hmk, han, hmn, Chunk.isNamed, ChunkKind.isSymbol])
      (by simp [hfileId, haparent, haid, hmparent]) m rfl
  rw [hpackage, List.filterMap_cons_some han, List.filterMap_cons_some hmn] at hname
  exact hname

end Source.File

end CodeAtlas
