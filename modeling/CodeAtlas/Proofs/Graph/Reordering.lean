import CodeAtlas.Graph.Profile
import CodeAtlas.Proofs.Graph.Heritage

/-!
Graphs of chunks in another order. Names are looked up in the order of the chunks, so that the order
counts where several symbols answer to one name, and nowhere else.
-/

namespace CodeAtlas

namespace Chunk

/-- Whether a chunk is a symbol that answers to a name, by its own or its full name. -/
def Answers (name : String) (c : Chunk) : Prop :=
  c.kind.isSymbol = true ∧ (c.name = some name ∨ c.qualifiedName = some name)

def answers (c : Chunk) : List String :=
  if c.kind.isSymbol then c.name.toList ++ c.qualifiedName.toList else []

theorem mem_answers {name : String} {c : Chunk} : name ∈ c.answers ↔ c.Answers name := by
  unfold answers Answers
  cases c.kind.isSymbol with
  | true => simp
  | false => simp

/-- Whether two symbols answer to one name. -/
def Namesakes (a b : Chunk) : Prop := ∃ name, Answers name a ∧ Answers name b

/-- Whether two files have children among some chunks that answer to one name. -/
def FilesOfNamesakes (chunks : List Chunk) (f g : Chunk) : Prop :=
  f.kind = .file ∧ g.kind = .file ∧ ∃ a ∈ chunks, ∃ b ∈ chunks, a.parent = some f.id ∧
    b.parent = some g.id ∧ Namesakes a b

end Chunk

namespace Resolution

variable {chunks : List Chunk} {c : Chunk} {id : String}

theorem byId?_eq_some_iff (hn : (chunks.map Chunk.id).Nodup) :
    byId? chunks id = some c ↔ c ∈ chunks ∧ c.id = id := by
  constructor
  · exact mem_of_byId?
  · rintro ⟨hc, rfl⟩
    exact byId?_eq_some hn hc

theorem answers_of_isTypeNamed {name : String} (h : isTypeNamed name c = true) :
    c.Answers name := by
  simp only [isTypeNamed, Bool.and_eq_true, Bool.or_eq_true, beq_iff_eq] at h
  refine ⟨?_, h.2⟩
  rw [h.1.1]
  rfl

end Resolution

namespace Inference

open Resolution
open Chunk (Namesakes FilesOfNamesakes)

section Ancestry

variable {chunks : List Chunk} {a c p : Chunk}

/-- The chunks above one, so many at most. -/
def ancestry (chunks : List Chunk) : (steps : Nat) → Chunk → List Chunk
  | 0, _ => []
  | steps + 1, c =>
    match c.parent.bind (byId? chunks) with
    | some p => p :: ancestry chunks steps p
    | none => []

theorem ancestry_subset (steps : Nat) (c : Chunk) : ancestry chunks steps c ⊆ chunks := by
  induction steps generalizing c with
  | zero => exact List.nil_subset chunks
  | succ steps ih =>
    unfold ancestry
    split
    · rename_i p hp
      obtain ⟨id, -, hid⟩ := Option.bind_eq_some_iff.mp hp
      exact List.cons_subset.mpr ⟨(mem_of_byId? hid).1, ih p⟩
    · exact List.nil_subset chunks

theorem findIdx?_id (hc : c ∈ chunks) :
    chunks.findIdx? (fun d => d.id == c.id) = some (position chunks c) := by
  have hidx : chunks.findIdx (fun d => d.id == c.id) = position chunks c := by
    rw [position, List.idxOf, List.findIdx_map]
    rfl
  rw [List.findIdx?_eq_some_iff_findIdx_eq, hidx]
  refine ⟨?_, rfl⟩
  rw [← hidx, List.findIdx_lt_length]
  exact ⟨c, hc, by simp⟩

theorem position_inj (hn : (chunks.map Chunk.id).Nodup) (ha : a ∈ chunks) (hc : c ∈ chunks)
    (h : position chunks a = position chunks c) : a = c := by
  apply Chunk.eq_of_id_eq hn ha hc
  exact (List.idxOf_inj (List.mem_map_of_mem ha)).mp h

theorem getElem?_position (hn : (chunks.map Chunk.id).Nodup) (hc : c ∈ chunks) :
    chunks[position chunks c]? = some c := by
  obtain ⟨hlt, he, -⟩ := List.findIdx?_eq_some_iff_getElem.mp (findIdx?_id hc)
  rw [List.getElem?_eq_getElem hlt]
  congr
  exact Chunk.eq_of_id_eq hn (List.getElem_mem hlt) hc (by simpa using he)

theorem bind_findIdx? (chunks : List Chunk) (c : Chunk) :
    (c.parent.bind fun id => chunks.findIdx? fun d => d.id == id) =
      (c.parent.bind (byId? chunks)).map (position chunks) := by
  cases c.parent with
  | none => rfl
  | some id =>
    show (chunks.findIdx? fun d => d.id == id) = (byId? chunks id).map (position chunks)
    cases hid : byId? chunks id with
    | none =>
      rw [Option.map_none, List.findIdx?_eq_none_iff]
      intro d hd
      simpa using List.find?_eq_none.mp hid d hd
    | some p =>
      obtain ⟨hp, rfl⟩ := mem_of_byId? hid
      exact findIdx?_id hp

theorem chain_eq_ancestry (hn : (chunks.map Chunk.id).Nodup) (steps : Nat) (hc : c ∈ chunks) :
    Lineage.chain (parents chunks) steps (position chunks c) =
      (ancestry chunks steps c).map (position chunks) := by
  induction steps generalizing c with
  | zero => rfl
  | succ steps ih =>
    have hparent : (parents chunks)[position chunks c]? =
        some ((c.parent.bind (byId? chunks)).map (position chunks)) := by
      rw [parents, List.getElem?_map, getElem?_position hn hc, Option.map_some, bind_findIdx?]
    rw [Lineage.chain, hparent, ancestry]
    cases hp : c.parent.bind (byId? chunks) with
    | none => rfl
    | some p =>
      obtain ⟨id, -, hid⟩ := Option.bind_eq_some_iff.mp hp
      exact congrArg (position chunks p :: ·) (ih (mem_of_byId? hid).1)

theorem isAbove_iff (hn : (chunks.map Chunk.id).Nodup) (ha : a ∈ chunks) (hc : c ∈ chunks) :
    isAbove chunks (parents chunks) a c = true ↔ a ∈ ancestry chunks chunks.length c := by
  have hlen : (parents chunks).length = chunks.length := List.length_map _
  rw [isAbove, findIdx?_id ha, findIdx?_id hc]
  dsimp only
  rw [Lineage.isAncestor, Lineage.ancestors, hlen, chain_eq_ancestry hn _ hc, List.contains_iff_mem,
    List.mem_map]
  constructor
  · rintro ⟨p, hp, he⟩
    exact position_inj hn (ancestry_subset _ c hp) ha he ▸ hp
  · exact fun h => ⟨a, h, rfl⟩

end Ancestry

/-- Whether chunks with distinct ids come in another order in which symbols that answer to one name
stand as they stood, and so do the files they are children of. -/
structure Reordered (cs ds : List Chunk) : Prop where
  perm : cs.Perm ds
  distinct : (cs.map Chunk.id).Nodup
  symbols : ∀ a b, Namesakes a b → [a, b].Sublist cs → [a, b].Sublist ds
  files : ∀ f g, FilesOfNamesakes cs f g → [f, g].Sublist cs → [f, g].Sublist ds

section Reordered

variable {cs ds : List Chunk} {a b c : Chunk} {d : Dependency} {p : Chunk → Bool}

theorem Reordered.distinct_after (h : Reordered cs ds) : (ds.map Chunk.id).Nodup :=
  (h.perm.map Chunk.id).nodup_iff.mp h.distinct

theorem Reordered.filter_eq (h : Reordered cs ds)
    (hp : ∀ a ∈ cs, ∀ b ∈ cs, p a = true → p b = true → [a, b].Sublist cs → [a, b].Sublist ds) :
    cs.filter p = ds.filter p := by
  have hcs : (cs.filter p).Pairwise fun a b => [a, b].Sublist ds := by
    rw [List.pairwise_iff_forall_sublist]
    intro a b hab
    obtain ⟨ha, hpa⟩ := List.mem_filter.mp (hab.subset (by simp : a ∈ [a, b]))
    obtain ⟨hb, hpb⟩ := List.mem_filter.mp (hab.subset (by simp : b ∈ [a, b]))
    exact hp a ha b hb hpa hpb (hab.trans List.filter_sublist)
  have hds : (ds.filter p).Pairwise fun a b => [a, b].Sublist ds := by
    rw [List.pairwise_iff_forall_sublist]
    exact fun hab => hab.trans List.filter_sublist
  apply (h.perm.filter p).eq_of_pairwise _ hcs hds
  intro a b _ _ hab hba
  exact absurd hba (not_sublist_swap h.distinct_after hab)

theorem Reordered.find?_eq (h : Reordered cs ds) (name : String)
    (hp : ∀ c, p c = true → c.Answers name) : cs.find? p = ds.find? p := by
  rw [← List.head?_filter, ← List.head?_filter, h.filter_eq]
  intro a _ b _ ha hb hab
  exact h.symbols a b ⟨name, hp a ha, hp b hb⟩ hab

theorem Reordered.byId?_eq (h : Reordered cs ds) : byId? cs = byId? ds := by
  funext id
  apply Option.ext
  intro c
  rw [byId?_eq_some_iff h.distinct, byId?_eq_some_iff h.distinct_after, h.perm.mem_iff]

theorem Reordered.typeNamed?_eq (h : Reordered cs ds) (name : String) :
    typeNamed? cs name = typeNamed? ds name :=
  h.find?_eq name fun _ hc => answers_of_isTypeNamed hc

theorem Reordered.resolveType?_eq (h : Reordered cs ds) (name : String) :
    resolveType? cs name = resolveType? ds name := by
  rw [resolveType?, resolveType?, h.typeNamed?_eq, h.typeNamed?_eq]

theorem Reordered.qualifiedElsewhere?_eq (h : Reordered cs ds) (name path : String) :
    qualifiedElsewhere? cs name path = qualifiedElsewhere? ds name path := by
  apply h.find?_eq name
  intro c hc
  simp only [Bool.and_eq_true, beq_iff_eq] at hc
  exact ⟨hc.1.1, Or.inr hc.1.2⟩

theorem Reordered.namedElsewhere?_eq (h : Reordered cs ds) (name path : String) :
    namedElsewhere? cs name path = namedElsewhere? ds name path := by
  apply h.find?_eq name
  intro c hc
  simp only [Bool.and_eq_true, beq_iff_eq] at hc
  exact ⟨hc.1.1.1, Or.inl hc.1.2⟩

theorem Reordered.findSome?_eq (h : Reordered cs ds) {α : Type} {f : Chunk → Option α}
    (hf : ∀ a ∈ cs, ∀ b ∈ cs, (f a).isSome → (f b).isSome → [a, b].Sublist cs → [a, b].Sublist ds) :
    cs.findSome? f = ds.findSome? f := by
  have hfilter : ∀ chunks : List Chunk, chunks.findSome? f =
      ((chunks.filter fun c => (f c).isSome).filterMap f).head? := by
    intro chunks
    rw [List.filterMap_filter, ← List.head?_filterMap]
    apply congrArg List.head?
    apply List.filterMap_congr
    intro c _
    cases f c with
    | none => rfl
    | some x => rfl
  rw [hfilter, hfilter, h.filter_eq hf]

def memberOf? (chunks : List Chunk) (name : String) (file : Chunk) : Option Chunk :=
  (topLevel chunks file).find? fun c => c.name == some name

theorem Reordered.memberOf?_eq (h : Reordered cs ds) (name : String) :
    memberOf? cs name = memberOf? ds name := by
  funext file
  unfold memberOf? topLevel
  rw [List.find?_filter, List.find?_filter]
  apply h.find?_eq name
  intro c hc
  simp only [decide_eq_true_eq, Bool.and_eq_true, beq_iff_eq] at hc
  exact ⟨hc.1.1, Or.inl hc.2⟩

theorem of_memberOf? {name : String} {file : Chunk} (h : memberOf? cs name file = some a) :
    a ∈ cs ∧ a.parent = some file.id ∧ a.Answers name := by
  obtain ⟨ha, hk⟩ := List.mem_filter.mp (List.mem_of_find?_eq_some h)
  have hn : a.name = some name := by simpa using List.find?_some h
  simp only [Bool.and_eq_true, beq_iff_eq] at hk
  exact ⟨ha, hk.2, hk.1, Or.inl hn⟩

/-- What an import means that names a file and a symbol at its top, if the file is a chunk. -/
def memberIn? (chunks : List Chunk) (written path name : String) (c : Chunk) :
    Option (Chunk × Match) :=
  (if c.kind == .file && c.path != path then (c.module?.bind (matchModule? written)).map
    fun m => (c, m) else none).bind fun f => (memberOf? chunks name f.1).map fun d => (d, f.2)

theorem exists_memberOf? {written path name : String}
    (h : (memberIn? cs written path name c).isSome) :
    c.kind = .file ∧ ∃ a, memberOf? cs name c = some a := by
  obtain ⟨r, hr⟩ := Option.isSome_iff_exists.mp h
  obtain ⟨f, hf, hr⟩ := Option.bind_eq_some_iff.mp hr
  obtain ⟨a, ha, -⟩ := Option.map_eq_some_iff.mp hr
  split at hf
  · rename_i hc
    rw [Bool.and_eq_true, beq_iff_eq] at hc
    obtain ⟨m, -, rfl⟩ := Option.map_eq_some_iff.mp hf
    exact ⟨hc.1, a, ha⟩
  · exact absurd hf nofun

theorem findSome?_moduleFiles (chunks : List Chunk) (written path name : String) :
    (moduleFiles chunks written path).findSome? (fun f => (memberOf? chunks name f.1).map
      fun d => (d, f.2)) = chunks.findSome? (memberIn? chunks written path name) := by
  rw [← List.head?_filterMap, ← List.head?_filterMap, moduleFiles, List.filterMap_filterMap]
  rfl

theorem Reordered.moduleMember?_eq (h : Reordered cs ds) (written path : String) :
    moduleMember? cs written path = moduleMember? ds written path := by
  unfold moduleMember?
  cases cutName? written with
  | none => rfl
  | some cut =>
    obtain ⟨head, name⟩ := cut
    have hmember : memberIn? ds head path name = memberIn? cs head path name := by
      unfold memberIn?
      rw [h.memberOf?_eq]
    refine (findSome?_moduleFiles cs head path name).trans
      (Eq.trans ?_ (findSome?_moduleFiles ds head path name).symm)
    rw [hmember]
    apply h.findSome?_eq
    intro f _ g _ hf hg hfg
    obtain ⟨hfk, a, ha⟩ := exists_memberOf? hf
    obtain ⟨hgk, b, hb⟩ := exists_memberOf? hg
    obtain ⟨ham, hap, haname⟩ := of_memberOf? ha
    obtain ⟨hbm, hbp, hbname⟩ := of_memberOf? hb
    exact h.files f g ⟨hfk, hgk, a, ham, b, hbm, hap, hbp, name, haname, hbname⟩ hfg

section Passes

theorem Reordered.containment_eq (h : Reordered cs ds) (c : Chunk) :
    containment cs c = containment ds c := by
  rw [containment, containment, h.byId?_eq]

theorem Reordered.heritage_eq (h : Reordered cs ds) (c : Chunk) :
    heritage cs c = heritage ds c := by
  have hof : heritageOf cs c = heritageOf ds c := by
    funext relationship strength verb written
    rw [heritageOf, heritageOf, h.resolveType?_eq]
  rw [heritage, heritage, hof]

theorem Reordered.mem_calls (h : Reordered cs ds) : d ∈ calls cs c ↔ d ∈ calls ds c := by
  rw [calls_eq h.distinct, calls_eq h.distinct_after]
  split
  · simp only [List.mem_map, mem_scanned, h.perm.mem_iff]
  · rfl

theorem Reordered.ancestry_eq (h : Reordered cs ds) : ancestry cs = ancestry ds := by
  funext steps
  induction steps with
  | zero => rfl
  | succ steps ih =>
    funext c
    rw [ancestry, ancestry, ih, h.byId?_eq]

theorem Reordered.isAbove_eq (h : Reordered cs ds) (ha : a ∈ cs) (hc : c ∈ cs) :
    isAbove cs (parents cs) a c = isAbove ds (parents ds) a c := by
  rw [Bool.eq_iff_iff, isAbove_iff h.distinct ha hc,
    isAbove_iff h.distinct_after (h.perm.mem_iff.mp ha) (h.perm.mem_iff.mp hc), h.ancestry_eq,
    h.perm.length_eq]

theorem Reordered.uses_eq (h : Reordered cs ds) (hc : c ∈ cs) :
    uses cs (parents cs) c = uses ds (parents ds) c := by
  unfold uses
  split
  · apply List.filterMap_congr
    intro word _
    rw [← h.typeNamed?_eq]
    cases ht : typeNamed? cs word with
    | none => rfl
    | some t =>
      show (if isAbove cs (parents cs) t c then _ else _) = if isAbove ds (parents ds) t c then _
        else _
      rw [h.isAbove_eq (List.mem_of_find?_eq_some ht) hc]
  · split
    · apply List.filterMap_congr
      intro written _
      rw [h.resolveType?_eq]
    · rfl

theorem Reordered.moduleFiles_perm (h : Reordered cs ds) (written path : String) :
    (moduleFiles cs written path).Perm (moduleFiles ds written path) :=
  h.perm.filterMap _

theorem Reordered.wildcardTargets_perm (h : Reordered cs ds) (before path : String) :
    (wildcardTargets cs before path).Perm (wildcardTargets ds before path) := by
  apply (h.perm.filter _).append
  apply (h.moduleFiles_perm before path).flatMap
  intro f _
  exact (h.perm.filter _).cons f.1

theorem Reordered.importedSymbol?_eq (h : Reordered cs ds) (written path : String) :
    importedSymbol? cs written path = importedSymbol? ds written path := by
  unfold importedSymbol?
  dsimp only
  rw [h.qualifiedElsewhere?_eq, h.moduleMember?_eq, h.namedElsewhere?_eq]

theorem Reordered.importsOf_perm (h : Reordered cs ds) (c : Chunk) (written : String) :
    (importsOf cs c written).Perm (importsOf ds c written) := by
  unfold importsOf
  cases wildcard? written with
  | some before => exact (h.wildcardTargets_perm before c.path).map _
  | none =>
    have hfiles := h.moduleFiles_perm written c.path
    dsimp only
    cases hcs : moduleFiles cs written c.path with
    | nil =>
      rw [hcs] at hfiles
      rw [hfiles.nil_eq.symm, h.importedSymbol?_eq]
    | cons f rest =>
      cases hds : moduleFiles ds written c.path with
      | nil =>
        rw [hcs, hds] at hfiles
        exact absurd hfiles.eq_nil nofun
      | cons g others =>
        rw [hcs, hds] at hfiles
        exact hfiles.map _

theorem Reordered.mem_imports (h : Reordered cs ds) : d ∈ imports cs c ↔ d ∈ imports ds c := by
  unfold imports
  split
  · simp only [List.mem_flatMap, (h.importsOf_perm c _).mem_iff]
  · rfl

theorem Reordered.mem_found (h : Reordered cs ds) : d ∈ found cs ↔ d ∈ found ds := by
  have hperm : ∀ {run other : Chunk → List Dependency}, (∀ c ∈ cs, d ∈ run c ↔ d ∈ other c) →
      (d ∈ cs.flatMap run ↔ d ∈ ds.flatMap other) := by
    intro run other hrun
    rw [List.mem_flatMap, List.mem_flatMap]
    constructor
    · rintro ⟨c, hc, hd⟩
      exact ⟨c, h.perm.mem_iff.mp hc, (hrun c hc).mp hd⟩
    · rintro ⟨c, hc, hd⟩
      have hc := h.perm.mem_iff.mpr hc
      exact ⟨c, hc, (hrun c hc).mpr hd⟩
  simp only [found, List.mem_append]
  apply or_congr
  · apply or_congr
    · apply or_congr
      · apply or_congr
        · exact hperm fun c _ => by rw [h.containment_eq]
        · exact hperm fun c _ => by rw [h.heritage_eq]
      · exact hperm fun c _ => h.mem_calls
    · exact hperm fun c hc => by rw [h.uses_eq hc]
  · exact hperm fun c _ => h.mem_imports

end Passes

/-- The same chunks in another order have a graph with the same dependencies. -/
theorem Reordered.edges_perm (h : Reordered cs ds) :
    ((Graph.ofChunks cs).edges.map Dependency.key).Perm
      ((Graph.ofChunks ds).edges.map Dependency.key) := by
  apply (List.perm_ext_iff_of_nodup (ofChunks_keys_nodup cs) (ofChunks_keys_nodup ds)).mpr
  intro key
  rw [mem_edges_keys h.distinct, mem_edges_keys h.distinct_after]
  simp only [h.mem_found, (h.perm.map Chunk.id).mem_iff]

end Reordered

end Inference

section Profile

variable {g g' : Graph} {ds es : List Dependency} {id : String}

theorem any_relationship (ds : List Dependency) (r : Relationship) :
    (ds.any fun d => d.relationship == r) = (ds.map Dependency.key).any fun k => k.2.2 == r := by
  rw [List.any_map]
  rfl

/-- The place of a chunk depends on the keys of its dependencies only. -/
theorem Profile.ofEdges_congr {outgoing outgoing' incoming incoming' : List Dependency}
    (ho : (outgoing.map Dependency.key).Perm (outgoing'.map Dependency.key))
    (hi : (incoming.map Dependency.key).Perm (incoming'.map Dependency.key)) :
    Profile.ofEdges outgoing incoming = Profile.ofEdges outgoing' incoming' := by
  have holen : outgoing.length = outgoing'.length := by simpa using ho.length_eq
  have hilen : incoming.length = incoming'.length := by simpa using hi.length_eq
  have hany : ∀ r : Relationship, ((outgoing ++ incoming).any fun d => d.relationship == r) =
      (outgoing' ++ incoming').any fun d => d.relationship == r := by
    intro r
    rw [any_relationship, any_relationship, List.map_append, List.map_append]
    exact (ho.append hi).any_eq
  simp only [Profile.ofEdges, holen, hilen, hany]

theorem Graph.outgoing_keys (g : Graph) (id : String) :
    (g.outgoing id).map Dependency.key = (g.edges.map Dependency.key).filter fun k =>
      k.1 == id := by
  rw [List.filter_map]
  rfl

theorem Graph.incoming_keys (g : Graph) (id : String) :
    (g.incoming id).map Dependency.key = (g.edges.map Dependency.key).filter fun k =>
      k.2.1 == id := by
  rw [List.filter_map]
  rfl

theorem Graph.contains_eq (g : Graph) (id : String) :
    g.contains id = (g.nodes.map Node.id).contains id := by
  rw [Graph.contains, List.contains_eq_any_beq, List.any_map]
  apply congrArg fun p => g.nodes.any p
  funext n
  exact BEq.comm

theorem Profile.ofGraph?_congr (hn : (g.nodes.map Node.id).Perm (g'.nodes.map Node.id))
    (he : (g.edges.map Dependency.key).Perm (g'.edges.map Dependency.key)) (id : String) :
    Profile.ofGraph? g id = Profile.ofGraph? g' id := by
  have hcontains : g.contains id = g'.contains id := by
    rw [g.contains_eq, g'.contains_eq, hn.contains_eq]
  have hout : ((g.outgoing id).map Dependency.key).Perm ((g'.outgoing id).map Dependency.key) := by
    rw [g.outgoing_keys, g'.outgoing_keys]
    exact he.filter _
  have hin : ((g.incoming id).map Dependency.key).Perm ((g'.incoming id).map Dependency.key) := by
    rw [g.incoming_keys, g'.incoming_keys]
    exact he.filter _
  rw [Profile.ofGraph?, Profile.ofGraph?, hcontains, Profile.ofEdges_congr hout hin]

end Profile

/-- The same chunks in another order have the same places in the graph. -/
theorem Inference.Reordered.profile_eq {cs ds : List Chunk} (h : Inference.Reordered cs ds)
    (id : String) :
    Profile.ofGraph? (Graph.ofChunks cs) id = Profile.ofGraph? (Graph.ofChunks ds) id := by
  apply Profile.ofGraph?_congr _ h.edges_perm
  rw [Graph.ofChunks_nodes, Graph.ofChunks_nodes, Chunk.distinct_eq_self h.distinct,
    Chunk.distinct_eq_self h.distinct_after]
  exact (h.perm.map Chunk.toNode).map Node.id

end CodeAtlas
