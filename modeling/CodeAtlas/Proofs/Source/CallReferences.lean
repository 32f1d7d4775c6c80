import CodeAtlas.Proofs.Chunk.Reference
import CodeAtlas.Proofs.Graph.Calls
import CodeAtlas.Proofs.Source.ChunkTree
import CodeAtlas.Proofs.Source.Origin
import CodeAtlas.Proofs.Text.Word

/-!
Calls and references inside a file. Both are read off the words of a chunk, the calls for a graph
and the references when the file is cut. A call of a named member comes with a reference; a member
without a name may call, but it has no references.
-/

namespace CodeAtlas

namespace Chunk.FileTree

variable {file : Chunk} {rest : List Chunk}

/-- In a tree parents stand before their children, so that no chunk is above itself. -/
theorem acyclic (h : FileTree file rest) : Resolution.Acyclic (file :: rest) := by
  apply Inference.acyclic_of_rank fun id => ((file :: rest).map Chunk.id).idxOf id
  intro c hc p hp
  rw [Chunk.distinct_eq_self h.distinct] at hc
  rcases List.mem_cons.mp hc with rfl | hc
  · rw [h.root] at hp
    cases hp
  · obtain ⟨q, hq, hbefore⟩ := h.below.exists_parent_before hc
    obtain rfl := Option.some.inj (hq.symm.trans hp)
    have hpos : ((file :: rest).map Chunk.id).Pairwise fun i j =>
        ((file :: rest).map Chunk.id).idxOf i < ((file :: rest).map Chunk.id).idxOf j :=
      List.pairwise_map.mpr (Inference.pairwise_position h.distinct)
    exact List.pairwise_iff_forall_sublist.mp hpos hbefore

/-- A chunk without children is above no other. -/
theorem not_above (h : FileTree file rest) {c : Chunk} (hc : c ∈ file :: rest)
    (hleaf : c.children = []) (id : String) :
    ¬ Relation.TransGen (Resolution.IsParent (file :: rest)) c.id id := by
  have hone : ∀ id, ¬ Resolution.IsParent (file :: rest) c.id id := by
    rintro id ⟨-, d, hfind, hparent⟩
    obtain ⟨hd, rfl⟩ := Resolution.mem_of_byId? hfind
    rcases List.mem_cons.mp hd with rfl | hd
    · rw [h.root] at hparent
      cases hparent
    · obtain ⟨p, hp, hdp, hmem⟩ := h.parent hd
      obtain rfl := Chunk.eq_of_id_eq h.distinct hp hc (Option.some.inj (hdp.symm.trans hparent))
      rw [hleaf] at hmem
      exact absurd hmem List.not_mem_nil
  intro habove
  cases habove using Relation.TransGen.head_induction_on with
  | single hp => exact hone _ hp
  | head hp _ => exact hone _ hp

end Chunk.FileTree

namespace Source.File

open Inference Reference

variable {f : File} {l : Language} {chunks : List Chunk} {a b c : Chunk}

/-- Members have no children, and nothing has references before they are linked. -/
theorem Made.unlinked (h : f.Made l c) :
    (c.references = [] ∧ c.referencedBy = []) ∧ (c.kind.isMemberLike = true → c.children = []) := by
  cases h with
  | file => exact ⟨⟨rfl, rfl⟩, nofun⟩
  | context => exact ⟨⟨rfl, rfl⟩, fun _ => rfl⟩
  | member => exact ⟨⟨rfl, rfl⟩, fun _ => rfl⟩
  | container => exact ⟨⟨rfl, rfl⟩, nofun⟩
  | segment => exact ⟨⟨rfl, rfl⟩, fun _ => rfl⟩

theorem tree_acyclic (h : f.root.WellFormed l f.bytes.length) : Resolution.Acyclic (f.tree l) := by
  obtain ⟨file, rest, htree, ht⟩ := tree_shape f l h
  rw [htree]
  exact ht.acyclic

theorem tree_ids_nodup (h : f.root.WellFormed l f.bytes.length) :
    ((f.tree l).map Chunk.id).Nodup := by
  obtain ⟨file, rest, htree, ht⟩ := tree_shape f l h
  rw [htree]
  exact ht.distinct

theorem tree_linked (h : f.root.WellFormed l f.bytes.length) : Linked (f.tree l) (f.chunks l) :=
  linked_link (tree_ids_nodup h) (tree_acyclic h) fun _ hc => (tree_made hc).unlinked.1

/-- A member is above nothing. -/
theorem not_above_of_member (h : f.root.WellFormed l f.bytes.length) (hc : c ∈ f.chunks l)
    (hk : c.kind.isMemberLike = true) (id : String) :
    ¬ Relation.TransGen (Resolution.IsParent (f.tree l)) c.id id := by
  have hmap : (c.id, c.kind) ∈ (f.tree l).map fun d => (d.id, d.kind) := by
    rw [← Chunk.link_map (g := fun d => (d.id, d.kind)) (fun _ _ _ => rfl)]
    exact List.mem_map_of_mem hc
  obtain ⟨d, hd, he⟩ := List.mem_map.mp hmap
  obtain ⟨hid, hkind⟩ := Prod.mk.inj he
  have hleaf := (tree_made hd).unlinked.2 (hkind ▸ hk)
  obtain ⟨file, rest, htree, ht⟩ := tree_shape f l h
  rw [htree] at hd ⊢
  rw [← hid]
  exact ht.not_above hd hleaf id

theorem isNamedSymbol_of_isMemberLike (hk : c.kind.isMemberLike = true) :
    isNamedSymbol c = c.isNamed := by
  rw [isNamedSymbol, ChunkKind.isSymbol_of_isMemberLike hk, Bool.true_and]

/-- A member refers to a member that it calls, if it has a name. -/
theorem refers_of_isCalled (h : f.root.WellFormed l f.bytes.length) (ha : a ∈ f.chunks l)
    (hb : b ∈ f.chunks l) (hk : a.kind.isMemberLike = true) (hab : isCalled a b = true) :
    Refers (f.tree l) a b ↔ a.isNamed = true := by
  constructor
  · intro hrefers
    rw [← isNamedSymbol_of_isMemberLike hk]
    exact hrefers.source
  · intro hnamed
    simp only [isCalled, Bool.and_eq_true, bne_iff_ne, Bool.not_eq_true'] at hab
    obtain ⟨⟨⟨hbk, hbnamed⟩, hne⟩, hsites⟩ := hab
    obtain ⟨s, hs, hmeans⟩ := sitesOf_isEmpty_eq_false.mp hsites
    rw [mayMean, Bool.and_eq_true, beq_iff_eq] at hmeans
    exact {
      different := hne.symm
      source := (isNamedSymbol_of_isMemberLike hk).trans hnamed
      target := (isNamedSymbol_of_isMemberLike hbk).trans hbnamed
      notAbove := not_above_of_member h ha hk _
      notBelow := not_above_of_member h hb hbk _
      mentioned := ⟨s.name, hmeans.1, Text.name_mem_identifiers hs⟩ }

/-- A call between two chunks of a file is matched by a reference exactly if the caller has a
name. -/
theorem calls_referred (h : f.root.WellFormed l f.bytes.length) (hn : (chunks.map Chunk.id).Nodup)
    (hsub : f.chunks l ⊆ chunks) (ha : a ∈ f.chunks l) (hb : b ∈ f.chunks l)
    (hcall : (a.id, b.id, .calls) ∈ (Graph.ofChunks chunks).edges.map Dependency.key) :
    (b.id ∈ a.references ↔ a.isNamed = true) ∧ (a.id ∈ b.referencedBy ↔ a.isNamed = true) := by
  obtain ⟨e, he, hkey⟩ := List.mem_map.mp hcall
  obtain ⟨a', ha', hk, b', hb', hab, rfl⟩ := exists_caller hn he (congrArg (fun k => k.2.2) hkey)
  obtain ⟨hsource, hrest⟩ := Prod.mk.inj hkey
  obtain rfl := Chunk.eq_of_id_eq hn ha' (hsub ha) hsource
  obtain rfl := Chunk.eq_of_id_eq hn hb' (hsub hb) (Prod.mk.inj hrest).1
  have hlinked := tree_linked h
  have hrefers := refers_of_isCalled h ha hb hk hab
  exact ⟨(hlinked.refers _ ha _ hb).trans hrefers, (hlinked.referred _ ha _ hb).trans hrefers⟩

section CallingMethod

/-- The name of a method: an identifier, or a text of which nothing is left behind the point and
before the bracket. -/
def methodName (quoted : Bool) : Tree :=
  if quoted then
    .node { kind := "string", first := 10, last := 17, field := some "name" }
      [.node { kind := "string_fragment", first := 11, last := 16 } []]
  else .node { kind := "property_identifier", first := 10, last := 17, field := some "name" } []

def methodNode (quoted : Bool) : Tree :=
  .node { kind := "method_definition", first := 10, last := 27, field := some "member" }
    [methodName quoted,
    .node { kind := "formal_parameters", first := 17, last := 19, field := some "parameters" } [],
    .node { kind := "statement_block", first := 20, last := 27, field := some "body" }
      [.node { kind := "expression_statement", first := 22, last := 25 }
        [.node { kind := "call_expression", first := 22, last := 25 }
          [.node { kind := "identifier", first := 22, last := 23, field := some "function" } [],
          .node { kind := "arguments", first := 23, last := 25, field := some "arguments" } []]]]]

def classNode (quoted : Bool) : Tree :=
  .node { kind := "class_declaration", first := 0, last := 29 }
    [.node { kind := "identifier", first := 6, last := 7, field := some "name" } [],
    .node { kind := "class_body", first := 8, last := 29, field := some "body" }
      [methodNode quoted]]

def functionNode : Tree :=
  .node { kind := "function_declaration", first := 30, last := 45 }
    [.node { kind := "identifier", first := 39, last := 40, field := some "name" } [],
    .node { kind := "formal_parameters", first := 40, last := 42, field := some "parameters" } [],
    .node { kind := "statement_block", first := 43, last := 45, field := some "body" } []]

def callingMethod (quoted : Bool) : File where
  path := "a.js"
  bytes := (if quoted then "class A \x7b 'x.<y>'() { g() } \x7d\nfunction g() {}\n"
    else "class A { call_it() { g() } }\nfunction g() {}\n").toList.map fun c => c.toNat.toUInt8
  root := .node { kind := "program", first := 0, last := 46 } [classNode quoted, functionNode]

theorem callingMethod_wellFormed (quoted : Bool) :
    (callingMethod quoted).root.WellFormed .javascript (callingMethod quoted).bytes.length := by
  cases quoted <;> decide

theorem parts_callingMethod (quoted : Bool) : Parts.ofRoot .javascript (callingMethod quoted).root =
    ⟨[], [classNode quoted], [methodNode quoted, functionNode]⟩ := by
  have hsorted : Parts.sorted [methodNode quoted, functionNode] =
      [methodNode quoted, functionNode] := by
    apply List.mergeSort_of_pairwise
    cases quoted <;> simp <;> decide
  have hcontexts : Parts.sorted [] = [] := List.mergeSort_nil
  have hprimaries : Parts.sorted [classNode quoted] = [classNode quoted] :=
    List.mergeSort_singleton _
  show Parts.mk (Parts.sorted []) (Parts.sorted [classNode quoted])
    (Parts.sorted [methodNode quoted, functionNode]) = _
  rw [hcontexts, hprimaries, hsorted]

theorem roots_callingMethod (quoted : Bool) :
    Block.roots (Parts.ofRoot .javascript (callingMethod quoted).root) =
    [.container 0 (classNode quoted) [.member (methodNode quoted)], .member functionNode] := by
  rw [parts_callingMethod]
  have hroots : (Parts.mk [] [classNode quoted] [methodNode quoted, functionNode]).itemsOf none =
      [.container 0, .member 1] := by
    have hperm : (Parts.mk [] [classNode quoted] [methodNode quoted, functionNode]).itemsOf none =
        _ :=
      List.mergeSort_of_pairwise (by cases quoted <;> decide +kernel)
    rw [hperm]
    cases quoted <;> decide +kernel
  have hitems : (Parts.mk [] [classNode quoted] [methodNode quoted, functionNode]).itemsOf
      (some 0) = [.member 0] := by
    cases quoted <;> decide +kernel
  rw [Block.roots, hroots, List.map_cons, List.map_singleton, Block.ofItem_container, hitems,
    List.map_singleton, Block.ofItem, Block.ofItem]
  rfl

def memberRow (c : Chunk) : String × ChunkKind × Option String × String :=
  (c.id, c.kind, c.name, c.content)

theorem memberRow_memberChunk (f : File) (l : Language) (kind : ChunkKind) (parent : String)
    (parentName : Option String) (t : Tree) : memberRow (f.memberChunk l kind parent parentName t) =
      (Chunk.idOf f.path kind t.first t.last, kind, declarationName? l f.bytes t, textOf f.bytes
      t.first t.last) := rfl

/-- What is in the chunks of a block, whatever they belong to, is in those of the file. -/
theorem exists_memberRow {row : String × ChunkKind × Option String × String} {b : Block}
    (hb : b ∈ Block.roots (Parts.ofRoot l f.root))
    (h : ∀ parent parentName,
      ∃ c ∈ f.blockChunks l (Parts.ofRoot l f.root) false parent parentName b,
      memberRow c = row) : ∃ c ∈ f.chunks l, memberRow c = row := by
  apply List.mem_map.mp
  rw [chunks, Chunk.link_map (g := memberRow) (fun _ _ _ => rfl)]
  apply List.mem_map.mpr
  obtain ⟨c, hc, hrow⟩ := h (Chunk.idOf f.path .file 0 f.bytes.length)
    (((Parts.ofRoot l f.root).contexts.map (Context.ofNode l f.bytes)).findSome? Context.package)
  refine ⟨c, List.mem_cons_of_mem _ ((topChunks_perm f l _ _ _).mem_iff.mpr ?_), hrow⟩
  exact List.mem_append_right _ (List.mem_flatMap.mpr ⟨b, hb, hc⟩)

theorem exists_method (quoted : Bool) : ∃ a ∈ (callingMethod quoted).chunks .javascript,
    memberRow a = ("a.js#member:10-27", .member, some (if quoted then "" else "call_it"),
      if quoted then "'x.<y>'() { g() }" else "call_it() { g() }") := by
  apply exists_memberRow (by rw [roots_callingMethod]; exact List.mem_cons_self)
  intro parent parentName
  simp only [blockChunks_container, List.mem_cons, List.mem_append, blocksChunks_eq,
    List.flatMap_singleton, blockChunks_member]
  refine ⟨_, Or.inr (Or.inl (Or.inr (Or.inl rfl))), ?_⟩
  rw [memberRow_memberChunk]
  cases quoted <;> decide +kernel

theorem exists_function (quoted : Bool) : ∃ b ∈ (callingMethod quoted).chunks .javascript,
    memberRow b = ("a.js#orphaned_member:30-45", .orphanedMember, some "g", "function g() {}") := by
  apply exists_memberRow
    (by rw [roots_callingMethod]; exact List.mem_cons_of_mem _ List.mem_cons_self)
  intro parent parentName
  rw [blockChunks_member]
  refine ⟨_, List.mem_cons_self, ?_⟩
  rw [memberRow_memberChunk]
  cases quoted <;> decide +kernel

/-- The method calls the function, and has a name if it is not quoted. -/
theorem exists_call (quoted : Bool) :
    ((((callingMethod quoted).chunks .javascript).map Chunk.id).Nodup ∧
    ∃ a ∈ (callingMethod quoted).chunks .javascript,
      ∃ b ∈ (callingMethod quoted).chunks .javascript, a.isNamed = !quoted ∧
        (a.id, b.id, .calls) ∈
          (Graph.ofChunks ((callingMethod quoted).chunks .javascript)).edges.map
            Dependency.key) := by
  have hn : (((callingMethod quoted).chunks .javascript).map Chunk.id).Nodup := by
    rw [chunks, Chunk.link_map_id]
    exact tree_ids_nodup (callingMethod_wellFormed quoted)
  obtain ⟨a, ha, harow⟩ := exists_method quoted
  obtain ⟨b, hb, hbrow⟩ := exists_function quoted
  simp only [memberRow, Prod.mk.injEq] at harow hbrow
  obtain ⟨haid, hak, haname, hacontent⟩ := harow
  obtain ⟨hbid, hbk, hbname, -⟩ := hbrow
  have hsites : ∃ s ∈ Text.callSites a.content, mayMean a b s = true := by
    rw [hacontent]
    unfold mayMean
    rw [hbname, haname]
    cases quoted
    · exact ⟨⟨"g", 0, 13, "call_it() { g() }"⟩, by decide +kernel, by decide⟩
    · exact ⟨⟨"g", 0, 13, "'x.<y>'() { g() }"⟩, by decide +kernel, by decide⟩
  have hcalled : isCalled a b = true := by
    rw [isCalled, sitesOf_isEmpty_eq_false.mpr hsites, Chunk.isNamed, hbk, hbname, hbid, haid]
    decide
  have hmember : a.kind.isMemberLike = true := by rw [hak]; rfl
  refine ⟨hn, a, ha, b, hb, ?_, List.mem_map_of_mem (callOf_mem_edges hn ha hmember hb hcalled)⟩
  rw [Chunk.isNamed, haname]
  cases quoted <;> decide

theorem calls_referred_plainMethod : ∃ a ∈ (callingMethod false).chunks .javascript,
    ∃ b ∈ (callingMethod false).chunks .javascript, b.id ∈ a.references ∧
      a.id ∈ b.referencedBy := by
  obtain ⟨hn, a, ha, b, hb, hnamed, hcall⟩ := exists_call false
  have h := calls_referred (callingMethod_wellFormed false) hn (List.Subset.refl _) ha hb hcall
  exact ⟨a, ha, b, hb, h.1.mpr hnamed, h.2.mpr hnamed⟩

/-- The method without a name calls the function and does not refer to it. -/
theorem not_referred_quotedMethod :
    (callingMethod true).root.WellFormed .javascript (callingMethod true).bytes.length ∧
      (((callingMethod true).chunks .javascript).map Chunk.id).Nodup ∧
      ∃ a ∈ (callingMethod true).chunks .javascript, ∃ b ∈ (callingMethod true).chunks .javascript,
        (a.id, b.id, .calls) ∈
          (Graph.ofChunks ((callingMethod true).chunks .javascript)).edges.map Dependency.key ∧
        b.id ∉ a.references ∧ a.id ∉ b.referencedBy := by
  obtain ⟨hn, a, ha, b, hb, hnamed, hcall⟩ := exists_call true
  have hlinked := tree_linked (callingMethod_wellFormed true)
  have hnot : ¬ Refers ((callingMethod true).tree .javascript) a b := by
    intro hrefers
    have hsource := hrefers.source
    rw [isNamedSymbol, hnamed, Bool.not_true, Bool.and_false] at hsource
    cases hsource
  exact ⟨callingMethod_wellFormed true, hn, a, ha, b, hb, hcall,
    fun hm => hnot ((hlinked.refers a ha b hb).mp hm), fun hm =>
      hnot ((hlinked.referred a ha b hb).mp hm)⟩

end CallingMethod

end Source.File

end CodeAtlas
