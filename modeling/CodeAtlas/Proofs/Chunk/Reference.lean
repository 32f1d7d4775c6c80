import Mathlib.Data.List.Sort
import CodeAtlas.Proofs.Chunk.Tree
import CodeAtlas.Proofs.Graph.WellFormed

/-!
Linked references. Every chunk gets the ids of the chunks it refers to and of those that refer to
it, each once and in the order of the chunks. Which chunks these are does not depend on the lists,
so that linking again adds nothing.
-/

namespace CodeAtlas.Reference

section AddId

variable {ids start : List String}

theorem foldl_addId_eq_self (h : ∀ id ∈ ids, id ∈ start) : ids.foldl addId start = start := by
  induction ids with
  | nil => rfl
  | cons id rest ih =>
    have hid : start.contains id = true := List.contains_iff_mem.mpr (h id List.mem_cons_self)
    rw [List.foldl_cons, addId, if_pos hid]
    exact ih fun other ho => h other (List.mem_cons_of_mem id ho)

theorem subset_foldl_addId (ids start : List String) : start ⊆ ids.foldl addId start := by
  induction ids generalizing start with
  | nil => exact List.Subset.refl start
  | cons id rest ih =>
    have hstart : start ⊆ addId start id := by
      unfold addId
      split
      · exact List.Subset.refl start
      · exact List.subset_append_left start [id]
    exact List.Subset.trans hstart (ih (addId start id))

theorem mem_foldl_addId (ids start : List String) {id : String} (h : id ∈ ids) :
    id ∈ ids.foldl addId start := by
  induction ids generalizing start with
  | nil => exact absurd h List.not_mem_nil
  | cons other rest ih =>
    cases List.mem_cons.mp h with
    | inl he =>
      subst he
      have hid : id ∈ addId start id := by
        unfold addId
        split
        · rename_i hc
          exact List.contains_iff_mem.mp hc
        · exact List.mem_append_right start (List.mem_singleton_self id)
      exact subset_foldl_addId rest (addId start id) hid
    | inr hr => exact ih (addId start other) hr

theorem foldl_addId_append (hn : (start ++ ids).Nodup) : ids.foldl addId start = start ++ ids := by
  induction ids generalizing start with
  | nil => exact (List.append_nil start).symm
  | cons id rest ih =>
    have hid : id ∉ start := fun hm => (List.nodup_append.mp hn).2.2 id hm id List.mem_cons_self rfl
    rw [List.foldl_cons, addId, if_neg (by simpa using hid), ih (by simpa using hn),
      List.append_assoc]
    rfl

end AddId

section Pairs

variable {chunks : List Chunk} {above : List (Option Nat)} {c : Chunk} {i j : Nat}

theorem zipIdx_pairwise (chunks : List Chunk) : chunks.zipIdx.Pairwise fun p q => p.2 < q.2 := by
  apply List.pairwise_map.mp
  rw [List.zipIdx_map_snd]
  exact List.pairwise_lt_range'

theorem targets_pairwise (chunks : List Chunk) (above : List (Option Nat)) (i : Nat) (c : Chunk) :
    (targets chunks above i c).Pairwise (· < ·) := by
  unfold targets
  split
  · exact List.pairwise_map.mpr ((zipIdx_pairwise chunks).filter _)
  · exact List.Pairwise.nil

/-- The pairs come in the order of the chunks that refer, and for each in the order of those it
refers to. -/
theorem pairs_pairwise (chunks : List Chunk) :
    (pairs chunks).Pairwise fun p q => p.1 < q.1 ∨ (p.1 = q.1 ∧ p.2 < q.2) := by
  apply List.pairwise_flatMap.mpr
  constructor
  · intro p _
    apply List.pairwise_map.mpr
    exact (targets_pairwise chunks (parents chunks) p.2 p.1).imp fun h => Or.inr ⟨rfl, h⟩
  · apply (zipIdx_pairwise chunks).imp
    intro p q hpq x hx y hy
    obtain ⟨_, _, rfl⟩ := List.mem_map.mp hx
    obtain ⟨_, _, rfl⟩ := List.mem_map.mp hy
    exact Or.inl hpq

theorem mem_targets :
    j ∈ targets chunks above i c ↔ isNamedSymbol c = true ∧ ∃ d, chunks[j]? = some d ∧
    isNamedSymbol d = true ∧ i ≠ j ∧ Lineage.isAncestor above i j = false ∧
      Lineage.isAncestor above j i = false ∧
      ∃ name, d.name = some name ∧ name ∈ Text.identifiers c.content := by
  unfold targets
  split
  · rename_i hc
    simp [hc, List.mk_mem_zipIdx_iff_getElem?, and_assoc, Option.any_eq_true]
  · rename_i hc
    simp [hc]

theorem mem_pairs :
    (i, j) ∈ pairs chunks ↔ ∃ c, chunks[i]? = some c ∧ j ∈ targets chunks (parents chunks) i c := by
  simp only [pairs, List.mem_flatMap, List.mem_map, Prod.exists, Prod.mk.injEq,
    List.mk_mem_zipIdx_iff_getElem?]
  constructor
  · rintro ⟨c, k, hc, l, hl, rfl, rfl⟩
    exact ⟨c, hc, hl⟩
  · rintro ⟨c, hc, hj⟩
    exact ⟨c, i, hc, j, hj, rfl, rfl⟩

theorem lt_length_of_mem_pairs {p : Nat × Nat} (h : p ∈ pairs chunks) :
    p.1 < chunks.length ∧ p.2 < chunks.length := by
  obtain ⟨c, hc, hj⟩ := mem_pairs.mp h
  obtain ⟨-, d, hd, -⟩ := mem_targets.mp hj
  exact ⟨(List.getElem?_eq_some_iff.mp hc).1, (List.getElem?_eq_some_iff.mp hd).1⟩

end Pairs

section Lists

variable {chunks : List Chunk} {a b c : Chunk} {i j : Nat}

def targetIds (chunks : List Chunk) (i : Nat) : List String :=
  ((pairs chunks).filter fun p => p.1 == i).map fun p => idAt Chunk.id chunks p.2

def sourceIds (chunks : List Chunk) (i : Nat) : List String :=
  ((pairs chunks).filter fun p => p.2 == i).map fun p => idAt Chunk.id chunks p.1

theorem ids_sublist {positions : List Nat} (h : positions.Pairwise (· < ·))
    (hlt : ∀ i ∈ positions, i < chunks.length) :
    (positions.map (idAt Chunk.id chunks)).Sublist (chunks.map Chunk.id) := by
  have hrange : positions.Sublist (List.range chunks.length) := by
    apply List.sublist_of_subperm_of_pairwise _ h List.pairwise_lt_range
    exact List.subperm_of_subset h.nodup fun i hi => List.mem_range.mpr (hlt i hi)
  have hids : (List.range chunks.length).map (idAt Chunk.id chunks) = chunks.map Chunk.id := by
    apply List.ext_getElem
    · simp
    · intro i hi _
      have hi : i < chunks.length := by simpa using hi
      rw [List.getElem_map, List.getElem_map, List.getElem_range,
        idAt_eq Chunk.id (List.getElem?_eq_getElem hi)]
  exact hids ▸ hrange.map (idAt Chunk.id chunks)

/-- The ids at one end of the pairs that have the other end at a position, where the pairs are in
the order of both. -/
theorem ends_sublist (chunks : List Chunk) (i : Nat) {near far : Nat × Nat → Nat}
    (horder : ∀ p q : Nat × Nat, p.1 < q.1 ∨ (p.1 = q.1 ∧ p.2 < q.2) → near p = near q →
      far p < far q)
    (hlt : ∀ p ∈ pairs chunks, far p < chunks.length) :
    (((pairs chunks).filter fun p => near p == i).map fun p => idAt Chunk.id chunks (far p)).Sublist
      (chunks.map Chunk.id) := by
  rw [← Function.comp_def (idAt Chunk.id chunks) far, ← List.map_map]
  apply ids_sublist
  · apply List.pairwise_map.mpr
    apply ((pairs_pairwise chunks).filter _).imp_of_mem
    intro p q hp hq hpq
    have hp : near p = i := by simpa using (List.mem_filter.mp hp).2
    have hq : near q = i := by simpa using (List.mem_filter.mp hq).2
    exact horder p q hpq (hp.trans hq.symm)
  · intro j hj
    obtain ⟨p, hp, rfl⟩ := List.mem_map.mp hj
    exact hlt p (List.mem_of_mem_filter hp)

theorem targetIds_sublist (chunks : List Chunk) (i : Nat) :
    (targetIds chunks i).Sublist (chunks.map Chunk.id) :=
  ends_sublist chunks i (fun p q hpq he => by omega) fun _ hp => (lt_length_of_mem_pairs hp).2

theorem sourceIds_sublist (chunks : List Chunk) (i : Nat) :
    (sourceIds chunks i).Sublist (chunks.map Chunk.id) :=
  ends_sublist chunks i (fun p q hpq he => by omega) fun _ hp => (lt_length_of_mem_pairs hp).1

theorem getElem?_link (chunks : List Chunk) (i : Nat) :
    (link chunks)[i]? = chunks[i]?.map fun c =>
      { c with
        references := (targetIds chunks i).foldl addId c.references
        referencedBy := (sourceIds chunks i).foldl addId c.referencedBy } := by
  rw [link, List.getElem?_map, List.getElem?_zipIdx]
  cases chunks[i]? with
  | none => rfl
  | some c =>
    rw [Option.map_some, Option.map_some, Nat.zero_add]
    rfl

end Lists

section Again

variable {chunks : List Chunk}

theorem id_eq_of_unlinked {a b : Chunk} (h : a.unlinked = b.unlinked) : a.id = b.id := by
  show a.unlinked.id = b.unlinked.id
  rw [h]

theorem parents_unlinked (chunks : List Chunk) :
    parents (chunks.map Chunk.unlinked) = parents chunks := by
  have hlast : lastIndex? (chunks.map Chunk.unlinked) = lastIndex? chunks := by
    funext id
    rw [lastIndex?, lastIndex?, ← List.map_reverse, List.findIdx?_map, List.length_map]
    rfl
  rw [parents, parents, List.map_map, hlast]
  rfl

/-- Which chunks refer to which does not depend on what is linked already. -/
theorem pairs_unlinked (chunks : List Chunk) :
    pairs (chunks.map Chunk.unlinked) = pairs chunks := by
  have htargets : ∀ above i c, targets (chunks.map Chunk.unlinked) above i c.unlinked =
      targets chunks above i c := by
    intro above i c
    unfold targets
    dsimp only
    rw [List.zipIdx_map, List.filter_map, List.map_map]
    rfl
  rw [pairs, pairs, parents_unlinked, List.zipIdx_map, List.flatMap_map]
  apply List.flatMap_congr
  intro p _
  exact congrArg (List.map fun j => (p.2, j)) (htargets (parents chunks) p.2 p.1)

theorem idAt_unlinked (chunks : List Chunk) (i : Nat) :
    idAt Chunk.id (chunks.map Chunk.unlinked) i = idAt Chunk.id chunks i := by
  rw [idAt, idAt, List.getElem?_map, Option.map_map]
  rfl

theorem pairs_link (chunks : List Chunk) : pairs (link chunks) = pairs chunks := by
  rw [← pairs_unlinked, Chunk.map_unlinked_link, pairs_unlinked]

theorem idAt_link (chunks : List Chunk) : idAt Chunk.id (link chunks) = idAt Chunk.id chunks := by
  funext i
  rw [← idAt_unlinked, Chunk.map_unlinked_link, idAt_unlinked]

/-- Linking again changes nothing, whatever the lists held at first. -/
theorem link_link (chunks : List Chunk) : link (link chunks) = link chunks := by
  have htargets : targetIds (link chunks) = targetIds chunks := by
    funext i
    rw [targetIds, targetIds, pairs_link, idAt_link]
  have hsources : sourceIds (link chunks) = sourceIds chunks := by
    funext i
    rw [sourceIds, sourceIds, pairs_link, idAt_link]
  apply List.ext_getElem?
  intro i
  rw [getElem?_link (link chunks), htargets, hsources, getElem?_link, Option.map_map]
  cases chunks[i]? with
  | none => rfl
  | some c =>
    have ht := foldl_addId_eq_self fun _ => mem_foldl_addId (targetIds chunks i) c.references
    have hs := foldl_addId_eq_self fun _ => mem_foldl_addId (sourceIds chunks i) c.referencedBy
    simp only [Option.map_some, Function.comp_apply, ht, hs]

end Again

section Linked

variable {chunks : List Chunk} {a b c : Chunk} {i j : Nat}

theorem lastIndex?_eq (hn : (chunks.map Chunk.id).Nodup) (id : String) :
    lastIndex? chunks id = chunks.findIdx? fun c => c.id == id := by
  unfold lastIndex?
  cases hlast : chunks.reverse.findIdx? fun c => c.id == id with
  | none =>
    rw [List.findIdx?_eq_none_iff] at hlast
    exact (List.findIdx?_eq_none_iff.mpr fun c hc => hlast c (List.mem_reverse.mpr hc)).symm
  | some k =>
    obtain ⟨hk, hid, -⟩ := List.findIdx?_eq_some_iff_getElem.mp hlast
    rw [List.length_reverse] at hk
    have hlt : chunks.length - 1 - k < chunks.length := by omega
    have hat : chunks[chunks.length - 1 - k]? = some chunks[chunks.length - 1 - k] :=
      List.getElem?_eq_getElem hlt
    rw [List.getElem_reverse, beq_iff_eq] at hid
    have hfirst := Resolution.byId?_eq_some hn (List.mem_of_getElem? hat)
    rw [← hid, (Resolution.getElem?_indexOf hfirst).2, Resolution.indexOf_eq hn hat,
      Option.map_some]

theorem parents_eq (hn : (chunks.map Chunk.id).Nodup) :
    parents chunks = Resolution.parents chunks := by
  apply List.map_congr_left
  intro c _
  rw [show lastIndex? chunks = _ from funext (lastIndex?_eq hn)]

/-- Whether a chunk refers to another: both are named symbols, neither is above the other, and the
name of the latter is a word of the former's content. -/
structure Refers (chunks : List Chunk) (a b : Chunk) : Prop where
  different : a.id ≠ b.id
  source : isNamedSymbol a = true
  target : isNamedSymbol b = true
  notAbove : ¬ Relation.TransGen (Resolution.IsParent chunks) a.id b.id
  notBelow : ¬ Relation.TransGen (Resolution.IsParent chunks) b.id a.id
  mentioned : ∃ name, b.name = some name ∧ name ∈ Text.identifiers a.content

theorem mem_pairs_iff (hn : (chunks.map Chunk.id).Nodup) (ha : Resolution.Acyclic chunks)
    (hi : chunks[i]? = some a) (hj : chunks[j]? = some b) :
    (i, j) ∈ pairs chunks ↔ Refers chunks a b := by
  have habove := Resolution.isAncestor_parents hn ha hi hj
  have hbelow := Resolution.isAncestor_parents hn ha hj hi
  have hne : i ≠ j ↔ a.id ≠ b.id := by
    rw [not_iff_not]
    constructor
    · rintro rfl
      rw [Option.some.inj (hi.symm.trans hj)]
    · intro he
      rw [← Resolution.indexOf_eq hn hi, he, Resolution.indexOf_eq hn hj]
  rw [mem_pairs]
  simp only [mem_targets, hi, hj, Option.some.injEq, exists_eq_left', parents_eq hn,
    ← Bool.not_eq_true, habove, hbelow, hne]
  constructor
  · rintro ⟨hs, ht, hd, h1, h2, hm⟩
    exact ⟨hd, hs, ht, h1, h2, hm⟩
  · rintro ⟨hd, hs, ht, h1, h2, hm⟩
    exact ⟨hs, ht, hd, h1, h2, hm⟩

/-- Chunks as they are when the references among them have been linked. -/
structure Linked (before after : List Chunk) : Prop where
  /-- Nothing but the lists of references has changed. -/
  unchanged : after.map Chunk.unlinked = before.map Chunk.unlinked
  refers : ∀ a ∈ after, ∀ b ∈ after, b.id ∈ a.references ↔ Refers before a b
  referred : ∀ a ∈ after, ∀ b ∈ after, a.id ∈ b.referencedBy ↔ Refers before a b
  /-- The ids in a list are those of some of the chunks, in their order. -/
  ordered : ∀ c ∈ after, c.references.Sublist (after.map Chunk.id) ∧
    c.referencedBy.Sublist (after.map Chunk.id)
  distinct : ∀ c ∈ after, c.references.Nodup ∧ c.referencedBy.Nodup

theorem refers_unlinked (chunks : List Chunk) (a b : Chunk) :
    Refers chunks a.unlinked b.unlinked ↔ Refers chunks a b :=
  ⟨fun h => ⟨h.different, h.source, h.target, h.notAbove, h.notBelow, h.mentioned⟩,
    fun h => ⟨h.different, h.source, h.target, h.notAbove, h.notBelow, h.mentioned⟩⟩

theorem refers_congr {a' b' : Chunk} (ha : a.unlinked = a'.unlinked)
    (hb : b.unlinked = b'.unlinked) : Refers chunks a b ↔ Refers chunks a' b' := by
  rw [← refers_unlinked, ha, hb, refers_unlinked]

theorem exists_of_mem_link (he : ∀ c ∈ chunks, c.references = [] ∧ c.referencedBy = [])
    (hn : (chunks.map Chunk.id).Nodup) (hc : c ∈ link chunks) :
    ∃ i d, chunks[i]? = some d ∧ c.unlinked = d.unlinked ∧
      c.references = targetIds chunks i ∧ c.referencedBy = sourceIds chunks i := by
  obtain ⟨i, hi⟩ := List.mem_iff_getElem?.mp hc
  rw [getElem?_link] at hi
  obtain ⟨d, hd, rfl⟩ := Option.map_eq_some_iff.mp hi
  obtain ⟨hr, hb⟩ := he d (List.mem_of_getElem? hd)
  refine ⟨i, d, hd, rfl, ?_, ?_⟩
  · show (targetIds chunks i).foldl addId d.references = targetIds chunks i
    rw [hr]
    exact foldl_addId_append (hn.sublist (targetIds_sublist chunks i))
  · show (sourceIds chunks i).foldl addId d.referencedBy = sourceIds chunks i
    rw [hb]
    exact foldl_addId_append (hn.sublist (sourceIds_sublist chunks i))

theorem eq_of_idAt (hn : (chunks.map Chunk.id).Nodup) (hi : i < chunks.length)
    (hj : chunks[j]? = some b) (h : idAt Chunk.id chunks i = b.id) : i = j := by
  have hat := List.getElem?_eq_getElem hi
  rw [idAt_eq Chunk.id hat] at h
  rw [← Resolution.indexOf_eq hn hat, h, Resolution.indexOf_eq hn hj]

theorem mem_ends (hn : (chunks.map Chunk.id).Nodup) {near far : Nat × Nat → Nat}
    (hlt : ∀ p ∈ pairs chunks, far p < chunks.length) (hj : chunks[j]? = some b) :
    b.id ∈ (((pairs chunks).filter fun p => near p == i).map fun p =>
      idAt Chunk.id chunks (far p)) ↔ ∃ p ∈ pairs chunks, near p = i ∧ far p = j := by
  simp only [List.mem_map, List.mem_filter, beq_iff_eq]
  constructor
  · rintro ⟨p, ⟨hp, hnear⟩, hid⟩
    exact ⟨p, hp, hnear, eq_of_idAt hn (hlt p hp) hj hid⟩
  · rintro ⟨p, hp, hnear, hfar⟩
    exact ⟨p, ⟨hp, hnear⟩, hfar ▸ idAt_eq Chunk.id (hfar ▸ hj)⟩

theorem mem_targetIds (hn : (chunks.map Chunk.id).Nodup) (ha : Resolution.Acyclic chunks)
    (hi : chunks[i]? = some a) (hj : chunks[j]? = some b) :
    b.id ∈ targetIds chunks i ↔ Refers chunks a b := by
  rw [← mem_pairs_iff hn ha hi hj, targetIds,
    mem_ends hn (fun _ hp => (lt_length_of_mem_pairs hp).2) hj]
  constructor
  · rintro ⟨p, hp, rfl, rfl⟩
    exact hp
  · exact fun hp => ⟨(i, j), hp, rfl, rfl⟩

theorem mem_sourceIds (hn : (chunks.map Chunk.id).Nodup) (ha : Resolution.Acyclic chunks)
    (hi : chunks[i]? = some a) (hj : chunks[j]? = some b) :
    a.id ∈ sourceIds chunks j ↔ Refers chunks a b := by
  rw [← mem_pairs_iff hn ha hi hj, sourceIds,
    mem_ends hn (fun _ hp => (lt_length_of_mem_pairs hp).1) hi]
  constructor
  · rintro ⟨p, hp, rfl, rfl⟩
    exact hp
  · exact fun hp => ⟨(i, j), hp, rfl, rfl⟩

theorem linked_link (hn : (chunks.map Chunk.id).Nodup) (ha : Resolution.Acyclic chunks)
    (he : ∀ c ∈ chunks, c.references = [] ∧ c.referencedBy = []) : Linked chunks (link chunks) := by
  have hids : (link chunks).map Chunk.id = chunks.map Chunk.id := Chunk.link_map_id chunks
  have hat := fun c hc => exists_of_mem_link (c := c) he hn hc
  constructor
  · exact Chunk.map_unlinked_link chunks
  · intro a ham b hbm
    obtain ⟨i, a', hi, haa, hrefs, -⟩ := hat a ham
    obtain ⟨j, b', hj, hbb, -, -⟩ := hat b hbm
    rw [hrefs, id_eq_of_unlinked hbb, mem_targetIds hn ha hi hj, refers_congr haa hbb]
  · intro a ham b hbm
    obtain ⟨i, a', hi, haa, -, -⟩ := hat a ham
    obtain ⟨j, b', hj, hbb, -, hrefs⟩ := hat b hbm
    rw [hrefs, id_eq_of_unlinked haa, mem_sourceIds hn ha hi hj, refers_congr haa hbb]
  · intro c hc
    obtain ⟨i, -, -, -, hr, hb⟩ := hat c hc
    rw [hids, hr, hb]
    exact ⟨targetIds_sublist chunks i, sourceIds_sublist chunks i⟩
  · intro c hc
    obtain ⟨i, -, -, -, hr, hb⟩ := hat c hc
    rw [hr, hb]
    exact ⟨hn.sublist (targetIds_sublist chunks i), hn.sublist (sourceIds_sublist chunks i)⟩

/-- Linking the references of chunks with distinct ids none of which is above itself: every walk to
the chunks above one ends, lists that are empty get what they are to hold, and linking again, on any
lists, changes nothing. -/
theorem link_linked (hn : (chunks.map Chunk.id).Nodup) (ha : Resolution.Acyclic chunks) :
    (∀ steps i, chunks.length ≤ steps →
      Lineage.chain (parents chunks) steps i = Lineage.ancestors (parents chunks) i) ∧
      ((∀ c ∈ chunks, c.references = [] ∧ c.referencedBy = []) → Linked chunks (link chunks)) ∧
      link (link chunks) = link chunks := by
  refine ⟨?_, linked_link hn ha, link_link chunks⟩
  intro steps i hsteps
  rw [parents_eq hn]
  exact Resolution.chain_parents hn ha hsteps i

end Linked

/-- A container around two members that mention each other, and an orphan that mentions the
container and one of the members. -/
def storeMembers : List Chunk :=
  let symbol (id : String) (kind : ChunkKind) (name content : String) (parent : Option String) :
      Chunk :=
    { id, kind, content, path := "lib.rs", startLine := 1, endLine := 1, language := "rust",
      name := some name
      parent }
  [symbol "c" .container "Store" "impl Store { fn save() { flush() } fn flush() { save() } }"
    (some "f"), symbol "m" .member "save" "fn save() { flush() }" (some "c"),
    symbol "n" .member "flush" "fn flush() { Store::save() }" (some "c"),
    symbol "o" .orphanedMember "main" "fn main() { Store::save() }" (some "f")]

theorem link_linked_storeMembers :
    (storeMembers.map Chunk.id).Nodup ∧ Resolution.Acyclic storeMembers ∧
    (∀ c ∈ storeMembers, c.references = [] ∧ c.referencedBy = []) ∧
      Linked storeMembers (link storeMembers) ∧
      (link storeMembers).map Chunk.references = [[], ["n"], ["m"], ["c", "m"]] ∧
        link (link storeMembers) = link storeMembers := by
  have hn : (storeMembers.map Chunk.id).Nodup := by decide
  have ha : Resolution.Acyclic storeMembers :=
    Inference.acyclic_of_rank (["f", "c", "m", "n", "o"].idxOf ·) (by decide)
  have he : ∀ c ∈ storeMembers, c.references = [] ∧ c.referencedBy = [] := by decide
  obtain ⟨-, hl, hr⟩ := link_linked hn ha
  exact ⟨hn, ha, he, hl he, by decide +kernel, hr⟩

end CodeAtlas.Reference
