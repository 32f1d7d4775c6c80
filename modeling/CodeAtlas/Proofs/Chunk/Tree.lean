import Mathlib.Data.List.Nodup
import CodeAtlas.Chunk.Reference
import CodeAtlas.Proofs.Chunk.Distinct

/-!
Trees of chunks. A list of chunks is a tree when the lists of children and the parents agree and the
list itself is the walk through the tree. Lists are built up as forests, whose shape does not depend
on the ids; once the ids are distinct a forest below one chunk is a tree.
-/

namespace CodeAtlas.Chunk

def childrenIn (chunks : List Chunk) (id : String) : List String :=
  ((chunks.find? fun c => c.id == id).map Chunk.children).getD []

/-- The pre-order walk from some ids: each is followed by the walk through its children. -/
inductive Walk (childrenOf : String → List String) : List String → List String → Prop where
  | nil : Walk childrenOf [] []
  | cons {id : String} {ids below after : List String} :
      Walk childrenOf (childrenOf id) below → Walk childrenOf ids after →
        Walk childrenOf (id :: ids) (id :: below ++ after)

/-- A list of chunks that is one tree: its first chunk is the file, every other chunk has a parent
in the list, a chunk is listed once by its parent and by no other chunk, and the list is the
pre-order walk. -/
structure RootedTree (chunks : List Chunk) : Prop where
  distinct : (chunks.map Chunk.id).Nodup
  root : ∃ file rest, chunks = file :: rest ∧ file.kind = .file ∧ file.parent = none ∧
    (∀ c ∈ rest, c.kind ≠ .file ∧ ∃ p ∈ chunks, c.parent = some p.id) ∧
    Walk (childrenIn chunks) [file.id] (chunks.map Chunk.id)
  linked : ∀ p ∈ chunks, ∀ c ∈ chunks,
    p.children.count c.id = if c.parent = some p.id then 1 else 0

/-- Chunks in pre-order below a parent, given the ids of its children. -/
inductive Forest : (parent : String) → (ids : List String) → List Chunk → Prop where
  | nil (parent : String) : Forest parent [] []
  | cons {parent : String} {ids : List String} {c : Chunk} {below after : List Chunk} :
      c.parent = some parent → Forest c.id c.children below → Forest parent ids after →
        Forest parent (c.id :: ids) (c :: below ++ after)

namespace Forest
variable {parent : String} {ids jds : List String} {cs ds : List Chunk}

theorem append (hc : Forest parent ids cs) (hd : Forest parent jds ds) :
    Forest parent (ids ++ jds) (cs ++ ds) := by
  induction hc with
  | nil => exact hd
  | @cons _ ids c below after hp hb _ _ ih =>
    rw [List.append_assoc (c :: below)]
    exact .cons hp hb (ih hd)

theorem single {id : String} {c : Chunk} (hi : c.id = id) (hp : c.parent = some parent)
    (hb : Forest id c.children cs) : Forest parent [id] (c :: cs) := by
  subst hi
  simpa using Forest.cons hp hb (.nil parent)

theorem leaf {id : String} {c : Chunk} (hi : c.id = id) (hp : c.parent = some parent)
    (hc : c.children = []) : Forest parent [id] [c] :=
  single hi hp (hc ▸ .nil id)

theorem sublist_ids (h : Forest parent ids cs) : ids.Sublist (cs.map Chunk.id) := by
  induction h with
  | nil => exact .slnil
  | cons _ _ _ _ ih =>
    simp only [List.cons_append, List.map_cons, List.map_append]
    exact (ih.trans (List.sublist_append_right _ _)).cons_cons _

/-- Every chunk of a forest is a child of the parent or of another chunk of the forest. -/
theorem parent_cases (h : Forest parent ids cs) {c : Chunk} (hc : c ∈ cs) :
    (c.parent = some parent ∧ c.id ∈ ids) ∨ ∃ p ∈ cs, c.parent = some p.id ∧ c.id ∈ p.children := by
  induction h with
  | nil => exact absurd hc List.not_mem_nil
  | @cons parent ids d below after hp hb ha ihb iha =>
    rcases List.mem_append.mp hc with hc | hc
    · rcases List.mem_cons.mp hc with rfl | hc
      · exact Or.inl ⟨hp, List.mem_cons_self⟩
      · rcases ihb hc with ⟨hq, hi⟩ | ⟨p, hm, hq⟩
        · exact Or.inr ⟨d, by simp, hq, hi⟩
        · exact Or.inr ⟨p, by simp [hm], hq⟩
    · rcases iha hc with ⟨hq, hi⟩ | ⟨p, hm, hq⟩
      · exact Or.inl ⟨hq, List.mem_cons_of_mem _ hi⟩
      · exact Or.inr ⟨p, by simp [hm], hq⟩

/-- Every id in a list of children belongs to a chunk of the forest with that parent. -/
theorem exists_child (h : Forest parent ids cs) :
    (∀ id ∈ ids, ∃ c ∈ cs, c.id = id ∧ c.parent = some parent) ∧
      ∀ p ∈ cs, ∀ id ∈ p.children, ∃ c ∈ cs, c.id = id ∧ c.parent = some p.id := by
  induction h with
  | nil => simp
  | @cons parent ids d below after hp hb ha ihb iha =>
    constructor
    · intro id hi
      rcases List.mem_cons.mp hi with rfl | hi
      · exact ⟨d, by simp, rfl, hp⟩
      · obtain ⟨c, hc, hq⟩ := iha.1 id hi
        exact ⟨c, by simp [hc], hq⟩
    · intro p hm id hi
      rcases List.mem_append.mp hm with hm | hm
      · rcases List.mem_cons.mp hm with rfl | hm
        · obtain ⟨c, hc, hq⟩ := ihb.1 id hi
          exact ⟨c, by simp [hc], hq⟩
        · obtain ⟨c, hc, hq⟩ := ihb.2 p hm id hi
          exact ⟨c, by simp [hc], hq⟩
      · obtain ⟨c, hc, hq⟩ := iha.2 p hm id hi
        exact ⟨c, by simp [hc], hq⟩

theorem sublist_children (h : Forest parent ids cs) :
    ∀ p ∈ cs, p.children.Sublist (cs.map Chunk.id) := by
  induction h with
  | nil => simp
  | @cons parent ids d below after hp hb ha ihb iha =>
    intro p hm
    simp only [List.cons_append, List.map_cons, List.map_append]
    rcases List.mem_append.mp hm with hm | hm
    · rcases List.mem_cons.mp hm with rfl | hm
      · exact (hb.sublist_ids.trans (List.sublist_append_left _ _)).cons _
      · exact ((ihb p hm).trans (List.sublist_append_left _ _)).cons _
    · exact ((iha p hm).trans (List.sublist_append_right _ _)).cons _

/-- The parent of a chunk stands before it. -/
theorem exists_parent_before (h : Forest parent ids cs) {c : Chunk} (hc : c ∈ cs) :
    ∃ q, c.parent = some q ∧ [q, c.id].Sublist (parent :: cs.map Chunk.id) := by
  induction h with
  | nil => exact absurd hc List.not_mem_nil
  | @cons parent ids d below after hp hb ha ihb iha =>
    rw [List.cons_append, List.map_cons, List.map_append]
    rcases List.mem_append.mp hc with hc | hc
    · rcases List.mem_cons.mp hc with rfl | hc
      · exact ⟨parent, hp, (List.singleton_sublist.mpr List.mem_cons_self).cons_cons parent⟩
      · obtain ⟨q, hq, hbefore⟩ := ihb hc
        exact ⟨q, hq, (hbefore.trans ((List.sublist_append_left _ _).cons_cons d.id)).cons parent⟩
    · obtain ⟨q, hq, hbefore⟩ := iha hc
      exact ⟨q, hq, hbefore.trans (((List.sublist_append_right _ _).cons d.id).cons_cons parent)⟩

theorem not_mem_children (h : Forest parent ids cs) (hn : (cs.map Chunk.id).Nodup) :
    ∀ p ∈ cs, p.id ∉ p.children := by
  induction h with
  | nil => exact fun p hp => absurd hp List.not_mem_nil
  | @cons parent ids d below after hp hb ha ihb iha =>
    rw [List.cons_append, List.map_cons, List.map_append, List.nodup_cons, List.nodup_append] at hn
    obtain ⟨hd, hbelow, hafter, -⟩ := hn
    intro p hm
    cases List.mem_append.mp hm with
    | inl hm =>
      cases List.mem_cons.mp hm with
      | inl he =>
        subst he
        exact fun hi => hd (List.mem_append_left _ (hb.sublist_ids.subset hi))
      | inr hm => exact ihb hbelow p hm
    | inr hm => exact iha hafter p hm

/-- Every chunk of a forest belongs to its parent or to one of its chunks. -/
theorem filter_parent_eq_nil (h : Forest parent ids cs) {id : String} (hp : id ≠ parent)
    (hn : id ∉ cs.map Chunk.id) : (cs.filter fun c => c.parent == some id) = [] := by
  apply List.filter_eq_nil_iff.mpr
  intro c hc hid
  have hid : c.parent = some id := beq_iff_eq.mp hid
  rcases h.parent_cases hc with ⟨hparent, -⟩ | ⟨q, hq, hparent, -⟩
  · exact hp (Option.some.inj (hid.symm.trans hparent))
  · exact hn (List.mem_map.mpr ⟨q, hq, Option.some.inj (hparent.symm.trans hid)⟩)

/-- Every chunk lists its children in the order in which they stand in the forest. -/
theorem map_id_filter_parent (h : Forest parent ids cs) (hn : (parent :: cs.map Chunk.id).Nodup) :
    (cs.filter fun c => c.parent == some parent).map Chunk.id = ids ∧
      ∀ p ∈ cs, (cs.filter fun c => c.parent == some p.id).map Chunk.id = p.children := by
  induction h with
  | nil => exact ⟨rfl, nofun⟩
  | @cons parent ids d below after hp hb ha ihb iha =>
    rw [List.cons_append, List.map_cons, List.map_append] at hn
    obtain ⟨hparent, hd⟩ := List.nodup_cons.mp hn
    obtain ⟨hself, hrest⟩ := List.nodup_cons.mp hd
    obtain ⟨hbelow, hafter, hapart⟩ := List.nodup_append.mp hrest
    rw [List.mem_cons, List.mem_append, not_or, not_or] at hparent
    rw [List.mem_append, not_or] at hself
    obtain ⟨hroots, hchildren⟩ := iha (List.nodup_cons.mpr ⟨hparent.2.2, hafter⟩)
    obtain ⟨hbroots, hbchildren⟩ := ihb (List.nodup_cons.mpr ⟨hself.1, hbelow⟩)
    have hother : ∀ {id}, id ≠ parent →
        ((d :: below ++ after).filter fun c => c.parent == some id) =
        (below.filter fun c => c.parent == some id) ++ after.filter fun c =>
            c.parent == some id := by
      intro id hid
      rw [List.cons_append, List.filter_cons_of_neg (by simpa [hp] using hid.symm),
        List.filter_append]
    refine ⟨?_, fun p hm => ?_⟩
    · rw [List.cons_append, List.filter_cons_of_pos (by simp [hp]), List.filter_append,
        hb.filter_parent_eq_nil hparent.1 hparent.2.1, List.map_cons, List.nil_append, hroots]
    · rcases List.mem_cons.mp hm with rfl | hm
      · rw [hother (Ne.symm hparent.1), ha.filter_parent_eq_nil (Ne.symm hparent.1) hself.2,
          List.append_nil, hbroots]
      · rcases List.mem_append.mp hm with hm | hm
        · have hid : p.id ∈ below.map Chunk.id := List.mem_map_of_mem hm
          have hne : p.id ≠ parent := fun he => hparent.2.1 (he ▸ hid)
          rw [hother hne, ha.filter_parent_eq_nil hne fun hafter => hapart _ hid _ hafter rfl,
            List.append_nil, hbchildren p hm]
        · have hid : p.id ∈ after.map Chunk.id := List.mem_map_of_mem hm
          have hne : p.id ≠ parent := fun he => hparent.2.2 (he ▸ hid)
          have hned : p.id ≠ d.id := fun he => hself.2 (he ▸ hid)
          rw [hother hne, hb.filter_parent_eq_nil hned fun hbelow => hapart _ hbelow _ hid rfl,
            List.nil_append, hchildren p hm]

/-- A forest lists the ids of its walk, for any table that has the children of its chunks. -/
theorem walk {childrenOf : String → List String} (h : Forest parent ids cs)
    (ht : ∀ c ∈ cs, childrenOf c.id = c.children) : Walk childrenOf ids (cs.map Chunk.id) := by
  induction h with
  | nil => exact .nil
  | @cons parent ids d below after hp hb ha ihb iha =>
    simp only [List.map_append, List.map_cons]
    refine .cons ?_ (iha fun c hc => ht c (by simp [hc]))
    rw [ht d (by simp)]
    exact ihb fun c hc => ht c (by simp [hc])

/-- The shape of a forest does not depend on what chunks hold besides their ids and relatives. -/
theorem map_zipIdx {g : Chunk × Nat → Chunk}
    (hg : ∀ p, (g p).id = p.1.id ∧ (g p).parent = p.1.parent ∧ (g p).children = p.1.children)
    (h : Forest parent ids cs) (n : Nat) : Forest parent ids ((cs.zipIdx n).map g) := by
  induction h generalizing n with
  | nil => exact .nil _
  | @cons parent ids d below after hp hb ha ihb iha =>
    obtain ⟨hi, hq, hc⟩ := hg (d, n)
    simp only [List.cons_append, List.zipIdx_cons, List.zipIdx_append, List.map_cons,
      List.map_append]
    rw [← hi, ← List.cons_append]
    exact .cons (hq.trans hp) (hi ▸ hc ▸ ihb _) (iha _)

end Forest

theorem childrenIn_of_mem {cs : List Chunk} (hn : (cs.map Chunk.id).Nodup) {c : Chunk}
    (hc : c ∈ cs) : childrenIn cs c.id = c.children := by
  unfold childrenIn
  cases hf : cs.find? fun d => d.id == c.id with
  | none => simpa using List.find?_eq_none.mp hf c hc
  | some d =>
    have he : d.id = c.id := by simpa using List.find?_some hf
    rw [eq_of_id_eq hn (List.mem_of_find?_eq_some hf) hc he]
    rfl

/-- Chunks with distinct ids that are one file with a forest of others below it. -/
structure FileTree (file : Chunk) (rest : List Chunk) : Prop where
  kind : file.kind = .file
  root : file.parent = none
  others : ∀ c ∈ rest, c.kind ≠ .file
  below : Forest file.id file.children rest
  distinct : ((file :: rest).map Chunk.id).Nodup

namespace FileTree
variable {file : Chunk} {rest : List Chunk}

theorem parent (h : FileTree file rest) {c : Chunk} (hc : c ∈ rest) :
    ∃ p ∈ file :: rest, c.parent = some p.id ∧ c.id ∈ p.children := by
  cases h.below.parent_cases hc with
  | inl hp => exact ⟨file, List.mem_cons_self, hp⟩
  | inr hp =>
    obtain ⟨p, hm, hq⟩ := hp
    exact ⟨p, List.mem_cons_of_mem _ hm, hq⟩

theorem child (h : FileTree file rest) {p : Chunk} (hp : p ∈ file :: rest) :
    ∀ id ∈ p.children, ∃ c ∈ rest, c.id = id ∧ c.parent = some p.id := by
  cases List.mem_cons.mp hp with
  | inl he => exact he ▸ h.below.exists_child.1
  | inr hp => exact h.below.exists_child.2 p hp

theorem children_nodup (h : FileTree file rest) {p : Chunk} (hp : p ∈ file :: rest) :
    p.children.Nodup := by
  have hsub : p.children.Sublist (rest.map Chunk.id) := by
    cases List.mem_cons.mp hp with
    | inl he => exact he ▸ h.below.sublist_ids
    | inr hp => exact h.below.sublist_children p hp
  exact hsub.nodup (List.nodup_cons.mp h.distinct).2

theorem not_mem_children (h : FileTree file rest) {p : Chunk} (hp : p ∈ file :: rest) :
    p.id ∉ p.children := by
  have hn := List.nodup_cons.mp h.distinct
  cases List.mem_cons.mp hp with
  | inl he =>
    subst he
    exact fun hm => hn.1 (h.below.sublist_ids.subset hm)
  | inr hp => exact h.below.not_mem_children hn.2 p hp

/-- A file chunk with a forest below it is a tree. -/
theorem rootedTree (h : FileTree file rest) : RootedTree (file :: rest) := by
  refine ⟨h.distinct, ⟨file, rest, rfl, h.kind, h.root, fun c hc => ⟨h.others c hc, ?_⟩, ?_⟩,
    fun p hm c hc => ?_⟩
  · obtain ⟨p, hm, hq, -⟩ := h.parent hc
    exact ⟨p, hm, hq⟩
  · have hw : Walk (childrenIn (file :: rest)) file.children (rest.map Chunk.id) :=
      h.below.walk fun c hc => childrenIn_of_mem h.distinct (List.mem_cons_of_mem _ hc)
    have hroot := childrenIn_of_mem h.distinct (c := file) List.mem_cons_self
    simpa using Walk.cons (hroot ▸ hw) .nil
  · split
    · rename_i hq
      have hcr : c ∈ rest := by
        cases List.mem_cons.mp hc with
        | inl he => exact absurd (h.root.symm.trans (he ▸ hq)) (by simp)
        | inr hc => exact hc
      obtain ⟨q, hqm, hcq, hi⟩ := h.parent hcr
      have he : q = p := eq_of_id_eq h.distinct hqm hm (Option.some.inj (hcq.symm.trans hq))
      exact List.count_eq_one_of_mem (h.children_nodup hm) (he ▸ hi)
    · rename_i hq
      refine List.count_eq_zero_of_not_mem fun hi => hq ?_
      obtain ⟨d, hd, he, hdp⟩ := h.child hm c.id hi
      rw [← eq_of_id_eq h.distinct (List.mem_cons_of_mem _ hd) hc he]
      exact hdp

end FileTree

/-- What chunks hold besides their references stays as it is when references are linked. -/
theorem link_map {α : Type} {g : Chunk → α}
    (hg : ∀ (c : Chunk) (references referencedBy : List String),
      g { c with references, referencedBy } = g c)
    (cs : List Chunk) : (Reference.link cs).map g = cs.map g := by
  rw [Reference.link, List.map_map]
  refine Eq.trans (List.map_congr_left fun p _ => hg p.1 _ _) ?_
  exact (List.map_map (f := Prod.fst) (g := g)).symm.trans
    (congrArg (List.map g) (List.zipIdx_map_fst 0 cs))

/-- What a chunk has besides its references. -/
def unlinked (c : Chunk) : Chunk := { c with references := [], referencedBy := [] }

theorem map_unlinked_link (cs : List Chunk) : (Reference.link cs).map unlinked = cs.map unlinked :=
  link_map (fun _ _ _ => rfl) cs

theorem link_map_id (cs : List Chunk) : (Reference.link cs).map Chunk.id = cs.map Chunk.id :=
  link_map (fun _ _ _ => rfl) cs

/-- Linking the references of a file and what is below it leaves the tree as it is. -/
theorem FileTree.link {file : Chunk} {rest : List Chunk} (h : FileTree file rest) :
    ∃ file' rest', Reference.link (file :: rest) = file' :: rest' ∧ FileTree file' rest' := by
  have hn := h.distinct
  rw [← link_map_id (file :: rest)] at hn
  unfold Reference.link at hn ⊢
  rw [List.zipIdx_cons, List.map_cons] at hn ⊢
  refine ⟨_, _, rfl, h.kind, h.root, ?_, ?_, hn⟩
  · intro c hc
    obtain ⟨⟨d, i⟩, hd, rfl⟩ := List.mem_map.mp hc
    exact h.others d (List.fst_mem_of_mem_zipIdx hd)
  · refine Forest.map_zipIdx (fun p => ?_) h.below 1
    exact ⟨rfl, rfl, rfl⟩

end CodeAtlas.Chunk
