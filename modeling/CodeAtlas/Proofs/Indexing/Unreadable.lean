import CodeAtlas.Proofs.Graph.Reordering
import CodeAtlas.Proofs.Indexing.Filing
import CodeAtlas.Proofs.Source.Lines

/-!
Files that cannot be read any more. They take part in the graph with what is stored of them, but
behind all files that can be read. The graph stays as it is unless a file is moved behind another
with a symbol of the same name.
-/

namespace CodeAtlas.Indexing

open Store
open Chunk (FileTree Namesakes FilesOfNamesakes)

/-- Whether one reading of a folder finds what another found, but cannot read some more of the
files. -/
structure Withheld (x y : Extraction) : Prop where
  files : y.files ⊆ x.files
  found : (y.files.map FileChunks.path ++ y.failed).Perm (x.files.map FileChunks.path ++ x.failed)
  failed : x.failed ⊆ y.failed

/-- Whether a file that cannot be read any more comes to stand behind another that stood behind
it. -/
def MovedBehind (x y : Extraction) (p q : String) : Prop :=
  p ∈ x.files.map FileChunks.path ∧ p ∈ y.failed ∧
    ((q ∈ y.files.map FileChunks.path ∧ p < q) ∨ (q ∈ x.failed ∧ q < p))

section Order

variable {x y : Extraction} {s : Store} {p q : String} {a b : Chunk}

theorem pair_sublist {paths : List String} (h : paths.Pairwise (· < ·)) (hp : p ∈ paths)
    (hq : q ∈ paths) (hpq : p < q) : [p, q].Sublist paths := by
  induction paths with
  | nil => exact absurd hp List.not_mem_nil
  | cons r rest ih =>
    obtain ⟨hr, hrest⟩ := List.pairwise_cons.mp h
    cases List.mem_cons.mp hp with
    | inl he =>
      subst he
      cases List.mem_cons.mp hq with
      | inl he => exact absurd (he ▸ hpq) (String.lt_irrefl p)
      | inr hq => exact (List.singleton_sublist.mpr hq).cons_cons p
    | inr hp =>
      cases List.mem_cons.mp hq with
      | inl he => exact absurd (he ▸ hr p hp) (String.lt_asymm hpq)
      | inr hq => exact (ih hrest hp hq).cons r

theorem sublist_flatMap_of_mem {paths : List String} {chunksOf : String → List Chunk}
    (h : p ∈ paths) : (chunksOf p).Sublist (paths.flatMap chunksOf) := by
  have hsub := (List.singleton_sublist.mpr h).flatMap chunksOf
  rwa [List.flatMap_singleton] at hsub

theorem pair_sublist_flatMap {paths : List String} {chunksOf : String → List Chunk}
    (h : [p, q].Sublist paths) (ha : a ∈ chunksOf p) (hb : b ∈ chunksOf q) :
    [a, b].Sublist (paths.flatMap chunksOf) := by
  apply List.Sublist.trans _ (h.flatMap chunksOf)
  rw [List.flatMap_cons, List.flatMap_singleton]
  exact (List.singleton_sublist.mpr ha).append (List.singleton_sublist.mpr hb)

theorem OfDisk.files_sorted (h : OfDisk x) : (x.files.map FileChunks.path).Pairwise (· < ·) := by
  have hn := h.pathsApart.files
  obtain ⟨w, excluded, root, -, hx⟩ := h
  exact pairwise_lt (List.pairwise_map.mpr (extractAll_sorted hx)) hn

theorem OfDisk.failed_sorted (h : OfDisk x) : x.failed.Pairwise (· < ·) := by
  have hn := (List.nodup_append.mp h.pathsApart).2.1
  obtain ⟨w, excluded, root, -, hx⟩ := h
  exact pairwise_lt (extractAll_failed_sorted hx) hn

theorem lt_or_lt_of_ne (h : p ≠ q) : p < q ∨ q < p := by
  cases String.le_total p q with
  | inl hpq => exact Or.inl (Std.lt_of_le_of_ne hpq h)
  | inr hqp => exact Or.inr (Std.lt_of_le_of_ne hqp h.symm)

theorem Withheld.read_or_failed (hw : Withheld x y) (hp : p ∈ x.files.map FileChunks.path) :
    p ∈ y.files.map FileChunks.path ∨ p ∈ y.failed :=
  List.mem_append.mp (hw.found.mem_iff.mpr (List.mem_append_left x.failed hp))

theorem mem_sortedOf : a ∈ sortedOf s p ↔ a ∈ storedOf s p := (sortedOf_perm s p).mem_iff

theorem sublist_listing_read (hp : p ∈ y.files.map FileChunks.path) (hq : q ∈ y.failed)
    (ha : a ∈ storedOf s p) (hb : b ∈ storedOf s q) : [a, b].Sublist (listing s y) := by
  have hfirst := List.mem_flatMap.mpr ⟨p, hp, ha⟩
  have hsecond := List.mem_flatMap.mpr ⟨q, hq, mem_sortedOf.mpr hb⟩
  exact (List.singleton_sublist.mpr hfirst).append (List.singleton_sublist.mpr hsecond)

theorem sublist_listing_files (hy : OfDisk y) (hp : p ∈ y.files.map FileChunks.path)
    (hq : q ∈ y.files.map FileChunks.path) (hpq : p < q) (ha : a ∈ storedOf s p)
    (hb : b ∈ storedOf s q) : [a, b].Sublist (listing s y) :=
  (pair_sublist_flatMap (pair_sublist hy.files_sorted hp hq hpq) ha hb).trans
    (List.sublist_append_left _ _)

theorem sublist_listing_failed (hy : OfDisk y) (hp : p ∈ y.failed) (hq : q ∈ y.failed) (hpq : p < q)
    (ha : a ∈ storedOf s p) (hb : b ∈ storedOf s q) : [a, b].Sublist (listing s y) :=
  (pair_sublist_flatMap (pair_sublist hy.failed_sorted hp hq hpq) (mem_sortedOf.mpr ha)
    (mem_sortedOf.mpr hb)).trans (List.sublist_append_right _ _)

theorem sublist_listing_own (hp : p ∈ y.failed) : (sortedOf s p).Sublist (listing s y) :=
  (sublist_flatMap_of_mem hp).trans (List.sublist_append_right _ _)

theorem read_pairwise (hx : OfDisk x) (hy : OfDisk y) (hw : Withheld x y) {R : Chunk → Chunk → Prop}
    (hwithin : ∀ p ∈ x.files.map FileChunks.path, (storedOf s p).Pairwise fun a b =>
      R a b → [a, b].Sublist (sortedOf s p))
    (hmoved : ∀ p q, MovedBehind x y p q → ∀ a ∈ storedOf s p, ∀ b ∈ storedOf s q, ¬ R a b) :
    ((x.files.map FileChunks.path).flatMap (storedOf s)).Pairwise fun a b => R a b →
      [a, b].Sublist (listing s y) := by
  apply List.pairwise_flatMap.mpr
  constructor
  · intro p hp
    cases hw.read_or_failed hp with
    | inl hpy =>
      apply List.pairwise_iff_forall_sublist.mpr
      intro a b hab _
      exact hab.trans ((sublist_flatMap_of_mem hpy).trans (List.sublist_append_left _ _))
    | inr hpy =>
      apply (hwithin p hp).imp
      intro a b hab hr
      exact (hab hr).trans (sublist_listing_own hpy)
  · apply hx.files_sorted.imp_of_mem
    intro p q hp hq hpq a ha b hb hr
    cases hw.read_or_failed hp with
    | inl hpy =>
      cases hw.read_or_failed hq with
      | inl hqy => exact sublist_listing_files hy hpy hqy hpq ha hb
      | inr hqy => exact sublist_listing_read hpy hqy ha hb
    | inr hpy =>
      cases hw.read_or_failed hq with
      | inl hqy => exact absurd hr (hmoved p q ⟨hp, hpy, Or.inl ⟨hqy, hpq⟩⟩ a ha b hb)
      | inr hqy => exact sublist_listing_failed hy hpy hqy hpq ha hb

theorem failed_pairwise (hx : OfDisk x) (hy : OfDisk y) (hw : Withheld x y) :
    (x.failed.flatMap (sortedOf s)).Pairwise fun a b => [a, b].Sublist (listing s y) := by
  apply List.pairwise_flatMap.mpr
  constructor
  · intro p hp
    apply List.pairwise_iff_forall_sublist.mpr
    intro a b hab
    exact hab.trans (sublist_listing_own (hw.failed hp))
  · apply hx.failed_sorted.imp_of_mem
    intro p q hp hq hpq a ha b hb
    exact sublist_listing_failed hy (hw.failed hp) (hw.failed hq) hpq (mem_sortedOf.mp ha)
      (mem_sortedOf.mp hb)

/-- Chunks keep their order when files cannot be read any more, unless one is of a file that is
moved behind that of the other, or the chunks of one file are sorted in another way. -/
theorem listing_pairwise (hx : OfDisk x) (hy : OfDisk y) (hw : Withheld x y)
    {R : Chunk → Chunk → Prop}
    (hwithin : ∀ p ∈ x.files.map FileChunks.path, (storedOf s p).Pairwise fun a b =>
      R a b → [a, b].Sublist (sortedOf s p))
    (hmoved : ∀ p q, MovedBehind x y p q → ∀ a ∈ storedOf s p, ∀ b ∈ storedOf s q, ¬ R a b) :
    (listing s x).Pairwise fun a b => R a b → [a, b].Sublist (listing s y) := by
  apply List.pairwise_append.mpr
  refine ⟨read_pairwise hx hy hw hwithin hmoved,
    List.Pairwise.imp ?_ (failed_pairwise (s := s) hx hy hw), ?_⟩
  · exact fun hab _ => hab
  · intro a ha b hb hr
    obtain ⟨p, hp, ha⟩ := List.mem_flatMap.mp ha
    obtain ⟨q, hq, hb⟩ := List.mem_flatMap.mp hb
    have hb := mem_sortedOf.mp hb
    cases hw.read_or_failed hp with
    | inl hpy => exact sublist_listing_read hpy (hw.failed hq) ha hb
    | inr hpy =>
      -- both are among the files that cannot be read, by their paths
      have hne : p ≠ q := by
        intro he
        exact (List.nodup_append.mp hx.pathsApart).2.2 p hp q hq he
      cases lt_or_lt_of_ne hne with
      | inl hpq => exact sublist_listing_failed hy hpy (hw.failed hq) hpq ha hb
      | inr hqp => exact absurd hr (hmoved p q ⟨hp, hpy, Or.inr ⟨hq, hqp⟩⟩ a ha b hb)

theorem flatMap_sortedOf_perm (paths : List String) :
    (paths.flatMap (sortedOf s)).Perm (paths.flatMap (storedOf s)) :=
  List.Perm.flatMap (List.Perm.refl paths) fun p _ => sortedOf_perm s p

theorem listing_perm_stored (s : Store) (x : Extraction) :
    (listing s x).Perm ((x.files.map FileChunks.path ++ x.failed).flatMap (storedOf s)) := by
  rw [List.flatMap_append]
  exact (flatMap_sortedOf_perm x.failed).append_left _

theorem Withheld.listing_perm (hw : Withheld x y) (s : Store) :
    (listing s x).Perm (listing s y) := by
  apply (listing_perm_stored s x).trans
  apply List.Perm.trans _ (listing_perm_stored s y).symm
  exact hw.found.symm.flatMap_right _

end Order

section Names

variable {embed : Embedder} {past : List Extraction} {x y : Extraction} {s : Store} {p q : String}
  {a b c : Chunk}

theorem OfDisk.exists_source (h : OfDisk x) {f : FileChunks} (hf : f ∈ x.files) :
    ∃ (file : Source.File) (l : Source.Language), file.root.WellFormed l file.bytes.length ∧
      f.chunks = file.chunks l := by
  obtain ⟨w, excluded, root, hw, hx⟩ := h
  obtain ⟨place, entry, l, hg, hl, he⟩ := mem_extractAll hx hf
  exact ⟨⟨f.path, entry.bytes, entry.root⟩, l, hw.trees place entry l (mem_of_get? hg) hl,
    congrArg FileChunks.chunks he⟩

theorem stored_eq_of_id (hs : s.tables.Sound) (ha : a ∈ storedOf s p) (hb : b ∈ storedOf s q)
    (h : a.id = b.id) : a = b := by
  obtain ⟨-, r, hr, rfl⟩ := mem_storedOf.mp ha
  obtain ⟨-, r', hr', rfl⟩ := mem_storedOf.mp hb
  rw [hs.row_eq_of_id hr hr' h]

theorem path_of_mem_storedOf (h : a ∈ storedOf s p) : a.path = p := (mem_storedOf.mp h).1

theorem storedOf_ids (hs : s.tables.Sound) (p : String) : ((storedOf s p).map Chunk.id).Nodup := by
  rw [storedOf, List.map_map]
  exact hs.ids.sublist (List.filter_sublist.map _)

theorem listing_ids (hs : s.tables.Sound) (hx : OfDisk x) : ((listing s x).map Chunk.id).Nodup := by
  rw [((listing_perm_stored s x).map Chunk.id).nodup_iff]
  apply List.pairwise_map.mpr
  apply List.pairwise_flatMap.mpr
  refine ⟨fun p _ => List.pairwise_map.mp (storedOf_ids hs p), ?_⟩
  apply hx.pathsApart.imp
  intro p q hpq a ha b hb hid
  have he := stored_eq_of_id hs ha hb hid
  exact hpq ((path_of_mem_storedOf ha).symm.trans (he ▸ path_of_mem_storedOf hb))

theorem exists_of_mem_listing (h : a ∈ listing s x) : ∃ p, a ∈ storedOf s p := by
  obtain ⟨p, -, hp⟩ := List.mem_flatMap.mp ((listing_perm_stored s x).mem_iff.mp h)
  exact ⟨p, hp⟩

theorem exists_fileTree (hs : Kept embed s) (hf : Filed past s) (hdisk : ∀ z ∈ past, OfDisk z)
    (hc : c ∈ storedOf s p) : ∃ file rest, storedOf s p = file :: rest ∧ FileTree file rest := by
  cases ht : s.fileTime? p with
  | none =>
    rw [storedOf_eq_nil hs ht] at hc
    exact absurd hc List.not_mem_nil
  | some time =>
    obtain ⟨z, hz, f, hfz, -, -, he⟩ := hf p time ((fileTime?_eq_some hs).mp ht)
    obtain ⟨source, l, hw, hchunks⟩ := (hdisk z hz).exists_source hfz
    rw [he, hchunks]
    exact Source.File.chunks_shape source l hw

theorem path_of_parent (hs : Kept embed s) (hf : Filed past s) (hdisk : ∀ z ∈ past, OfDisk z)
    (ha : a ∈ storedOf s p) (hc : c ∈ storedOf s q) (h : a.parent = some c.id) : p = q := by
  obtain ⟨file, rest, he, ht⟩ := exists_fileTree hs hf hdisk ha
  have hm := ha
  rw [he] at hm
  cases List.mem_cons.mp hm with
  | inl hfile =>
    rw [hfile, ht.root] at h
    exact absurd h nofun
  | inr hrest =>
    obtain ⟨d, hd, hp, -⟩ := ht.parent hrest
    have hdp : d ∈ storedOf s p := he ▸ hd
    have hid : d.id = c.id := Option.some.inj (hp.symm.trans h)
    rw [← path_of_mem_storedOf hdp, stored_eq_of_id hs.sound hdp hc hid, path_of_mem_storedOf hc]

theorem signed_le {m n : Nat} (hm : m < 2 ^ 63) (hn : n < 2 ^ 63) (h : m ≤ n) :
    signed m ≤ signed n := by
  have hm' : m < UInt64.size / 2 := hm
  have hn' : n < UInt64.size / 2 := hn
  rw [signed, signed, if_pos hm', if_pos hn']
  omega

theorem pair_sublist_sortedOf (h : [a, b].Sublist (storedOf s p))
    (hab : signed a.startLine ≤ signed b.startLine) : [a, b].Sublist (sortedOf s p) := by
  apply List.pair_sublist_mergeSort _ _ _ h
  · intro c d e hcd hde
    rw [decide_eq_true_eq] at hcd hde ⊢
    omega
  · intro c d
    rw [Bool.or_eq_true, decide_eq_true_eq, decide_eq_true_eq]
    omega
  · exact decide_eq_true hab

/-- The symbols of a file keep their order when its chunks are sorted by their first lines. -/
theorem pairwise_sortedOf (hx : OfDisk x) {f : FileChunks} (hf : f ∈ x.files)
    (hread : storedOf s f.path = f.chunks) (hlines : ∀ c ∈ x.chunks, c.startLine < 2 ^ 63) :
    (storedOf s f.path).Pairwise fun a b => Namesakes a b → [a, b].Sublist (sortedOf s f.path) := by
  have hline : ∀ c ∈ storedOf s f.path, c.startLine < 2 ^ 63 :=
    fun c hc => hlines c (Complete.mem_chunks hf (hread ▸ hc))
  have hsorted : (storedOf s f.path).Pairwise Source.File.InLines := by
    obtain ⟨source, l, hw, hchunks⟩ := hx.exists_source hf
    rw [hread, hchunks]
    exact Source.File.chunks_inLines source l hw
  rw [List.pairwise_iff_forall_sublist] at hsorted ⊢
  intro a b hab hnamesakes
  obtain ⟨name, ha, hb⟩ := hnamesakes
  apply pair_sublist_sortedOf hab
  exact signed_le (hline a (hab.subset (by simp))) (hline b (hab.subset (by simp)))
    (hsorted hab ha.1 hb.1)

theorem pairwise_not_files (hs : Kept embed s) (hf : Filed past s) (hdisk : ∀ z ∈ past, OfDisk z)
    (p : String) (cs : List Chunk) :
    (storedOf s p).Pairwise fun a b => ¬ FilesOfNamesakes cs a b := by
  cases hp : storedOf s p with
  | nil => exact List.Pairwise.nil
  | cons c rest =>
    obtain ⟨file, others, he, ht⟩ :=
      exists_fileTree hs hf hdisk (hp ▸ List.mem_cons_self : c ∈ storedOf s p)
    obtain ⟨rfl, rfl⟩ := List.cons.inj (hp.symm.trans he)
    apply List.pairwise_cons.mpr
    refine ⟨fun d hd hr => ht.others d hd hr.2.1, ?_⟩
    apply List.pairwise_of_forall_mem_list
    exact fun d hd e _ hr => ht.others d hd hr.1

/-- The chunks of the graph come in another order, which matters to no name. -/
theorem reordered_listing (hs : Kept embed s) (hf : Filed past s) (hdisk : ∀ z ∈ past, OfDisk z)
    (hx : OfDisk x) (hy : OfDisk y) (hw : Withheld x y)
    (hread : ∀ f ∈ x.files, storedOf s f.path = f.chunks)
    (hlines : ∀ c ∈ x.chunks, c.startLine < 2 ^ 63)
    (hnames : ∀ p q, MovedBehind x y p q → ∀ a ∈ storedOf s p, ∀ b ∈ storedOf s q,
      ¬ Namesakes a b) :
    Inference.Reordered (listing s x) (listing s y) := by
  have hsymbols : (listing s x).Pairwise fun a b => Namesakes a b →
      [a, b].Sublist (listing s y) := by
    apply listing_pairwise hx hy hw _ hnames
    intro p hp
    obtain ⟨f, hfx, rfl⟩ := List.mem_map.mp hp
    exact pairwise_sortedOf hx hfx (hread f hfx) hlines
  have hfiles : (listing s x).Pairwise fun f g =>
      FilesOfNamesakes (listing s x) f g → [f, g].Sublist (listing s y) := by
    apply listing_pairwise hx hy hw
    · intro p _
      exact (pairwise_not_files hs hf hdisk p _).imp fun hn hr => absurd hr hn
    · intro p q hpq f hfp g hgq hr
      obtain ⟨-, -, a, ha, b, hb, hfa, hgb, hab⟩ := hr
      obtain ⟨p', hap⟩ := exists_of_mem_listing ha
      obtain ⟨q', hbq⟩ := exists_of_mem_listing hb
      obtain rfl := path_of_parent hs hf hdisk hap hfp hfa
      obtain rfl := path_of_parent hs hf hdisk hbq hgq hgb
      exact hnames _ _ hpq a hap b hbq hab
  rw [List.pairwise_iff_forall_sublist] at hsymbols hfiles
  exact ⟨hw.listing_perm s, listing_ids hs.sound hx, fun a b hab hsub => hsymbols hsub hab,
    fun f g hfg hsub => hfiles hsub hfg⟩

end Names

section Run

variable {embed : Embedder} {x y : Extraction} {s : Store} {w : Workspace} {excluded : List Glob}
  {root : Place}

theorem run_of_skipped (hs : Kept embed s)
    (hskip : ∀ f ∈ y.files, changeOf s.files false f = .skipped)
    (hgone : goneFiles s.files y = []) : ∃ summary, run embed false y s =
      (s.sync (Graph.ofChunks (y.chunks ++ y.failed.flatMap (sortedOf s))), .ok summary) := by
  have hnone : (y.files.filter fun f => changeOf s.files false f != .skipped) = [] := by
    rw [List.filter_eq_nil_iff]
    intro f hf
    simp [hskip f hf]
  unfold run
  dsimp only
  rw [retained_eq hs]
  dsimp only
  rw [hnone, hgone]
  exact ⟨_, rfl⟩

/-- If files cannot be read any more, the next run only writes the graph. -/
theorem runAt_withheld (hs : Settled embed x s) (hy : extractAll w excluded root = .ok y)
    (hw : Withheld x y) :
    ∃ summary, runAt embed false w excluded root s =
      (s.sync (Graph.ofChunks (listing s y)), .ok summary) := by
  have hskip : ∀ f ∈ y.files, changeOf s.files false f = .skipped := by
    intro f hf
    obtain ⟨time, ht, hsec⟩ := hs.times f (hw.files hf)
    exact changeOf_of_recorded hs.kept ht hsec
  have hgone : goneFiles s.files y = [] := by
    apply List.eq_nil_iff_forall_not_mem.mpr
    intro path hm
    obtain ⟨hp, hn⟩ := mem_goneFiles_iff.mp hm
    exact hn (hw.found.mem_iff.mpr (hs.recorded path hp))
  have hlisting : y.chunks ++ y.failed.flatMap (sortedOf s) = listing s y := by
    rw [listing, List.flatMap_map, Extraction.chunks, List.flatMap_congr fun f hf => hs.stored f
      (hw.files hf)]
  obtain ⟨summary, h⟩ := run_of_skipped hs.kept hskip hgone
  rw [hlisting] at h
  refine ⟨summary, ?_⟩
  rw [runAt, hy]
  exact h

/-- If files cannot be read any more, the next run leaves the dependencies and the places of all
chunks as they are, provided that no file is moved behind another with a symbol of the same name. As
elsewhere, times tell contents apart in whole seconds. -/
theorem runAt_undisturbed {dimensions : Nat} {past : List Extraction} (hw : Works embed dimensions)
    (hs : History embed dimensions (x :: past) s) (hdisk : ∀ z ∈ x :: past, OfDisk z)
    (hsteady : ∀ z ∈ past, Steady Instant.seconds x z) (hwd : OnDisk w)
    (hy : extractAll w excluded root = .ok y) (hwithheld : Withheld x y)
    (hlines : ∀ c ∈ x.chunks, c.startLine < 2 ^ 63)
    (hnames : ∀ p q, MovedBehind x y p q → ∀ a ∈ storedOf s p, ∀ b ∈ storedOf s q,
      ¬ Namesakes a b) :
    ∃ s' summary, runAt embed false w excluded root s = (s', .ok summary) ∧
      (s'.tables.edges.map EdgeRow.key).Perm (s.tables.edges.map EdgeRow.key) ∧
      s'.tables.chunks = s.tables.chunks := by
  have hsettled := settled_of_history hs hw hdisk hsteady
  obtain ⟨summary, hrun⟩ := runAt_withheld hsettled hy hwithheld
  have hreordered :=
    reordered_listing hsettled.kept (filed_of_history hs hw hdisk) hdisk
      (hdisk x List.mem_cons_self)
    ⟨w, excluded, root, hwd, hy⟩ hwithheld hsettled.stored hlines hnames
  refine ⟨_, summary, hrun, ?_, ?_⟩
  · rw [edges_sync, hsettled.edges, Tables.ofEdge_keys, Tables.ofEdge_keys]
    exact hreordered.edges_perm.symm.map _
  · have hsame : ∀ r ∈ s.tables.chunks,
        ({ r with profile := profileIn (Graph.ofChunks (listing s y)) r.chunk.id } : ChunkRow) =
            r := by
      intro r hm
      have hprofile : profileIn (Graph.ofChunks (listing s y)) r.chunk.id = r.profile := by
        rw [hsettled.places r hm, profileIn, profileIn, hreordered.profile_eq]
      rw [hprofile]
    exact (List.map_congr_left hsame).trans (List.map_id' _)

end Run

section UnreadableFile

def heirFile : FileEntry where
  bytes := "class B(A): pass\n".toList.map fun c => c.toNat.toUInt8
  root := .node { kind := "module", first := 0, last := 17 }
    [.node { kind := "class_definition", first := 0, last := 16 }
      [.node { kind := "identifier", first := 6, last := 7, field := some "name" } [],
      .node { kind := "argument_list", first := 7, last := 10, field := some "superclasses" }
        [.node { kind := "identifier", first := 8, last := 9 } []],
      .node { kind := "block", first := 12, last := 16, field := some "body" } []]]
  modified := { seconds := 1 }

def namesakeFile : FileEntry :=
  { heirFile with bytes := "class A(A): pass\n".toList.map fun c => c.toNat.toUInt8 }

theorem heirFile_wellFormed : heirFile.root.WellFormed .python heirFile.bytes.length := by
  decide

theorem namesakeFile_wellFormed :
    namesakeFile.root.WellFormed .python namesakeFile.bytes.length := by
  decide

def folderWithout (f : FileEntry) : Workspace where
  entries := [(["a.py"], .broken), (["b.py"], .file f)]

def readWithout (f : FileEntry) : Extraction where
  files := [⟨"b.py", f.modified, Source.File.chunks ⟨"b.py", f.bytes, f.root⟩ .python⟩]
  failed := ["a.py"]

theorem ofResults_unreadable (f : FileChunks) :
    Extraction.ofResults [("a.py", .error .notFound), ("b.py", .ok f)] =
      .ok { files := [f], failed := ["a.py"] } := by
  cbv

theorem extractAll_folderWithout (f : FileEntry) :
    extractAll (folderWithout f) [] [] = .ok (readWithout f) := by
  have hfiles : sourceFiles (folderWithout f) [] [] = [("a.py", ["a.py"]), ("b.py", ["b.py"])] := by
    cbv
  rw [extractAll, hfiles]
  exact ofResults_unreadable _

variable {f : FileEntry}

theorem ofDisk_readWith (hf : f.root.WellFormed .python f.bytes.length) : OfDisk (readWith f) :=
  ⟨folderWith f, [], [], folderWith_onDisk hf, extractAll_folderWith f⟩

theorem folderWithout_onDisk (hf : f.root.WellFormed .python f.bytes.length) :
    OnDisk (folderWithout f) where
  places := (folderWith_onDisk hf).places
  plain := by
    intro e he
    have hplace : e.1 ∈ (folderWithout f).entries.map Prod.fst := List.mem_map_of_mem he
    obtain ⟨d, hd, hp⟩ :=
      List.mem_map.mp (show e.1 ∈ (folderWith f).entries.map Prod.fst from hplace)
    exact hp ▸ (folderWith_onDisk hf).plain d hd
  trees := by
    intro place entry l hm hl
    cases List.mem_pair.mp hm with
    | inl he => exact absurd (Prod.mk.inj he).2 nofun
    | inr he => exact (folderWith_onDisk hf).trees place entry l (List.mem_pair.mpr (Or.inr he)) hl

theorem withheld_readWith (f : FileEntry) : Withheld (readWith f) (readWithout f) where
  files := List.subset_cons_self _ _
  found := List.Perm.swap "a.py" "b.py" []
  failed := List.nil_subset _

def storeOn (f : FileEntry) : Store := storeWith f { dimensions := 1 }

theorem history_storeOn (f : FileEntry) : History constantEmbedder 1 [readWith f] (storeOn f) :=
  history_storeWith (.empty rfl) f

theorem all_ofDisk (hf : f.root.WellFormed .python f.bytes.length) :
    ∀ z ∈ [readWith f], OfDisk z := by
  intro z hz
  obtain rfl := List.mem_singleton.mp hz
  exact ofDisk_readWith hf

theorem settled_storeOn (hf : f.root.WellFormed .python f.bytes.length) :
    Settled constantEmbedder (readWith f) (storeOn f) :=
  settled_of_history (history_storeOn f) constantEmbedder_works (all_ofDisk hf) fun _ hz =>
    absurd hz List.not_mem_nil

def firstChunks : List Chunk :=
  Source.File.chunks ⟨"a.py", declaringFile.bytes, declaringFile.root⟩ .python

def secondChunks (f : FileEntry) : List Chunk :=
  Source.File.chunks ⟨"b.py", f.bytes, f.root⟩ .python

theorem storedOf_first (hf : f.root.WellFormed .python f.bytes.length) :
    storedOf (storeOn f) "a.py" = firstChunks :=
  (settled_storeOn hf).stored _ List.mem_cons_self

theorem storedOf_second (hf : f.root.WellFormed .python f.bytes.length) :
    storedOf (storeOn f) "b.py" = secondChunks f :=
  (settled_storeOn hf).stored _ (List.mem_cons_of_mem _ List.mem_cons_self)

theorem firstChunks_answers : firstChunks.map (fun c => (c.startLine, c.answers)) =
    [(1, []), (1, ["A", "A"]), (1, []), (2, ["f", "A.f"])] := by
  refine (Chunk.link_map (fun _ _ _ => rfl) _).trans ?_
  decide +kernel

theorem heirFile_answers : (secondChunks heirFile).map (fun c => (c.startLine, c.answers)) =
    [(1, []), (1, ["B", "B"])] := by
  refine (Chunk.link_map (fun _ _ _ => rfl) _).trans ?_
  decide +kernel

theorem namesakeFile_heads :
    (secondChunks namesakeFile).map (fun c => (c.startLine, c.id, c.kind, c.declaration.base)) =
      [(1, "b.py#file:0-17", .file, none), (1, "b.py#container:0-16", .container, some "A")] := by
  refine (Chunk.link_map (fun _ _ _ => rfl) _).trans ?_
  decide +kernel

theorem typeNamed?_firstChunks :
    (Resolution.typeNamed? firstChunks "A").map Chunk.id = some "a.py#container:0-27" := by
  decide +kernel

theorem typeNamed?_namesakeFile :
    (Resolution.typeNamed? (secondChunks namesakeFile) "A").map Chunk.id =
      some "b.py#container:0-16" := by
  decide +kernel

theorem startLine_lt {cs : List Chunk} {α : Type} {g : Chunk → α} {heads : List (Nat × α)}
    (h : cs.map (fun c => (c.startLine, g c)) = heads) (hlt : ∀ p ∈ heads, p.1 < 2 ^ 63) {c : Chunk}
    (hc : c ∈ cs) : c.startLine < 2 ^ 63 := by
  have hm := List.mem_map_of_mem (f := fun c => (c.startLine, g c)) hc
  rw [h] at hm
  exact hlt _ hm

theorem mem_chunks_readWith {c : Chunk} :
    c ∈ (readWith f).chunks ↔ c ∈ firstChunks ∨ c ∈ secondChunks f := by
  rw [readWith, Extraction.chunks, List.flatMap_cons, List.flatMap_singleton, List.mem_append]
  rfl

/-- The class is found although it stands in a file that cannot be read any more. -/
theorem runAt_undisturbed_heirFile :
    ∃ s' summary, runAt constantEmbedder false (folderWithout heirFile) [] [] (storeOn heirFile) =
        (s', .ok summary) ∧
      (s'.tables.edges.map EdgeRow.key).Perm ((storeOn heirFile).tables.edges.map EdgeRow.key) ∧
      s'.tables.chunks = (storeOn heirFile).tables.chunks := by
  apply runAt_undisturbed constantEmbedder_works (history_storeOn heirFile)
    (all_ofDisk heirFile_wellFormed)
    (fun _ hz => absurd hz List.not_mem_nil) (folderWithout_onDisk heirFile_wellFormed)
    (extractAll_folderWithout heirFile) (withheld_readWith heirFile)
  · intro c hc
    cases mem_chunks_readWith.mp hc with
    | inl hc => exact startLine_lt firstChunks_answers (by decide) hc
    | inr hc => exact startLine_lt heirFile_answers (by decide) hc
  · intro p q hpq a ha b hb hab
    obtain ⟨-, hp, hq | hq⟩ := hpq
    · obtain rfl : p = "a.py" := List.mem_singleton.mp hp
      obtain rfl : q = "b.py" := List.mem_singleton.mp hq.1
      rw [storedOf_first heirFile_wellFormed] at ha
      rw [storedOf_second heirFile_wellFormed] at hb
      obtain ⟨name, hna, hnb⟩ := hab
      have hfirst := List.mem_map_of_mem (f := fun c => (c.startLine, c.answers)) ha
      have hsecond := List.mem_map_of_mem (f := fun c => (c.startLine, c.answers)) hb
      rw [firstChunks_answers] at hfirst
      rw [heirFile_answers] at hsecond
      have hnone : ∀ d ∈ [(1, []), (1, ["A", "A"]), (1, []), (2, ["f", "A.f"])],
          ∀ e ∈ [(1, []), (1, ["B", "B"])], ∀ n ∈ d.2, n ∉ e.2 := by decide
      exact hnone _ hfirst _ hsecond name (Chunk.mem_answers.mpr hna) (Chunk.mem_answers.mpr hnb)
    · exact absurd hq.1 List.not_mem_nil

theorem listing_readWith (hf : f.root.WellFormed .python f.bytes.length) :
    listing (storeOn f) (readWith f) = firstChunks ++ secondChunks f := by
  have hfiles : (readWith f).files.map FileChunks.path = ["a.py", "b.py"] := rfl
  have hfailed : (readWith f).failed = [] := rfl
  rw [listing, hfiles, hfailed, List.flatMap_cons, List.flatMap_singleton, storedOf_first hf,
    storedOf_second hf, List.flatMap_nil, List.append_nil]

theorem listing_readWithout (hf : f.root.WellFormed .python f.bytes.length) :
    listing (storeOn f) (readWithout f) = secondChunks f ++ sortedOf (storeOn f) "a.py" := by
  have hfiles : (readWithout f).files.map FileChunks.path = ["b.py"] := rfl
  have hfailed : (readWithout f).failed = ["a.py"] := rfl
  rw [listing, hfiles, hfailed, List.flatMap_singleton, List.flatMap_singleton, storedOf_second hf]

theorem exists_namesake : ∃ c ∈ secondChunks namesakeFile, c.id = "b.py#container:0-16" ∧
    c.kind = .container ∧ c.declaration.base = some "A" := by
  have hm : (1, "b.py#container:0-16", ChunkKind.container, some "A") ∈
      (secondChunks namesakeFile).map fun c => (c.startLine, c.id, c.kind, c.declaration.base) := by
    rw [namesakeFile_heads]
    exact List.mem_cons_of_mem _ List.mem_cons_self
  obtain ⟨c, hc, he⟩ := List.mem_map.mp hm
  obtain ⟨-, he⟩ := Prod.mk.inj he
  obtain ⟨hid, he⟩ := Prod.mk.inj he
  exact ⟨c, hc, hid, (Prod.mk.inj he).1, (Prod.mk.inj he).2⟩

theorem extends_before (hn : ((firstChunks ++ secondChunks namesakeFile).map Chunk.id).Nodup) :
    ("b.py#container:0-16", "a.py#container:0-27", .inherits) ∈
      (Graph.ofChunks (firstChunks ++ secondChunks namesakeFile)).edges.map Dependency.key := by
  obtain ⟨c, hc, hid, hkind, hbase⟩ := exists_namesake
  obtain ⟨t, ht, htid⟩ := Option.map_eq_some_iff.mp typeNamed?_firstChunks
  rw [Inference.mem_edges_heritage hn rfl]
  exact ⟨by decide, c, List.mem_append_right _ hc, hkind, hid, "A", Option.mem_toList.mpr hbase, t,
    Resolution.resolveType?_append ht, htid⟩

theorem not_extends_after {more : List Chunk}
    (hn : ((secondChunks namesakeFile ++ more).map Chunk.id).Nodup) :
    ("b.py#container:0-16", "a.py#container:0-27", .inherits) ∉
      (Graph.ofChunks (secondChunks namesakeFile ++ more)).edges.map Dependency.key := by
  rw [Inference.mem_edges_heritage hn rfl]
  intro ⟨_, c, hc, _, hid, written, hwritten, t, ht, htid⟩
  obtain ⟨d, hd, hdid, -, hbase⟩ := exists_namesake
  obtain rfl := Chunk.eq_of_id_eq hn hc (List.mem_append_left _ hd) (hid.trans hdid.symm)
  obtain rfl := Option.some.inj ((Option.mem_toList.mp hwritten).symm.trans hbase)
  obtain ⟨u, hu, huid⟩ := Option.map_eq_some_iff.mp typeNamed?_namesakeFile
  obtain rfl := Option.some.inj (ht.symm.trans (Resolution.resolveType?_append hu))
  exact absurd (htid.symm.trans huid) (by decide)

/-- Where the second file has a class of the same name, it is this class that is found after the
run. -/
theorem disturbed_namesakeFile :
    Works constantEmbedder 1 ∧ History constantEmbedder 1 [readWith namesakeFile]
      (storeOn namesakeFile) ∧
      (∀ z ∈ [readWith namesakeFile], OfDisk z) ∧ OnDisk (folderWithout namesakeFile) ∧
      extractAll (folderWithout namesakeFile) [] [] = .ok (readWithout namesakeFile) ∧
      Withheld (readWith namesakeFile) (readWithout namesakeFile) ∧
      (∀ c ∈ (readWith namesakeFile).chunks, c.startLine < 2 ^ 63) ∧
      ∃ s' summary, runAt constantEmbedder false (folderWithout namesakeFile) [] []
          (storeOn namesakeFile) = (s', .ok summary) ∧
        ∃ key ∈ (storeOn namesakeFile).tables.edges.map EdgeRow.key,
            key ∉ s'.tables.edges.map EdgeRow.key := by
  have hwf := namesakeFile_wellFormed
  have hsettled := settled_storeOn hwf
  obtain ⟨summary, hrun⟩ := runAt_withheld hsettled (extractAll_folderWithout namesakeFile)
    (withheld_readWith namesakeFile)
  refine ⟨constantEmbedder_works, history_storeOn namesakeFile, all_ofDisk hwf,
    folderWithout_onDisk hwf, extractAll_folderWithout namesakeFile, withheld_readWith namesakeFile,
    ?_, _, summary, hrun, ("b.py#container:0-16", "a.py#container:0-27", "EXTENDS"), ?_, ?_⟩
  · intro c hc
    cases mem_chunks_readWith.mp hc with
    | inl hc => exact startLine_lt firstChunks_answers (by decide) hc
    | inr hc => exact startLine_lt namesakeFile_heads (by decide) hc
  · have hn := listing_ids hsettled.kept.sound (ofDisk_readWith hwf)
    rw [listing_readWith hwf] at hn
    rw [hsettled.edges, listing_readWith hwf, Tables.ofEdge_keys]
    exact List.mem_map_of_mem (extends_before hn)
  · have hn := listing_ids hsettled.kept.sound
      ⟨folderWithout namesakeFile, [], [], folderWithout_onDisk hwf,
      extractAll_folderWithout namesakeFile⟩
    rw [listing_readWithout hwf] at hn
    rw [edges_sync, listing_readWithout hwf, Tables.ofEdge_keys]
    intro hm
    exact not_extends_after hn ((List.mem_map_of_injective Tables.rowKey_injective).mp hm)

end UnreadableFile

end CodeAtlas.Indexing
