import CodeAtlas.Proofs.Indexing.Endpoints
import CodeAtlas.Proofs.Store.Consistency

/-!
Runs that fail half way. A file is embedded before what is stored of it is removed, so that an
embedder that gives up costs nothing; but it is removed before the store has looked at the
embeddings, so that a file whose embeddings are refused is lost. No other file is.
-/

namespace CodeAtlas.Indexing

open Store

/-- Whether a store holds of a file what it held before, or else all that was read of it, which is
not nothing. -/
def Intact (s s' : Store) (f : FileChunks) : Prop :=
  (∀ id, Stores s' f.path id ↔ Stores s f.path id) ∨
    (f.chunks ≠ [] ∧ ∀ id, Stores s' f.path id ↔ id ∈ f.chunks.map Chunk.id)

/-- Whether an embedder answers for a file, but with a vector that the store or its tables have no
place for. -/
def Refused (embed : Embedder) (s : Store) (f : FileChunks) : Prop :=
  ∃ vectors, embed.embedAll (f.chunks.map Chunk.embeddingText) = .ok vectors ∧
    ∃ v ∈ vectors, v.length ≠ s.dimensions ∨ v.length ≠ s.tables.width

variable {embed : Embedder} {g : Graph} {s s' : Store} {path id : String} {e : Failure}

section Failing

variable {f : FileChunks} {fs : List FileChunks}

theorem deleteFile_stores (s : Store) (gone : String) :
    Stores (s.deleteFile gone).2 path id ↔ path ≠ gone ∧ Stores s path id := by
  unfold Stores
  rw [(deleteFile_eq s gone).1]
  constructor
  · rintro ⟨r, hr, rfl, hi⟩
    obtain ⟨hr, hne⟩ := List.mem_filter.mp hr
    exact ⟨by simpa using hne, r, hr, rfl, hi⟩
  · rintro ⟨hne, r, hr, rfl, hi⟩
    exact ⟨r, List.mem_filter.mpr ⟨hr, by simpa using hne⟩, rfl, hi⟩

/-- A file that cannot be stored leaves the store as it was if it cannot be embedded, and is removed
if its embeddings are refused. -/
theorem storeFile_error (hs : s.tables.Sound) (h : storeFile embed g s f = (s', .error e)) :
    s' = s ∨ (Refused embed s f ∧ s' = (s.deleteFile f.path).2) := by
  unfold storeFile at h
  split at h
  · exact Or.inl (Prod.mk.inj h).1.symm
  · rename_i vectors hv
    dsimp only at h
    split at h
    · rename_i hw
      refine Or.inr ⟨⟨vectors, hv, ?_⟩, (Prod.mk.inj h).1.symm⟩
      by_contra hnone
      -- with the right lengths the chunks would have been written
      obtain ⟨htables, hdims⟩ := deleteFile_eq s f.path
      have hlens : ∀ v ∈ vectors, v.length = (s.deleteFile f.path).2.dimensions ∧
          v.length = (s.deleteFile f.path).2.tables.width := by
        intro v hm
        rw [htables, hdims]
        by_contra hne
        exact hnone ⟨v, hm, not_and_or.mp hne⟩
      obtain ⟨written, hok⟩ :=
        insert_ok (g := g) (htables ▸ Tables.removeFile_sound hs) (length_of_embedAll hv) hlens
      exact absurd (hw.symm.trans hok) nofun
    · exact absurd (Prod.mk.inj h).2 nofun

theorem storeFile_of_wrongLength {vectors : List Embedding}
    (hv : embed.embedAll (f.chunks.map Chunk.embeddingText) = .ok vectors)
    (hne : ∃ v ∈ vectors, v.length ≠ s.dimensions) :
    ∃ reason, storeFile embed g s f = ((s.deleteFile f.path).2, .error (.invalidInput reason)) := by
  have hdims := (deleteFile_eq s f.path).2
  obtain ⟨reason, hr⟩ := (insert_eq_invalidInput (s.deleteFile f.path).2 f.chunks vectors g).mpr
    (Or.inr (hdims.symm ▸ hne))
  refine ⟨reason, ?_⟩
  unfold storeFile
  rw [hv]
  dsimp only
  rw [hr]

/-- Files are stored up to the first that cannot be. -/
theorem storeFiles_error (h : storeFiles embed g s fs = (s', .error e)) :
    ∃ before f after mid, fs = before ++ f :: after ∧ storeFiles embed g s before = (mid, .ok ()) ∧
      storeFile embed g mid f = (s', .error e) := by
  induction fs generalizing s with
  | nil => exact absurd (Prod.mk.inj h).2 nofun
  | cons f rest ih =>
    rw [storeFiles] at h
    split at h
    · rename_i failed err hf
      obtain ⟨rfl, he⟩ := Prod.mk.inj h
      obtain rfl := Except.error.inj he
      exact ⟨[], f, rest, s, rfl, rfl, hf⟩
    · rename_i next hn
      obtain ⟨before, d, after, mid, rfl, hb, hd⟩ := ih h
      refine ⟨f :: before, d, after, mid, rfl, ?_, hd⟩
      rw [storeFiles, hn]
      exact hb

end Failing

section Run

variable {force : Bool} {w : Workspace} {excluded : List Glob} {root : Place} {x : Extraction}

theorem run_error (hs : s.tables.Sound) (h : run embed force x s = (s', .error e)) :
    ∃ g, storeFiles embed g s (storedFiles s force x) = (s', .error e) := by
  obtain ⟨old, hold, -⟩ := exists_retained hs x.failed
  unfold run at h
  dsimp only at h
  rw [hold] at h
  dsimp only at h
  split at h
  · rename_i stored err hstored
    obtain ⟨rfl, he⟩ := Prod.mk.inj h
    obtain rfl := Except.error.inj he
    exact ⟨_, hstored⟩
  · exact absurd (Prod.mk.inj h).2 nofun

theorem chunks_ne_nil (hx : extractAll w excluded root = .ok x) {f : FileChunks}
    (hf : f ∈ x.files) : f.chunks ≠ [] := by
  obtain ⟨place, entry, l, -, -, he⟩ := mem_extractAll hx hf
  intro hnil
  have hids := Chunk.link_map_id (Source.File.tree ⟨f.path, entry.bytes, entry.root⟩ l)
  rw [he] at hnil
  have hlinked : Reference.link (Source.File.tree ⟨f.path, entry.bytes, entry.root⟩ l) = [] := hnil
  rw [hlinked] at hids
  exact absurd hids nofun

/-- Storing some files leaves every file intact. -/
theorem storeFiles_intact (hs : s.tables.Sound) (hx : extractAll w excluded root = .ok x)
    (hp : PathsApart x) (ha : Apart s x.chunks) {before : List FileChunks}
    (hsub : before.Sublist x.files) (h : storeFiles embed g s before = (s', .ok ()))
    {f : FileChunks} (hf : f ∈ x.files) : Intact s s' f := by
  have hstores : ∀ id, Stores s' f.path id ↔
      (∃ d ∈ before, d.path = f.path ∧ id ∈ d.chunks.map Chunk.id) ∨
      (f.path ∉ before.map FileChunks.path ∧ Stores s f.path id) := by
    intro id
    apply storeFiles_stores hs ha _ _ (hp.files.sublist (hsub.map _)) h
    · exact fun d hd => extractAll_carried hx d (hsub.subset hd)
    · exact fun d hd c hc => Complete.mem_chunks (hsub.subset hd) hc
  have hsame : ∀ d ∈ before, d.path = f.path → d = f :=
    fun d hd he => hp.file_eq (hsub.subset hd) hf he
  by_cases hb : f ∈ before
  · refine Or.inr ⟨chunks_ne_nil hx hf, fun id => (hstores id).trans ?_⟩
    constructor
    · rintro (⟨d, hd, he, hid⟩ | ⟨hn, -⟩)
      · exact hsame d hd he ▸ hid
      · exact absurd (List.mem_map_of_mem hb) hn
    · exact fun hid => Or.inl ⟨f, hb, rfl, hid⟩
  · have hn : f.path ∉ before.map FileChunks.path := by
      intro hm
      obtain ⟨d, hd, he⟩ := List.mem_map.mp hm
      exact hb (hsame d hd he ▸ hd)
    refine Or.inl fun id => (hstores id).trans ?_
    constructor
    · rintro (⟨d, hd, he, -⟩ | ⟨-, hst⟩)
      · exact absurd (hsame d hd he ▸ hd) hb
      · exact hst
    · exact fun hst => Or.inr ⟨hn, hst⟩

/-- A run that fails leaves every file that was read intact, but for one whose embeddings are
refused: of this one nothing is left. That paths tell files apart is so on every disk by
`extractAll_pathsApart`, and that ids come up under their own paths only is so of every store that
indexing has filled. -/
theorem runAt_error_intact (hs : s.tables.Sound) (hx : extractAll w excluded root = .ok x)
    (hp : PathsApart x) (hids : ∀ c ∈ x.chunks, ∀ path, Stores s path c.id → path = c.path)
    (h : runAt embed force w excluded root s = (s', .error e)) :
    (∀ f ∈ x.files, Intact s s' f) ∨
      ∃ lost ∈ x.files, Refused embed s lost ∧ (∀ id, ¬ Stores s' lost.path id) ∧
        ∀ f ∈ x.files, f ≠ lost → Intact s s' f := by
  unfold runAt at h
  rw [hx] at h
  obtain ⟨g, hstored⟩ := run_error hs h
  obtain ⟨before, lost, after, mid, hfs, hbefore, hlost⟩ := storeFiles_error hstored
  have hsub : (before ++ lost :: after).Sublist x.files := hfs ▸ storedFiles_sublist
  have hb : before.Sublist x.files := (List.sublist_append_left before _).trans hsub
  have hm : lost ∈ x.files := hsub.subset (List.mem_append_right before List.mem_cons_self)
  have ha : Apart s x.chunks := extractAll_apart hx hids
  have hmid : ∀ f ∈ x.files, Intact s mid f :=
    fun f hf => storeFiles_intact hs hx hp ha hb hbefore hf
  obtain ⟨hsound, hdims, hwidth⟩ := storeFiles_frame hs hbefore
  rcases storeFile_error hsound hlost with rfl | ⟨⟨vectors, hv, v, hvm, hne⟩, rfl⟩
  · exact Or.inl hmid
  · refine Or.inr ⟨lost, hm, ⟨vectors, hv, v, hvm, hdims ▸ hwidth ▸ hne⟩, fun id hst => ?_,
      fun f hf hfl => ?_⟩
    · exact ((deleteFile_stores mid lost.path).mp hst).1 rfl
    · have hpath : f.path ≠ lost.path := fun he => hfl (hp.file_eq hf hm he)
      have hsame : ∀ id, Stores (mid.deleteFile lost.path).2 f.path id ↔ Stores mid f.path id :=
        fun id =>
        (deleteFile_stores mid lost.path).trans (and_iff_right hpath)
      rcases hmid f hf with hold | ⟨hnil, hnew⟩
      · exact Or.inl fun id => (hsame id).trans (hold id)
      · exact Or.inr ⟨hnil, fun id => (hsame id).trans (hnew id)⟩

end Run

section WrongLength

/-- Two numbers for every text. -/
def twoNumbers : Embedder := fun _ => .ok [1.0, 1.0]

theorem changeOf_of_force (recorded : List (String × Instant)) (f : FileChunks) :
    changeOf recorded true f ≠ .skipped := by
  unfold changeOf
  split
  · exact nofun
  · exact nofun

/-- A store for single numbers refuses the first file of the folder, and has removed it by then. -/
theorem runAt_twoNumbers (f : FileEntry) (hd : s.dimensions = 1) :
    ∃ reason, runAt twoNumbers true (folderWith f) [] [] s =
      ((s.deleteFile "a.py").2, .error (.invalidInput reason)) := by
  have hx := extractAll_folderWith f
  have hall : (readWith f).files.filter (fun d => changeOf s.files true d != .skipped) =
      (readWith f).files := by
    rw [List.filter_eq_self]
    exact fun d _ => bne_iff_ne.mpr (changeOf_of_force s.files d)
  have hfirst : ∃ first rest, (readWith f).files = first :: rest ∧ first.path = "a.py" ∧
      first.chunks ≠ [] :=
    ⟨_, _, rfl, rfl, chunks_ne_nil hx List.mem_cons_self⟩
  obtain ⟨first, rest, hfiles, hpath, hchunks⟩ := hfirst
  obtain ⟨c, cs, hc⟩ := List.exists_cons_of_ne_nil hchunks
  have hv : twoNumbers.embedAll (first.chunks.map Chunk.embeddingText) =
      .ok ((first.chunks.map Chunk.embeddingText).map fun _ => [1.0, 1.0]) := mapM_ok fun _ _ => rfl
  obtain ⟨reason, hr⟩ :=
    storeFile_of_wrongLength (g := Graph.ofChunks ((readWith f).chunks ++ [])) hv
    ⟨[1.0, 1.0], by simp [hc], by rw [hd]; exact nofun⟩
  refine ⟨reason, ?_⟩
  rw [runAt, hx]
  unfold run
  dsimp only
  rw [show (readWith f).failed = [] from rfl, retained_nil]
  dsimp only
  rw [hall, hfiles, storeFiles, hr, hpath]

theorem runAt_error_intact_twoNumbers :
    ∃ s' e, runAt twoNumbers true (folderWith secondDraft) [] [] firstStore = (s', .error e) ∧
      ((∀ f ∈ (readWith secondDraft).files, Intact firstStore s' f) ∨
        ∃ lost ∈ (readWith secondDraft).files, Refused twoNumbers firstStore lost ∧
          (∀ id, ¬ Stores s' lost.path id) ∧
          ∀ f ∈ (readWith secondDraft).files, f ≠ lost → Intact firstStore s' f) := by
  obtain ⟨hs, hdims, hd⟩ := firstStore_dated
  obtain ⟨reason, h⟩ := runAt_twoNumbers secondDraft hdims
  have hx := extractAll_folderWith secondDraft
  exact ⟨_, _, h, runAt_error_intact hs.sound hx (readWith_pathsApart secondDraft)
    (hd.apart hx).stored h⟩

/-- A file that was stored and could be read has nothing left after a run that fails. -/
theorem runAt_error_loses :
    (∃ time, firstStore.fileTime? "a.py" = some time) ∧ (∃ id, Stores firstStore "a.py" id) ∧
      extractAll (folderWith secondDraft) [] [] = .ok (readWith secondDraft) ∧
      (∃ f ∈ (readWith secondDraft).files, f.path = "a.py") ∧
      ∃ s' e, runAt twoNumbers true (folderWith secondDraft) [] [] firstStore = (s', .error e) ∧
        ∀ id, ¬ Stores s' "a.py" id := by
  obtain ⟨time, ht, -⟩ := firstStore_mirrors.times _ List.mem_cons_self
  have hx := extractAll_folderWith firstDraft
  obtain ⟨c, hc⟩ := List.exists_mem_of_ne_nil _ (chunks_ne_nil hx List.mem_cons_self)
  have hst : Stores firstStore "a.py" c.id :=
    firstStore_mirrors.stores_iff.mpr ⟨c, Complete.mem_chunks List.mem_cons_self hc,
      extractAll_carried hx _ List.mem_cons_self c hc, rfl⟩
  obtain ⟨-, hdims, -⟩ := firstStore_dated
  obtain ⟨reason, h⟩ := runAt_twoNumbers secondDraft hdims
  refine ⟨⟨time, ht⟩, ⟨c.id, hst⟩, extractAll_folderWith secondDraft, ⟨_, List.mem_cons_self, rfl⟩,
    _, _, h, ?_⟩
  intro id hlost
  exact ((deleteFile_stores _ "a.py").mp hlost).1 rfl

end WrongLength

end CodeAtlas.Indexing
