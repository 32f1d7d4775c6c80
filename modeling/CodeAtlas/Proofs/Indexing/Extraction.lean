import CodeAtlas.Proofs.Indexing.StoreFile
import CodeAtlas.Proofs.Source.ChunkTree
import CodeAtlas.Proofs.Source.Origin
import CodeAtlas.Proofs.Store.Columns

/-!
What is read of a folder. The chunks of a file carry its path and are kept as they are. On a disk,
where every place stands once and names hold no slashes, paths tell files apart, and ids chunks.
-/

namespace CodeAtlas

namespace Place

/-- Whether the names on the way to a place stand in its path as they are and are not cut there. -/
def Plain (p : Place) : Prop := ∀ name ∈ p, name ≠ "" ∧ '/' ∉ name.toList ∧ '\\' ∉ name.toList

variable {p q : Place}

theorem toList_toText (p : Place) : p.toText.toList = ['/'].intercalate (p.map String.toList) :=
  String.toList_intercalate

theorem Plain.ne_nil (hp : p.Plain) : ∀ l ∈ p.map String.toList, l ≠ [] := by
  intro l hl hnil
  obtain ⟨name, hn, rfl⟩ := List.mem_map.mp hl
  exact (hp name hn).1 (String.toList_eq_nil_iff.mp hnil)

theorem Plain.not_mem (hp : p.Plain) : ∀ l ∈ p.map String.toList, '/' ∉ l := by
  intro l hl
  obtain ⟨name, hn, rfl⟩ := List.mem_map.mp hl
  exact (hp name hn).2.1

theorem Plain.drop (hp : p.Plain) (n : Nat) : Plain (p.drop n) :=
  fun name hn => hp name (List.mem_of_mem_drop hn)

theorem eq_nil_of_intercalate {ls : List (List Char)} (h : ['/'].intercalate ls = [])
    (hne : ∀ l ∈ ls, l ≠ []) : ls = [] := by
  cases ls with
  | nil => rfl
  | cons l rest =>
    cases rest with
    | nil => exact absurd (by simpa using h) (hne l List.mem_cons_self)
    | cons m rest => simp [List.intercalate] at h

/-- Plain places with one path are one place. -/
theorem toText_inj (hp : p.Plain) (hq : q.Plain) (h : p.toText = q.toText) : p = q := by
  have hlists : ['/'].intercalate (p.map String.toList) =
      ['/'].intercalate (q.map String.toList) := by
    rw [← toList_toText, ← toList_toText, h]
  apply List.map_injective_iff.mpr fun _ _ => String.toList_injective
  by_cases hpn : p.map String.toList = []
  · rw [hpn] at hlists ⊢
    exact (eq_nil_of_intercalate hlists.symm hq.ne_nil).symm
  · by_cases hqn : q.map String.toList = []
    · rw [hqn] at hlists
      exact absurd (eq_nil_of_intercalate hlists hp.ne_nil) hpn
    · rw [← List.splitOn_intercalate '/' hp.not_mem hpn, hlists,
        List.splitOn_intercalate '/' hq.not_mem hqn]

theorem not_mem_toText (hp : p.Plain) : '\\' ∉ p.toText.toList := by
  rw [toList_toText]
  induction p with
  | nil => simp [List.intercalate]
  | cons name rest ih =>
    have hn := (hp name List.mem_cons_self).2.2
    have hr := ih fun other ho => hp other (List.mem_cons_of_mem name ho)
    cases rest with
    | nil => simpa [List.intercalate] using hn
    | cons other rest =>
      simp only [List.intercalate, List.map_cons, List.intersperse_cons_cons, List.flatten_cons]
        at hr ⊢
      simp only [List.mem_append, not_or]
      exact ⟨hn, by decide, hr⟩

end Place

namespace Indexing

/-- What has been read of a folder all of whose files could be read. Paths tell files apart, and ids
chunks. -/
structure Complete (x : Extraction) : Prop where
  failed : x.failed = []
  carried : ∀ f ∈ x.files, f.Carried
  kept : ∀ c ∈ x.chunks, Store.keptChunk c = c
  paths : (x.files.map FileChunks.path).Nodup
  ids : (x.chunks.map Chunk.id).Nodup

/-- Whether no two of the files that were found have the same path, whether they could be read or
not. -/
def PathsApart (x : Extraction) : Prop := (x.files.map FileChunks.path ++ x.failed).Nodup

variable {w : Workspace} {excluded : List Glob} {root : Place} {x : Extraction}

theorem Complete.pathsApart (hx : Complete x) : PathsApart x := by
  rw [PathsApart, hx.failed, List.append_nil]
  exact hx.paths

theorem PathsApart.files (hp : PathsApart x) : (x.files.map FileChunks.path).Nodup :=
  (List.nodup_append.mp hp).1

theorem PathsApart.file_eq (hp : PathsApart x) {f f' : FileChunks} (hf : f ∈ x.files)
    (hf' : f' ∈ x.files) (he : f.path = f'.path) : f = f' :=
  List.inj_on_of_nodup_map hp.files hf hf' he

theorem PathsApart.not_failed (hp : PathsApart x) {f : FileChunks} (hf : f ∈ x.files) :
    f.path ∉ x.failed :=
  fun hm => (List.nodup_append.mp hp).2.2 f.path (List.mem_map_of_mem hf) f.path hm rfl

theorem extractAll_ok (h : extractAll w excluded root = .ok x) :
    x.files = ((sourceFiles w excluded root).filterMap fun f =>
      (extract w f.1 f.2).toOption).mergeSort fun a b => a.path ≤ b.path := by
  unfold extractAll Extraction.ofResults at h
  dsimp only at h
  split at h
  · exact absurd h nofun
  · obtain rfl := Except.ok.inj h
    simp only [List.filterMap_map]
    rfl

def unreadable (w : Workspace) (found : List (String × Place)) : List String :=
  found.filterMap fun f =>
    match extract w f.1 f.2 with
    | .error _ => some f.1
    | .ok _ => none

theorem extractAll_failed (h : extractAll w excluded root = .ok x) :
    x.failed.Perm (unreadable w (sourceFiles w excluded root)) := by
  unfold extractAll Extraction.ofResults at h
  dsimp only at h
  split at h
  · exact absurd h nofun
  · obtain rfl := Except.ok.inj h
    simp only [List.filterMap_map]
    exact List.mergeSort_perm _ _

/-- A failure to read a file concerns this file only. -/
theorem isFileLocal_of_extract {path : String} {place : Place} {e : Failure}
    (h : extract w path place = .error e) : e.isFileLocal = true := by
  unfold extract at h
  split at h
  · cases hl : Source.File.language place.toText with
    | ok l =>
      rw [hl] at h
      exact absurd h nofun
    | error e' =>
      rw [hl] at h
      obtain rfl := Except.error.inj h
      unfold Source.File.language at hl
      split at hl
      · exact absurd hl nofun
      · rw [← Except.error.inj hl]
        rfl
  · rw [← Except.error.inj h]
    rfl

/-- Something can be read of every folder, be it that all its files fail. -/
theorem exists_extractAll (w : Workspace) (excluded : List Glob) (root : Place) :
    ∃ x, extractAll w excluded root = .ok x := by
  unfold extractAll Extraction.ofResults
  dsimp only
  split
  · rename_i e he
    obtain ⟨r, hr, hf⟩ := List.exists_of_findSome?_eq_some he
    obtain ⟨⟨path, place⟩, -, rfl⟩ := List.mem_map.mp hr
    dsimp only at hf
    split at hf
    · rename_i e' hx
      rw [if_pos (isFileLocal_of_extract hx)] at hf
      exact absurd hf nofun
    · exact absurd hf nofun
  · exact ⟨_, rfl⟩

theorem toOption_eq_some {ε α : Type} {r : Except ε α} {a : α} (h : r.toOption = some a) :
    r = .ok a := by
  cases r with
  | error e => exact absurd h nofun
  | ok b => rw [Option.some.inj h]

theorem extract_ok {path : String} {place : Place} {f : FileChunks}
    (h : extract w path place = .ok f) :
    ∃ entry l, w.get? place = some (.file entry) ∧ Source.File.language place.toText = .ok l ∧
      f = ⟨path, entry.modified, Source.File.chunks ⟨path, entry.bytes, entry.root⟩ l⟩ := by
  unfold extract at h
  split at h
  · rename_i entry he
    cases hl : Source.File.language place.toText with
    | error e =>
      rw [hl] at h
      exact absurd h nofun
    | ok l =>
      rw [hl] at h
      exact ⟨entry, l, he, rfl, (Except.ok.inj h).symm⟩
  · exact absurd h nofun

/-- A file that has been read was cut as some file at its path. -/
theorem mem_extractAll (h : extractAll w excluded root = .ok x) {f : FileChunks}
    (hf : f ∈ x.files) :
    ∃ place entry l, w.get? place = some (.file entry) ∧ Source.File.language place.toText = .ok l ∧
      f = ⟨f.path, entry.modified, Source.File.chunks ⟨f.path, entry.bytes, entry.root⟩ l⟩ := by
  rw [extractAll_ok h, List.mem_mergeSort] at hf
  obtain ⟨⟨path, place⟩, -, he⟩ := List.mem_filterMap.mp hf
  obtain ⟨entry, l, hg, hl, rfl⟩ := extract_ok (toOption_eq_some he)
  exact ⟨place, entry, l, hg, hl, rfl⟩

theorem extractAll_origin (h : extractAll w excluded root = .ok x) {f : FileChunks}
    (hf : f ∈ x.files) :
    ∃ file : Source.File, file.path = f.path ∧ ∀ c ∈ f.chunks, file.Origin c := by
  obtain ⟨place, entry, l, -, -, he⟩ := mem_extractAll h hf
  refine ⟨⟨f.path, entry.bytes, entry.root⟩, rfl, fun c hc => ?_⟩
  rw [he] at hc
  exact Source.File.chunks_origin hc

theorem extractAll_carried (h : extractAll w excluded root = .ok x) : ∀ f ∈ x.files, f.Carried := by
  intro f hf c hc
  obtain ⟨file, hp, ho⟩ := extractAll_origin h hf
  exact (ho c hc).path.trans hp

theorem extractAll_kept (h : extractAll w excluded root = .ok x) :
    ∀ c ∈ x.chunks, Store.keptChunk c = c := by
  intro c hc
  obtain ⟨f, hf, hc⟩ := List.mem_flatMap.mp hc
  obtain ⟨file, -, ho⟩ := extractAll_origin h hf
  exact Store.keptChunk_of_lasting (ho c hc).metadata

theorem pairwise_mergeSort_text {α : Type} (text : α → String) (l : List α) :
    (l.mergeSort fun a b => text a ≤ text b).Pairwise fun a b => text a ≤ text b := by
  have htrans : ∀ a b c : α, decide (text a ≤ text b) = true → decide (text b ≤ text c) = true →
      decide (text a ≤ text c) = true := by
    intro a b c hab hbc
    rw [decide_eq_true_eq] at hab hbc ⊢
    exact String.le_trans hab hbc
  have htotal : ∀ a b : α, (decide (text a ≤ text b) || decide (text b ≤ text a)) = true := by
    intro a b
    rw [Bool.or_eq_true, decide_eq_true_eq, decide_eq_true_eq]
    exact String.le_total (text a) (text b)
  apply (List.pairwise_mergeSort htrans htotal l).imp
  intro a b hab
  exact of_decide_eq_true hab

theorem pairwise_lt {paths : List String} (h : paths.Pairwise fun p q => p ≤ q) (hn : paths.Nodup) :
    paths.Pairwise (· < ·) := by
  apply (h.and hn).imp
  exact fun hpq => Std.lt_of_le_of_ne hpq.1 hpq.2

/-- The files of a folder stand in order of their paths. -/
theorem extractAll_sorted (h : extractAll w excluded root = .ok x) :
    x.files.Pairwise fun a b => a.path ≤ b.path := by
  rw [extractAll_ok h]
  exact pairwise_mergeSort_text FileChunks.path _

theorem extractAll_failed_sorted (h : extractAll w excluded root = .ok x) :
    x.failed.Pairwise fun p q => p ≤ q := by
  unfold extractAll Extraction.ofResults at h
  dsimp only at h
  split at h
  · exact absurd h nofun
  · obtain rfl := Except.ok.inj h
    exact pairwise_mergeSort_text (fun p => p) _

section Disk

/-- A workspace as a disk holds it: every place stands there once and is plain, and trees are
well-formed. -/
structure OnDisk (w : Workspace) : Prop where
  places : (w.entries.map Prod.fst).Nodup
  plain : ∀ e ∈ w.entries, e.1.Plain
  trees : ∀ place f l, (place, Entry.file f) ∈ w.entries →
    Source.File.language place.toText = .ok l → f.root.WellFormed l f.bytes.length

theorem mem_of_get? {place : Place} {f : FileEntry} (h : w.get? place = some (.file f)) :
    (place, Entry.file f) ∈ w.entries := by
  unfold Workspace.get? at h
  split at h
  · exact absurd h nofun
  · obtain ⟨before, after, he, -⟩ := List.lookup_eq_some_iff.mp h
    rw [he]
    exact List.mem_append_right before List.mem_cons_self

theorem pathIn_eq {p : Place} (hp : p.Plain) :
    pathIn root p = Place.toText (p.drop root.length) := by
  apply String.toList_injective
  rw [pathIn, String.toList_map]
  have hn := Place.not_mem_toText (hp.drop root.length)
  rw [List.map_congr_left (g := id), List.map_id]
  intro c hc
  have hne : c ≠ '\\' := fun h => hn (h ▸ hc)
  rw [beq_false_of_ne hne]
  rfl

theorem pathIn_inj {p q : Place} (hp : p.Plain) (hq : q.Plain) (hrp : root <+: p) (hrq : root <+: q)
    (h : pathIn root p = pathIn root q) : p = q := by
  rw [pathIn_eq hp, pathIn_eq hq] at h
  have hdrop := Place.toText_inj (hp.drop root.length) (hq.drop root.length) h
  obtain ⟨below, rfl⟩ := hrp
  obtain ⟨below', rfl⟩ := hrq
  rw [List.drop_left, List.drop_left] at hdrop
  rw [hdrop]

/-- The place of an entry that a walk from another place comes by and that is no folder. -/
def visited? (w : Workspace) (root : Place) (e : Place × Entry) : Option Place :=
  match e.2 with
  | .folder => none
  | _ => if root.isPrefixOf e.1 && (e.1 == root || w.isVisited root e.1) then some e.1 else none

theorem visited?_eq_some {e : Place × Entry} {p : Place} (h : visited? w root e = some p) :
    p = e.1 ∧ root <+: p := by
  unfold visited? at h
  split at h
  · exact absurd h nofun
  · split at h
    · rename_i hc
      obtain rfl := Option.some.inj h
      rw [Bool.and_eq_true] at hc
      exact ⟨rfl, List.isPrefixOf_iff_prefix.mp hc.1⟩
    · exact absurd h nofun

theorem sourceFiles_perm (w : Workspace) (excluded : List Glob) (root : Place) :
    (sourceFiles w excluded root).Perm
      ((((w.entries.filterMap (visited? w root)).filter isSource).map
      fun place => (pathIn root place, place)).filter fun f => !Settings.covered excluded f.1) :=
  List.mergeSort_perm _ _

theorem sourceFiles_paths (hw : OnDisk w) (excluded : List Glob) (root : Place) :
    ((sourceFiles w excluded root).map Prod.fst).Nodup := by
  rw [((sourceFiles_perm w excluded root).map Prod.fst).nodup_iff]
  apply List.Nodup.sublist (List.filter_sublist.map Prod.fst)
  rw [List.map_map]
  apply List.Nodup.map_on
  · have hplace : ∀ p ∈ (w.entries.filterMap (visited? w root)).filter isSource, p.Plain ∧
        root <+: p := by
      intro p hp
      obtain ⟨e, he, hv⟩ := List.mem_filterMap.mp (List.mem_filter.mp hp).1
      obtain ⟨rfl, hr⟩ := visited?_eq_some hv
      exact ⟨hw.plain e he, hr⟩
    intro p hp q hq h
    exact pathIn_inj (hplace p hp).1 (hplace q hq).1 (hplace p hp).2 (hplace q hq).2 h
  · apply List.Nodup.filter
    apply List.pairwise_filterMap.mpr
    apply (List.pairwise_map.mp hw.places).imp
    intro e e' hne p hp p' hp'
    rw [(visited?_eq_some hp).1, (visited?_eq_some hp').1]
    exact hne

/-- Every file that was found is read or unreadable. -/
theorem paths_perm_found (w : Workspace) (found : List (String × Place)) :
    ((found.filterMap fun f => (extract w f.1 f.2).toOption).map FileChunks.path ++
      unreadable w found).Perm (found.map Prod.fst) := by
  induction found with
  | nil => exact List.Perm.refl _
  | cons f rest ih =>
    rw [unreadable, List.filterMap_cons, List.filterMap_cons, List.map_cons]
    cases he : extract w f.1 f.2 with
    | ok d =>
      obtain ⟨entry, l, -, -, rfl⟩ := extract_ok he
      exact ih.cons f.1
    | error e => exact List.perm_middle.trans (ih.cons f.1)

theorem extractAll_pathsApart (hw : OnDisk w) (h : extractAll w excluded root = .ok x) :
    PathsApart x := by
  have hfiles := (extractAll_ok h).symm ▸ List.mergeSort_perm _ _
  have hall := ((hfiles.map FileChunks.path).append (extractAll_failed h)).trans
    (paths_perm_found w _)
  exact hall.nodup_iff.mpr (sourceFiles_paths hw excluded root)

theorem extractAll_paths (hw : OnDisk w) (h : extractAll w excluded root = .ok x) :
    (x.files.map FileChunks.path).Nodup :=
  (List.nodup_append.mp (extractAll_pathsApart hw h)).1

theorem extractAll_ids (hw : OnDisk w) (h : extractAll w excluded root = .ok x) :
    (x.chunks.map Chunk.id).Nodup := by
  apply List.pairwise_map.mpr
  apply List.pairwise_flatMap.mpr
  constructor
  · intro f hf
    obtain ⟨place, entry, l, hg, hl, he⟩ := mem_extractAll h hf
    obtain ⟨file, rest, hchunks, ht⟩ :=
      Source.File.chunks_shape ⟨f.path, entry.bytes, entry.root⟩ l
        (hw.trees place entry l (mem_of_get? hg) hl)
    apply List.pairwise_map.mp
    rw [he]
    show ((Source.File.chunks _ l).map Chunk.id).Nodup
    rw [hchunks]
    exact ht.distinct
  · apply (List.pairwise_map.mp (extractAll_paths hw h)).imp_of_mem
    intro f f' hf hf' hne c hc c' hc'
    obtain ⟨file, hp, ho⟩ := extractAll_origin h hf
    obtain ⟨file', hp', ho'⟩ := extractAll_origin h hf'
    exact (ho c hc).id_ne (ho' c' hc') fun he => hne (hp.symm.trans (he.trans hp'))

/-- What is read of a disk is complete as soon as nothing failed. -/
theorem extractAll_complete (hw : OnDisk w) (h : extractAll w excluded root = .ok x)
    (hx : x.failed = []) : Complete x :=
  ⟨hx, extractAll_carried h, extractAll_kept h, extractAll_paths hw h, extractAll_ids hw h⟩

end Disk

end Indexing

end CodeAtlas
