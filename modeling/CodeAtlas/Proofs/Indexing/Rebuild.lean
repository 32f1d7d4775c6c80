import Mathlib
import CodeAtlas.Proofs.Indexing.Stored

/-!
Bringing a store up to date leaves what indexing the folder from the start would: whatever runs
there were before, nothing of them is left but the sub-second parts of the times of files that were
left alone.
-/

namespace CodeAtlas.Indexing

open Store

/-- The stores that successful runs with one embedder lead to, from an empty one on. -/
inductive Reached (embed : Embedder) (dimensions : Nat) : Store → Prop where
  | empty {s : Store} : Store.ofDimensions dimensions = .ok s → Reached embed dimensions s
  | run {s s' : Store} {force : Bool} {w : Workspace} {excluded : List Glob} {root : Place}
      {summary : Summary} : Reached embed dimensions s →
      runAt embed force w excluded root s = (s', .ok summary) → Reached embed dimensions s'

/-- Two stores that differ at most in their keys, in the order of rows that stand for a chunk or a
file, and in the sub-second parts of times. -/
structure Alike (s s' : Store) : Prop where
  dimensions : s.dimensions = s'.dimensions
  tables : s.hasTables = s'.hasTables
  files : ∀ path, (s.fileTime? path).map Instant.seconds = (s'.fileTime? path).map Instant.seconds
  entries : s.tables.entries.Perm s'.tables.entries
  edges : s.tables.edges = s'.tables.edges

section Reached

variable {embed : Embedder} {dimensions : Nat} {s empty : Store}

theorem kept_empty (dimensions : Nat) : Kept embed { dimensions } where
  sound := Tables.sound_empty dimensions
  width := rfl
  embedded := by
    rintro d v ⟨r, hr, -⟩
    exact absurd hr List.not_mem_nil
  recorded := by
    rintro d v ⟨r, hr, -⟩
    exact absurd hr List.not_mem_nil
  paths := List.nodup_nil

theorem runAt_eq {force : Bool} {w : Workspace} {excluded : List Glob} {root : Place} {s' : Store}
    {summary : Summary} (h : runAt embed force w excluded root s = (s', .ok summary)) :
    ∃ x, extractAll w excluded root = .ok x ∧ run embed force x s = (s', .ok summary) := by
  unfold runAt at h
  split at h
  · exact absurd (Prod.mk.inj h).2 nofun
  · rename_i x hx
    exact ⟨x, hx, h⟩

theorem Reached.kept (h : Reached embed dimensions s) :
    Kept embed s ∧ s.dimensions = dimensions := by
  induction h with
  | empty h =>
    obtain rfl := ofDimensions_eq h
    exact ⟨kept_empty dimensions, rfl⟩
  | run _ h ih =>
    obtain ⟨x, hx, hr⟩ := runAt_eq h
    obtain ⟨hk, hd⟩ := run_kept ih.1 (extractAll_carried hx) hr
    exact ⟨hk, hd.trans ih.2⟩

/-- A run on a complete folder comes to an end if the embedder answers for all chunks. -/
theorem run_ok (hs : Kept embed s) {x : Extraction} (hx : Complete x) (force : Bool)
    (hv : ∀ c ∈ x.chunks, ∃ v, embed c.embeddingText = .ok v ∧ v.length = s.dimensions) :
    ∃ s' summary, run embed force x s = (s', .ok summary) :=
  run_succeeds hs hx.carried force hv

theorem Mirrors.embeds {x : Extraction} (h : Mirrors embed x s)
    (hw : s.tables.width = s.dimensions) :
    ∀ c ∈ x.chunks, ∃ v, embed c.embeddingText = .ok v ∧ v.length = s.dimensions := by
  intro c hc
  obtain ⟨vectors, hv, he⟩ := h.entries
  obtain ⟨v, -, hcv⟩ := embed_of_embedAll hv c hc
  refine ⟨v, hcv, ?_⟩
  have hm := he.mem_iff.mpr
    (List.mem_map.mpr ⟨(c, v), (mem_zip_embedAll hv c v).mpr ⟨hc, hcv⟩, rfl⟩)
  obtain ⟨w, hvw, r, hr, -, hslot⟩ := (h.sound.mem_entries _ _).mp hm
  obtain rfl := List.singleton_inj.mp hvw
  exact (h.sound.widths _ hslot).trans hw

theorem upToDate_empty (x : Extraction) : UpToDate ({ dimensions } : Store) x :=
  fun _ _ _ ht => absurd ht nofun

theorem Mirrors.chunks_perm {x : Extraction} (h : Mirrors embed x s) :
    (s.tables.chunks.map fun r => r.chunk).Perm x.chunks := by
  obtain ⟨vectors, hv, he⟩ := h.entries
  have hm := he.map fun e => e.1.chunk
  rw [Tables.entries, List.map_map, List.map_map] at hm
  have hfst := List.map_fst_zip (Nat.le_of_eq (length_of_embedAll hv))
  exact hm.trans (List.Perm.of_eq hfst)

end Reached

section EditedFile

def declaringFile : FileEntry where
  bytes := "class A:\n  def f(self): g()\n".toList.map fun c => c.toNat.toUInt8
  root := .node { kind := "module", first := 0, last := 28 }
    [.node { kind := "class_definition", first := 0, last := 27 }
      [.node { kind := "identifier", first := 6, last := 7, field := some "name" } [],
      .node { kind := "block", first := 11, last := 27, field := some "body" }
        [.node { kind := "function_definition", first := 11, last := 27 }
          [.node { kind := "identifier", first := 15, last := 16, field := some "name" } []]]]]
  modified := { seconds := 1 }

def firstDraft : FileEntry where
  bytes := [10]
  root := .node { kind := "module", first := 0, last := 1 } []
  modified := { seconds := 1 }

def secondDraft : FileEntry where
  bytes := [10, 10]
  root := .node { kind := "module", first := 0, last := 2 } []
  modified := { seconds := 2 }

def folderWith (f : FileEntry) : Workspace where
  entries := [(["a.py"], .file declaringFile), (["b.py"], .file f)]

def readWith (f : FileEntry) : Extraction where
  files :=
    [⟨"a.py", declaringFile.modified,
      Source.File.chunks ⟨"a.py", declaringFile.bytes, declaringFile.root⟩ .python⟩,
    ⟨"b.py", f.modified, Source.File.chunks ⟨"b.py", f.bytes, f.root⟩ .python⟩]

theorem ofResults_pair (f g : FileChunks) (hf : f.path = "a.py") (hg : g.path = "b.py") :
    Extraction.ofResults [("a.py", .ok f), ("b.py", .ok g)] = .ok { files := [f, g] } := by
  obtain ⟨path, time, chunks⟩ := f
  obtain ⟨path', time', chunks'⟩ := g
  subst hf hg
  cbv

theorem extractAll_folderWith (f : FileEntry) :
    extractAll (folderWith f) [] [] = .ok (readWith f) := by
  have hfiles : sourceFiles (folderWith f) [] [] = [("a.py", ["a.py"]), ("b.py", ["b.py"])] := by
    cbv
  rw [extractAll, hfiles]
  exact ofResults_pair _ _ rfl rfl

theorem folderWith_onDisk {f : FileEntry} (hf : f.root.WellFormed .python f.bytes.length) :
    OnDisk (folderWith f) := by
  have hplaces : [["a.py"], ["b.py"]].Nodup := by decide
  have hplain : ∀ p ∈ [["a.py"], ["b.py"]], ∀ name ∈ p, name ≠ "" ∧ '/' ∉ name.toList ∧
      '\\' ∉ name.toList := by
    decide
  refine ⟨hplaces, fun e he => hplain e.1 (List.mem_map_of_mem he), ?_⟩
  intro place entry l hm hl
  rcases List.mem_pair.mp hm with he | he
  · obtain ⟨rfl, hd⟩ := Prod.mk.inj he
    obtain rfl := Entry.file.inj hd
    obtain rfl : Source.Language.python = l := Except.ok.inj hl
    decide
  · obtain ⟨rfl, hd⟩ := Prod.mk.inj he
    obtain rfl := Entry.file.inj hd
    obtain rfl : Source.Language.python = l := Except.ok.inj hl
    exact hf

theorem readWith_complete {f : FileEntry} (hf : f.root.WellFormed .python f.bytes.length) :
    Complete (readWith f) :=
  extractAll_complete (folderWith_onDisk hf) (extractAll_folderWith f) rfl

theorem firstDraft_wellFormed : firstDraft.root.WellFormed .python firstDraft.bytes.length := by
  decide

/-- The same embedding for all texts. -/
def constantEmbedder : Embedder := fun _ => .ok [1.0]

def storeWith (f : FileEntry) (s : Store) : Store :=
  (runAt constantEmbedder false (folderWith f) [] [] s).1

theorem runAt_folderWith {f : FileEntry} (hf : f.root.WellFormed .python f.bytes.length) {s : Store}
    (hs : Kept constantEmbedder s) (hd : s.dimensions = 1) :
    ∃ summary, runAt constantEmbedder false (folderWith f) [] [] s =
      (storeWith f s, .ok summary) := by
  obtain ⟨s', summary, h⟩ := run_ok hs (readWith_complete hf) false fun c _ => ⟨[1.0], rfl, hd.symm⟩
  have hr : runAt constantEmbedder false (folderWith f) [] [] s = (s', .ok summary) := by
    rw [runAt, extractAll_folderWith]
    exact h
  refine ⟨summary, ?_⟩
  rw [storeWith, hr]

end EditedFile

end CodeAtlas.Indexing
