import CodeAtlas.Graph.Inference
import CodeAtlas.Proofs.Indexing.Extraction

/-!
Files are cut at the same time and finished in any order. What is collected depends only on what
each file gives: as paths tell files apart, sorting by path leaves nothing of the order in which
they came.
-/

namespace CodeAtlas.Indexing

open Extraction

variable {α : Type}

/-- Sorting by a text that tells elements apart forgets the order they had. -/
theorem mergeSort_eq_of_perm (text : α → String) {l m : List α} (h : l.Perm m)
    (hinj : ∀ a ∈ m, ∀ b ∈ m, text a = text b → a = b) :
    (l.mergeSort fun a b => text a ≤ text b) = m.mergeSort fun a b => text a ≤ text b := by
  have hperm : (l.mergeSort fun a b => text a ≤ text b).Perm
      (m.mergeSort fun a b => text a ≤ text b) :=
    (List.mergeSort_perm l _).trans (h.trans (List.mergeSort_perm m _).symm)
  apply hperm.eq_of_pairwise _ (pairwise_mergeSort_text text l) (pairwise_mergeSort_text text m)
  intro a b ha hb hab hba
  apply hinj a (h.mem_iff.mp (List.mem_mergeSort.mp ha)) b (List.mem_mergeSort.mp hb)
  exact String.le_antisymm hab hba

def runFailure? (r : String × Except Failure FileChunks) : Option Failure :=
  match r.2 with
  | .error e => if e.isFileLocal then none else some e
  | .ok _ => none

def filesIn (done : List (String × Except Failure FileChunks)) : List FileChunks :=
  done.filterMap fun r => r.2.toOption

def failedIn (done : List (String × Except Failure FileChunks)) : List String :=
  done.filterMap fun r =>
    match r.2 with
    | .error _ => some r.1
    | .ok _ => none

variable {path : String} {f : FileChunks} {e : Failure}
  {done : List (String × Except Failure FileChunks)}

theorem filesIn_ok : filesIn ((path, .ok f) :: done) = f :: filesIn done := rfl

theorem filesIn_error : filesIn ((path, .error e) :: done) = filesIn done := rfl

theorem failedIn_ok : failedIn ((path, .ok f) :: done) = failedIn done := rfl

theorem failedIn_error : failedIn ((path, .error e) :: done) = path :: failedIn done := rfl

theorem findSome?_runFailure?_ok :
    ((path, .ok f) :: done).findSome? runFailure? = done.findSome? runFailure? :=
  rfl

theorem findSome?_runFailure?_error : ((path, .error e) :: done).findSome? runFailure? =
    if e.isFileLocal then done.findSome? runFailure? else some e := by
  rw [List.findSome?_cons]
  by_cases hl : e.isFileLocal
  · simp [runFailure?, hl]
  · simp [runFailure?, hl]

/-- Each finished file is put at the end of one of the two lists, until a failure ends the run. -/
theorem foldlM_receive (x : Extraction) :
    done.foldlM receive x =
      match done.findSome? runFailure? with
      | some e => .error e
      | none => .ok ⟨x.files ++ filesIn done, x.failed ++ failedIn done⟩ := by
  induction done generalizing x with
  | nil =>
    simp only [filesIn, failedIn, List.filterMap_nil, List.append_nil]
    rfl
  | cons r rest ih =>
    obtain ⟨path, result⟩ := r
    rw [List.foldlM_cons]
    cases result with
    | ok f =>
      have hstep : receive x (path, .ok f) = .ok { x with files := x.files ++ [f] } := rfl
      rw [hstep, filesIn_ok, failedIn_ok, findSome?_runFailure?_ok]
      apply (ih _).trans
      simp only [List.append_assoc, List.singleton_append]
    | error e =>
      rw [filesIn_error, failedIn_error, findSome?_runFailure?_error]
      by_cases hl : e.isFileLocal
      · have hstep : receive x (path, .error e) = .ok { x with failed := x.failed ++ [path] } :=
          if_pos hl
        rw [hstep, if_pos hl]
        apply (ih _).trans
        simp only [List.append_assoc, List.singleton_append]
      · have hstep : receive x (path, .error e) = .error e := if_neg hl
        rw [hstep, if_neg hl]
        rfl

/-- Taking in the files one by one is the same as looking at all that is finished at once. -/
theorem collect_eq (done : List (String × Except Failure FileChunks)) :
    collect done = ofResults done := by
  rw [collect, foldlM_receive]
  show _ = match done.findSome? runFailure? with
    | some e => Except.error e
    | none => .ok (sorted ⟨filesIn done, failedIn done⟩)
  cases done.findSome? runFailure? with
  | some e => rfl
  | none => rfl

section Tasks

variable {tasks : List (String × Cut)}

/-- Whether all failures of the files concern their own file only. -/
def FileLocal (tasks : List (String × Cut)) : Prop :=
  ∀ path e, (path, Except.error e) ∈ tasks → e.isFileLocal = true

def deliveries (tasks : List (String × Cut)) : List (String × Except Failure FileChunks) :=
  tasks.map fun t => delivered t.1 t.2

/-- What is asked of what was collected of some files: each of them is in one of the two lists, as
it has to be. -/
structure Sifted (tasks : List (String × Cut)) (x : Extraction) : Prop where
  files_sorted : x.files.Pairwise fun a b => a.path < b.path
  failed_sorted : x.failed.Pairwise (· < ·)
  mem_files : ∀ f, f ∈ x.files ↔ (f.path, Except.ok (f.modified, f.chunks)) ∈ tasks
  mem_failed : ∀ path, path ∈ x.failed ↔ ∃ e, (path, Except.error e) ∈ tasks
  once : (x.files.map FileChunks.path ++ x.failed).Perm (tasks.map Prod.fst)

theorem findSome?_deliveries : (deliveries tasks).findSome? runFailure? = none ↔
    FileLocal tasks := by
  rw [List.findSome?_eq_none_iff]
  constructor
  · intro h path e he
    have hnone := h _ (List.mem_map_of_mem he)
    by_contra hl
    simp [delivered, Except.map, runFailure?, hl] at hnone
  · intro h r hr
    obtain ⟨⟨path, cut⟩, ht, rfl⟩ := List.mem_map.mp hr
    cases cut with
    | ok c => rfl
    | error e => exact if_pos (h path e ht)

theorem filesIn_deliveries : filesIn (deliveries tasks) = tasks.filterMap fun t =>
    t.2.toOption.map fun c => ⟨t.1, c.1, c.2⟩ := by
  rw [filesIn, deliveries, List.filterMap_map]
  apply List.filterMap_congr
  intro t _
  obtain ⟨path, cut⟩ := t
  cases cut with
  | ok c => rfl
  | error e => rfl

theorem mem_filesIn {f : FileChunks} :
    f ∈ filesIn (deliveries tasks) ↔ (f.path, Except.ok (f.modified, f.chunks)) ∈ tasks := by
  rw [filesIn_deliveries, List.mem_filterMap]
  constructor
  · intro ⟨⟨path, cut⟩, ht, he⟩
    obtain ⟨c, hc, rfl⟩ := Option.map_eq_some_iff.mp he
    have hcut : cut = .ok c := toOption_eq_some hc
    exact hcut ▸ ht
  · intro h
    exact ⟨_, h, rfl⟩

theorem mem_failedIn {path : String} :
    path ∈ failedIn (deliveries tasks) ↔ ∃ e, (path, Except.error e) ∈ tasks := by
  rw [failedIn, deliveries, List.filterMap_map, List.mem_filterMap]
  constructor
  · intro ⟨⟨p, cut⟩, ht, he⟩
    cases cut with
    | ok c => exact absurd he nofun
    | error e => exact ⟨e, Option.some.inj he ▸ ht⟩
  · intro ⟨e, he⟩
    exact ⟨_, he, rfl⟩

/-- Every path is handed on once, as that of a file or as that of a failure. -/
theorem paths_deliveries (tasks : List (String × Cut)) :
    ((filesIn (deliveries tasks)).map FileChunks.path ++ failedIn (deliveries tasks)).Perm
      (tasks.map Prod.fst) := by
  induction tasks with
  | nil => exact List.Perm.refl _
  | cons t rest ih =>
    obtain ⟨path, cut⟩ := t
    cases cut with
    | ok c => exact ih.cons path
    | error e => exact List.perm_middle.trans (ih.cons path)

def gathered (tasks : List (String × Cut)) : Extraction :=
  sorted ⟨filesIn (deliveries tasks), failedIn (deliveries tasks)⟩

theorem gathered_sifted (hn : (tasks.map Prod.fst).Nodup) : Sifted tasks (gathered tasks) := by
  have hfiles : (gathered tasks).files.Perm (filesIn (deliveries tasks)) := List.mergeSort_perm _ _
  have hfailed : (gathered tasks).failed.Perm (failedIn (deliveries tasks)) :=
    List.mergeSort_perm _ _
  have hpaths := ((hfiles.map FileChunks.path).append hfailed).trans (paths_deliveries tasks)
  obtain ⟨hread, hunread, _⟩ := List.nodup_append.mp (hpaths.nodup_iff.mpr hn)
  exact {
    files_sorted := List.pairwise_map.mp
      (pairwise_lt (List.pairwise_map.mpr (pairwise_mergeSort_text FileChunks.path _)) hread)
    failed_sorted := pairwise_lt (pairwise_mergeSort_text (fun path => path) _) hunread
    mem_files := fun f => hfiles.mem_iff.trans mem_filesIn
    mem_failed := fun path => hfailed.mem_iff.trans mem_failedIn
    once := hpaths }

/-- The order in which the files are finished is lost. -/
theorem gathered_eq_of_perm {done : List (String × Cut)} (hn : (tasks.map Prod.fst).Nodup)
    (h : done.Perm tasks) : gathered done = gathered tasks := by
  have hdeliveries : (deliveries done).Perm (deliveries tasks) := h.map _
  have hread : ((filesIn (deliveries tasks)).map FileChunks.path).Nodup :=
    (List.nodup_append.mp ((paths_deliveries tasks).nodup_iff.mpr hn)).1
  have hfiles : (filesIn (deliveries done)).Perm (filesIn (deliveries tasks)) :=
    hdeliveries.filterMap _
  have hfailed : (failedIn (deliveries done)).Perm (failedIn (deliveries tasks)) :=
    hdeliveries.filterMap _
  apply congrArg₂ Extraction.mk
  · apply mergeSort_eq_of_perm FileChunks.path hfiles
    exact fun f hf g hg he => List.inj_on_of_nodup_map hread hf hg he
  · exact mergeSort_eq_of_perm (fun path => path) hfailed fun _ _ _ _ he => he

theorem fileLocal_of_perm {done : List (String × Cut)} (h : done.Perm tasks) :
    FileLocal done ↔ FileLocal tasks := by
  unfold FileLocal
  simp only [h.mem_iff]

theorem collect_deliveries {x : Extraction} :
    collect (deliveries tasks) = .ok x ↔ FileLocal tasks ∧ x = gathered tasks := by
  rw [← findSome?_deliveries, collect, foldlM_receive]
  cases (deliveries tasks).findSome? runFailure? with
  | some e => simp [Except.map]
  | none =>
    simp only [Except.map, Except.ok.injEq, true_and, List.nil_append, eq_comm]
    rfl

def taskOf (w : Workspace) (f : String × Place) : String × Cut :=
  (f.1, (extract w f.1 f.2).map fun cut => (cut.modified, cut.chunks))

theorem delivered_taskOf (w : Workspace) (f : String × Place) :
    delivered (taskOf w f).1 (taskOf w f).2 = (f.1, extract w f.1 f.2) := by
  rw [taskOf, delivered]
  cases he : extract w f.1 f.2 with
  | error e => rfl
  | ok cut =>
    obtain ⟨entry, l, -, -, rfl⟩ := extract_ok he
    rfl

theorem extractAll_eq (w : Workspace) (excluded : List Glob) (root : Place) :
    extractAll w excluded root =
      collect (deliveries ((sourceFiles w excluded root).map (taskOf w))) := by
  rw [collect_eq, extractAll, deliveries, List.map_map]
  apply congrArg ofResults
  apply List.map_congr_left
  intro f _
  exact (delivered_taskOf w f).symm

theorem fileLocal_taskOf (w : Workspace) (files : List (String × Place)) :
    FileLocal (files.map (taskOf w)) := by
  intro path e he
  obtain ⟨f, -, heq⟩ := List.mem_map.mp he
  cases hx : extract w f.1 f.2 with
  | ok cut => simp [taskOf, hx, Except.map] at heq
  | error e' =>
    have he' : e' = e := by simpa [taskOf, hx, Except.map] using congrArg Prod.snd heq
    exact he' ▸ isFileLocal_of_extract hx

/--
Of files that their paths tell apart the same is collected in whatever order they are finished:
those that could be cut and the others, each in order of the paths. It fails only when some failure
concerns more than its file, and none to cut the files of a folder does.
-/
theorem collect_sifted (hn : (tasks.map Prod.fst).Nodup) :
    ∃ x, Sifted tasks x ∧
      (∀ done, done.Perm tasks → ∀ y, collect (deliveries done) = .ok y ↔ FileLocal tasks ∧ y = x) ∧
      (∀ done, done.Perm tasks → FileLocal tasks →
        (collect (deliveries done)).map (fun y => Graph.ofChunks y.chunks) =
        .ok (Graph.ofChunks x.chunks)) ∧
      ∀ w excluded root, (sourceFiles w excluded root).map (taskOf w) = tasks →
        extractAll w excluded root = .ok x := by
  have hcollect : ∀ done, done.Perm tasks →
      ∀ y, collect (deliveries done) = .ok y ↔ FileLocal tasks ∧ y = gathered tasks := by
    intro done hd y
    rw [collect_deliveries, fileLocal_of_perm hd, gathered_eq_of_perm hn hd]
  refine ⟨gathered tasks, gathered_sifted hn, hcollect, ?_, ?_⟩
  · intro done hd hl
    rw [(hcollect done hd _).mpr ⟨hl, rfl⟩]
    rfl
  · intro w excluded root he
    rw [extractAll_eq, he]
    exact (hcollect tasks (List.Perm.refl _) _).mpr ⟨he ▸ fileLocal_taskOf w _, rfl⟩

/-- Files of which the second has no tree, the last one finished first. -/
def mixedFiles : List (String × Cut) :=
  [("c.py", .ok (⟨3, 0⟩,
      [{ id := "c", kind := .member, name := some "load", path := "c.py", language := "python"
         startLine := 1, endLine := 1, content := "def load(): run()" }])),
    ("b.py", .error (.parse "b.py" "no tree")),
    ("a.py", .ok (⟨1, 0⟩,
      [{ id := "a", kind := .member, name := some "run", path := "a.py", language := "python"
         startLine := 1, endLine := 1, content := "def run(): pass" }]))]

theorem collect_sifted_mixedFiles :
    (mixedFiles.map Prod.fst).Nodup ∧ FileLocal mixedFiles ∧
      ∃ x, Sifted mixedFiles x ∧ collect (deliveries mixedFiles) = .ok x ∧
        collect (deliveries mixedFiles.reverse) = .ok x := by
  have hn : (mixedFiles.map Prod.fst).Nodup := by decide
  have hl : FileLocal mixedFiles := by
    intro path e he
    simp only [mixedFiles, List.mem_cons, List.not_mem_nil, or_false, Prod.mk.injEq,
      reduceCtorEq, and_false, false_or, Except.error.injEq] at he
    rw [he.2]
    rfl
  obtain ⟨x, hx, hcollect, -, -⟩ := collect_sifted hn
  refine ⟨hn, hl, x, hx, ?_, ?_⟩
  · exact (hcollect mixedFiles (List.Perm.refl _) x).mpr ⟨hl, rfl⟩
  · exact (hcollect mixedFiles.reverse (List.reverse_perm _) x).mpr ⟨hl, rfl⟩

end Tasks

end CodeAtlas.Indexing
