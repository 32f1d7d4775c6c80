import CodeAtlas.Proofs.Store.Consistency
import CodeAtlas.Store.Read

/-!
Removing a file from a store, whatever the store holds. Nothing of the file is left: no chunk, no
embedding of one, no dependency on one and no record; and everything else stands where it stood.
-/

namespace CodeAtlas.Store

open Tables

def rowsOf (s : Store) (path : String) : List ChunkRow :=
  s.tables.chunks.filter fun r => r.chunk.path == path

/-- Whether a store is what another one is without a file. -/
structure FileRemoved (s : Store) (path : String) (s' : Store) : Prop where
  noChunk : ∀ r ∈ s'.tables.chunks, r.chunk.path ≠ path
  noVector : ∀ slot ∈ filled s'.tables.slots, ∀ r ∈ s.rowsOf path, slot.key ≠ r.key
  noEdge : ∀ e ∈ s'.tables.edges, ∀ r ∈ s.rowsOf path, e.edge.source ≠ r.chunk.id ∧
    e.edge.target ≠ r.chunk.id
  noFile : path ∉ s'.tables.files.map Prod.fst
  chunks : s'.tables.chunks = s.tables.chunks.filter fun r => r.chunk.path ≠ path
  vectors : ∀ (place : Nat) (slot : Slot), (∀ r ∈ s.rowsOf path, slot.key ≠ r.key) →
    (s'.tables.slots[place]? = some (some slot) ↔ s.tables.slots[place]? = some (some slot))
  edges : s'.tables.edges = s.tables.edges.filter fun e =>
    ∀ r ∈ s.rowsOf path, e.edge.source ≠ r.chunk.id ∧ e.edge.target ≠ r.chunk.id
  files : s'.tables.files = s.tables.files.filter fun f => f.1 ≠ path
  places : s'.tables.slots.length = s.tables.slots.length
  nextKey : s'.tables.nextKey = s.tables.nextKey
  width : s'.tables.width = s.tables.width
  dimensions : s'.dimensions = s.dimensions
  hasTables : s'.hasTables = s.hasTables

namespace Tables

variable {t : Tables} {path : String} {slots : List (Option Slot)} {gone : Nat → Bool}

/-- A place keeps its embedding unless that is to go. -/
theorem getElem?_freeSlots {place : Nat} {slot : Slot} :
    (freeSlots gone slots)[place]? = some (some slot) ↔ slots[place]? = some (some slot) ∧
      gone slot.key = false := by
  rw [freeSlots, List.getElem?_map, Option.map_eq_some_iff]
  constructor
  · rintro ⟨old, hold, hfilter⟩
    obtain ⟨rfl, hgone⟩ := Option.filter_eq_some_iff.mp hfilter
    exact ⟨hold, by simpa using hgone⟩
  · rintro ⟨hold, hgone⟩
    exact ⟨some slot, hold, Option.filter_eq_some_iff.mpr ⟨rfl, by simpa using hgone⟩⟩

theorem isOf_eq_false {key : Nat} :
    t.isOf path key = false ↔ ∀ r ∈ t.chunks.filter fun r => r.chunk.path == path, key ≠ r.key := by
  rw [isOf, List.any_eq_false]
  apply forall₂_congr
  intro r _
  rw [beq_iff_eq, ne_eq, eq_comm]

theorem lookup_filter_ne {β : Type} (files : List (String × β)) {other : String} :
    (files.filter fun f => f.1 ≠ path).lookup other = if other = path then none
      else files.lookup other := by
  induction files with
  | nil => exact (ite_self none).symm
  | cons f rest ih =>
    obtain ⟨name, value⟩ := f
    rw [List.filter_cons]
    by_cases hname : name = path
    · rw [if_neg (by simpa using hname), ih, hname]
      split
      · rfl
      · rename_i hother
        rw [List.lookup_cons, beq_eq_false_iff_ne.mpr hother]
    · rw [if_pos (by simpa using hname), List.lookup_cons, List.lookup_cons, ih]
      cases hother : other == name with
      | true => exact (if_neg ((eq_of_beq hother).trans_ne hname)).symm
      | false => rfl

theorem not_any_touches {e : Dependency} {rows : List ChunkRow} :
    (!rows.any fun r => e.touches r.chunk.id) = true ↔
      ∀ r ∈ rows, e.source ≠ r.chunk.id ∧ e.target ≠ r.chunk.id := by
  simp [Dependency.touches]

end Tables

section Removal

variable {s s' : Store} {path : String}

theorem mem_rowsOf {r : ChunkRow} :
    r ∈ s.rowsOf path ↔ r ∈ s.tables.chunks ∧ r.chunk.path = path := by
  rw [rowsOf, List.mem_filter, beq_iff_eq]

theorem deleteFile_count (s : Store) (path : String) :
    (s.deleteFile path).1 = (s.rowsOf path).length := by
  obtain ⟨dimensions, tables?⟩ := s
  cases tables? with
  | none => rfl
  | some t => rfl

theorem hasTables_deleteFile (s : Store) (path : String) :
    (s.deleteFile path).2.hasTables = s.hasTables := by
  obtain ⟨dimensions, tables?⟩ := s
  cases tables? with
  | none => rfl
  | some t => rfl

theorem fileRemoved_deleteFile (s : Store) (path : String) :
    s.FileRemoved path (s.deleteFile path).2 := by
  obtain ⟨htables, hdimensions⟩ := deleteFile_eq s path
  have hchunks : (s.deleteFile path).2.tables.chunks = s.tables.chunks.filter fun r =>
      r.chunk.path ≠ path := by
    rw [htables]
    exact List.filter_congr fun r _ => by rw [Bool.eq_iff_iff, bne_iff_ne, decide_eq_true_iff]
  have hedges : (s.deleteFile path).2.tables.edges = s.tables.edges.filter fun e =>
      ∀ r ∈ s.rowsOf path, e.edge.source ≠ r.chunk.id ∧ e.edge.target ≠ r.chunk.id := by
    rw [htables]
    exact List.filter_congr fun e _ => by
      rw [Bool.eq_iff_iff, not_any_touches, decide_eq_true_iff]
      rfl
  have hfiles : (s.deleteFile path).2.tables.files = s.tables.files.filter fun f => f.1 ≠ path := by
    rw [htables]
    exact List.filter_congr fun f _ => by rw [Bool.eq_iff_iff, bne_iff_ne, decide_eq_true_iff]
  constructor
  · intro r hr
    rw [hchunks] at hr
    simpa using (List.mem_filter.mp hr).2
  · intro slot hslot
    rw [htables, filled_removeFile] at hslot
    exact isOf_eq_false.mp (by simpa using (List.mem_filter.mp hslot).2)
  · intro e he
    rw [hedges] at he
    exact of_decide_eq_true (List.mem_filter.mp he).2
  · rw [hfiles]
    simp
  · exact hchunks
  · intro place slot hslot
    rw [htables]
    exact getElem?_freeSlots.trans (and_iff_left (isOf_eq_false.mpr hslot))
  · exact hedges
  · exact hfiles
  · rw [htables]
    exact List.length_map ..
  · rw [htables]
    rfl
  · rw [htables]
    rfl
  · exact hdimensions
  · exact hasTables_deleteFile s path

namespace FileRemoved

/-- Nothing is read of the file, and the chunks of another file are read as before. -/
theorem fileChunks (h : s.FileRemoved path s') (other : String) :
    s'.fileChunks other = if other = path then .ok [] else s.fileChunks other := by
  have hrows : s'.rowsOf other = if other = path then [] else s.rowsOf other := by
    rw [rowsOf, h.chunks, List.filter_filter]
    split
    · rename_i hother
      exact List.filter_eq_nil_iff.mpr (by simp [hother])
    · rename_i hother
      apply List.filter_congr
      intro r _
      rw [Bool.eq_iff_iff, Bool.and_eq_true, beq_iff_eq, decide_eq_true_iff]
      exact and_iff_left_of_imp fun hr => hr ▸ hother
  have hread : ∀ s : Store, s.fileChunks other =
      ((s.rowsOf other).mergeSort fun a b =>
        signed a.chunk.startLine ≤ signed b.chunk.startLine).mapM ChunkRow.read := fun _ => rfl
  rw [hread, hread, hrows]
  split
  · rw [List.mergeSort_nil]
    rfl
  · rfl

/-- Under an id that only the file has there is no chunk, and under one that it does not have the
same as before. -/
theorem chunk? (h : s.FileRemoved path s') (id : String) :
    ((∀ r ∈ s.tables.chunks, r.chunk.id = id → r.chunk.path = path) → s'.chunk? id = .ok none) ∧
      ((∀ r ∈ s.rowsOf path, r.chunk.id ≠ id) → s'.chunk? id = s.chunk? id) := by
  unfold Store.chunk?
  rw [← List.head?_filter, ← List.head?_filter, h.chunks, List.filter_filter]
  constructor
  · intro hid
    rw [List.filter_eq_nil_iff.mpr]
    · rfl
    · intro r hr
      simpa using hid r hr
  · intro hid
    have hrows : (s.tables.chunks.filter fun r => r.chunk.id == id &&
        decide (r.chunk.path ≠ path)) = s.tables.chunks.filter fun r => r.chunk.id == id := by
      apply List.filter_congr
      intro r hr
      rw [Bool.eq_iff_iff, Bool.and_eq_true, beq_iff_eq, decide_eq_true_iff]
      exact and_iff_left_of_imp fun hr' hpath => hid r (mem_rowsOf.mpr ⟨hr, hpath⟩) hr'
    rw [hrows]

theorem edges_eq_nil (h : s.FileRemoved path s') {r : ChunkRow} (hr : r ∈ s.rowsOf path)
    {f : EdgeFilter} (hf : f.source = some r.chunk.id ∨ f.target = some r.chunk.id) :
    s'.edges f = .ok [] := by
  have hnone : s'.tables.edges.filter f.accepts = [] := by
    apply List.filter_eq_nil_iff.mpr
    intro e he haccepts
    obtain ⟨hsource, htarget⟩ := h.noEdge e he r hr
    unfold EdgeFilter.accepts at haccepts
    rcases hf with hf | hf
    · rw [hf] at haccepts
      simp [hsource.symm] at haccepts
    · rw [hf] at haccepts
      simp [htarget.symm] at haccepts
  have hcut : f.cut ([] : List EdgeRow) = [] := by
    unfold EdgeFilter.cut
    split
    · exact List.take_nil
    · rfl
  rw [Store.edges, hnone, hcut]
  rfl

/-- A removed chunk has no neighbors. -/
theorem neighbors (h : s.FileRemoved path s') {r : ChunkRow} (hr : r ∈ s.rowsOf path)
    (limit : Nat) : s'.neighbors r.chunk.id limit = .ok [] := by
  unfold Store.neighbors
  rw [h.edges_eq_nil hr (Or.inl rfl)]
  show s'.edges _ >>= _ = _
  rw [h.edges_eq_nil hr (Or.inr rfl)]
  rfl

/-- No time is recorded for the file, and for another file the same as before. -/
theorem fileTime? (h : s.FileRemoved path s') (other : String) :
    s'.fileTime? other = if other = path then none else s.fileTime? other := by
  rw [Store.fileTime?, h.files]
  exact lookup_filter_ne s.tables.files

end FileRemoved

/-- Removing a file says how many chunks it had, and leaves nothing of them and all else as it was.
Nothing is read of the file any more, no removed chunk has a neighbor, and everything else is read
as before. -/
theorem deleteFile_forgets (s : Store) (path : String) :
    (s.deleteFile path).1 = s.tables.chunks.countP (fun r => r.chunk.path == path) ∧
      s.FileRemoved path (s.deleteFile path).2 ∧
      (∀ other, (s.deleteFile path).2.fileChunks other = if other = path then .ok []
        else s.fileChunks other) ∧
      (∀ other, (s.deleteFile path).2.fileTime? other = if other = path then none
        else s.fileTime? other) ∧
      (∀ id, ((∀ r ∈ s.tables.chunks, r.chunk.id = id → r.chunk.path = path) →
          (s.deleteFile path).2.chunk? id = .ok none) ∧
        ((∀ r ∈ s.rowsOf path, r.chunk.id ≠ id) → (s.deleteFile path).2.chunk? id = s.chunk? id)) ∧
      ∀ r ∈ s.rowsOf path, ∀ limit, (s.deleteFile path).2.neighbors r.chunk.id limit = .ok [] := by
  have h := fileRemoved_deleteFile s path
  refine ⟨?_, h, h.fileChunks, h.fileTime?, h.chunk?, fun r hr => h.neighbors hr⟩
  rw [deleteFile_count, List.countP_eq_length_filter]
  rfl

def calledChunk : Chunk where
  id := "g"
  kind := .member
  content := "def g(): pass"
  path := "b.py"
  startLine := 1
  endLine := 1
  language := "python"

def calledStore : Store :=
  [Call.insert [movedChunk "a.py", calledChunk] [[1.0], [0.5]] callingGraph,
    .record "a.py" { seconds := 1 }].foldl (fun s c => (c.apply s).1) { dimensions := 1 }

/-- When the file that calls is removed, the call goes with it and the function that was called
stays. -/
theorem deleteFile_forgets_calledStore :
    (calledStore.deleteFile "a.py").1 = 1 ∧
      calledStore.tables.edges.length = 1 ∧
      (calledStore.deleteFile "a.py").2.tables.edges = [] ∧
      (calledStore.deleteFile "a.py").2.chunk? "g" = calledStore.chunk? "g" ∧
      (calledStore.deleteFile "a.py").2.neighbors "f" 5 = .ok [] := by
  obtain ⟨hcount, hremoved, -, -, hchunk, hneighbors⟩ := deleteFile_forgets calledStore "a.py"
  have hrows : (calledStore.rowsOf "a.py").map (fun r => r.chunk.id) = ["f"] := rfl
  obtain ⟨r, hr, hid⟩ := List.mem_map.mp (hrows.symm ▸ List.mem_singleton_self "f")
  refine ⟨hcount, rfl, hremoved.edges, (hchunk "g").2 fun d hd => ?_, hid ▸ hneighbors r hr 5⟩
  have hmem : d.chunk.id ∈ (calledStore.rowsOf "a.py").map fun r => r.chunk.id :=
    List.mem_map_of_mem hd
  rw [hrows, List.mem_singleton] at hmem
  exact hmem.trans_ne (by decide)

end Removal

end CodeAtlas.Store
