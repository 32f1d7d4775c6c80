import CodeAtlas.Proofs.Store.Writing

/-!
Calls to a store. Whatever calls are made, in whatever order and with whatever outcome, ids tell
chunks apart, every chunk has one embedding of the right length and no embedding stands alone, and
dependencies are told apart by their ends and their relationship.
-/

namespace CodeAtlas.Store

inductive Call where
  | insert (chunks : List Chunk) (vectors : List Embedding) (g : Graph)
  | delete (path : String)
  | sync (g : Graph)
  | record (path : String) (time : Instant)

def Call.apply (s : Store) : Call → Store × Except Failure Unit
  | insert chunks vectors g =>
    match s.insert chunks vectors g with
    | .ok s' => (s', .ok ())
    | .error e => (s, .error e)
  | delete path => ((s.deleteFile path).2, .ok ())
  | sync g => (s.sync g, .ok ())
  | record path time => (s.recordFile path time, .ok ())

/-- What a call may answer and leave. The engine below the store may give up on any call; what the
call has written is taken back then, but tables that were made for it stay. A call that deletes
makes none. -/
inductive Leaves (s : Store) (c : Call) : Except Failure Unit → Store → Prop where
  | carriedOut {r : Except Failure Unit} {s' : Store} : c.apply s = (s', r) → Leaves s c r s'
  | takenBack : Leaves s c (.error .store) s
  | tablesMade : (∀ path, c ≠ .delete path) →
    Leaves s c (.error .store) { s with tables? := some s.tables }

/-- The stores that calls, one after the other, may lead to. -/
inductive Runs : Store → List Call → Store → Prop where
  | nil (s : Store) : Runs s [] s
  | cons {s s' s'' : Store} {c : Call} {cs : List Call} {r : Except Failure Unit} :
      Leaves s c r s' → Runs s' cs s'' → Runs s (c :: cs) s''

/-- Whether the tables of a store for embeddings of some length are in step with each other. -/
structure Consistent (length : Nat) (s : Store) : Prop where
  ids : (s.tables.chunks.map fun r => r.chunk.id).Nodup
  keys : (s.tables.chunks.map ChunkRow.key).Nodup
  slots : ((Tables.filled s.tables.slots).map Slot.key).Perm (s.tables.chunks.map ChunkRow.key)
  lengths : ∀ slot ∈ Tables.filled s.tables.slots, slot.vector.length = length
  edges : (s.tables.edges.map EdgeRow.key).Nodup
  noTables : s.hasTables = false → s.tables.chunks = [] ∧ Tables.filled s.tables.slots = [] ∧
    s.tables.edges = [] ∧ s.tables.files = []

namespace Tables

section Edges

variable {t after : Tables} {g : Graph} {rows : List EdgeRow}

theorem putRow_over {row : EdgeRow} (h : row.key ∈ rows.map EdgeRow.key) :
    (putRow row rows).map EdgeRow.key = rows.map EdgeRow.key := by
  induction rows with
  | nil => exact absurd h List.not_mem_nil
  | cons r rest ih =>
    rw [putRow]
    split
    · rename_i he
      rw [List.map_cons, List.map_cons, (by simpa using he : r.key = row.key)]
    · rename_i hne
      rcases List.mem_cons.mp h with he | hm
      · exact absurd (by simp [he]) hne
      · rw [List.map_cons, List.map_cons, ih hm]

theorem nodup_putRow (h : (rows.map EdgeRow.key).Nodup) (row : EdgeRow) :
    ((putRow row rows).map EdgeRow.key).Nodup := by
  by_cases hm : row.key ∈ rows.map EdgeRow.key
  · rw [putRow_over hm]
    exact h
  · rw [putRow_new fun r hr he => hm (he ▸ List.mem_map_of_mem hr), List.map_append]
    apply List.nodup_append.mpr
    refine ⟨h, List.nodup_singleton _, ?_⟩
    rintro a ha b hb rfl
    exact hm (List.mem_singleton.mp hb ▸ ha)

theorem nodup_putEdges (h : (t.edges.map EdgeRow.key).Nodup) (edges : List Dependency) :
    ((t.putEdges edges).edges.map EdgeRow.key).Nodup := by
  have hall : ∀ rows : List EdgeRow, (rows.map EdgeRow.key).Nodup →
      ((edges.foldl (fun rows d => putRow (EdgeRow.ofEdge d) rows) rows).map
          EdgeRow.key).Nodup := by
    induction edges with
    | nil => exact fun rows hr => hr
    | cons d rest ih => exact fun rows hr => ih _ (nodup_putRow hr _)
  exact hall t.edges h

theorem edges_putWithVector {entry : Chunk × Embedding} (h : t.putWithVector g entry = .ok after) :
    after.edges = t.edges := by
  have hput : ∀ c : StoredChunk, (t.putChunk c).edges = t.edges := by
    intro c
    unfold putChunk
    split <;> rfl
  unfold putWithVector putVector at h
  split at h
  · exact absurd h nofun
  · split at h
    · rw [← Except.ok.inj h]
      exact hput _
    · rw [← Except.ok.inj h]
      exact hput _

theorem edges_putAll {entries : List (Chunk × Embedding)}
    (h : entries.foldlM (putWithVector g) t = .ok after) : after.edges = t.edges := by
  induction entries generalizing t with
  | nil =>
    obtain rfl := Except.ok.inj h
    rfl
  | cons e rest ih =>
    rw [List.foldlM_cons] at h
    cases he : t.putWithVector g e with
    | error err =>
      rw [he] at h
      exact absurd h nofun
    | ok next =>
      rw [he] at h
      exact (ih h).trans (edges_putWithVector he)

theorem error_putAll {entries : List (Chunk × Embedding)} {e : Failure}
    (h : entries.foldlM (putWithVector g) t = .error e) : e = .store := by
  induction entries generalizing t with
  | nil => exact absurd h nofun
  | cons entry rest ih =>
    rw [List.foldlM_cons] at h
    cases he : t.putWithVector g entry with
    | ok next =>
      rw [he] at h
      exact ih h
    | error err =>
      rw [he] at h
      obtain rfl := Except.error.inj h
      unfold putWithVector putVector at he
      split at he
      · exact (Except.error.inj he).symm
      · split at he
        · exact absurd he nofun
        · exact absurd he nofun

end Edges

end Tables

section Calls

variable {s s' : Store} {length : Nat}

theorem insert_of_apply {chunks : List Chunk} {vectors : List Embedding} {g : Graph}
    (h : (Call.insert chunks vectors g).apply s = (s', .ok ())) :
    s.insert chunks vectors g = .ok s' := by
  unfold Call.apply at h
  dsimp only at h
  split at h
  · rename_i after hi
    rw [hi, (Prod.mk.inj h).1]
  · exact absurd (Prod.mk.inj h).2 nofun

/-- What every call keeps. -/
structure InStep (length : Nat) (s : Store) : Prop where
  sound : s.tables.Sound
  dimensions : s.dimensions = length
  width : s.tables.width = length
  edges : (s.tables.edges.map EdgeRow.key).Nodup

theorem inStep_empty (length : Nat) : InStep length { dimensions := length } where
  sound := Tables.sound_empty length
  dimensions := rfl
  width := rfl
  edges := List.nodup_nil

theorem InStep.insert (h : InStep length s) {chunks : List Chunk} {vectors : List Embedding}
    {g : Graph} (hi : s.insert chunks vectors g = .ok s') : InStep length s' := by
  obtain ⟨hd, hw⟩ := insert_written h.sound hi
  refine ⟨hw.sound, hd.trans h.dimensions, hw.width.trans h.width, ?_⟩
  rcases insert_steps hi with ⟨-, rfl⟩ | ⟨t, ht, rfl⟩
  · exact h.edges
  · exact Tables.nodup_putEdges (Tables.edges_putAll ht ▸ h.edges) _

theorem InStep.delete (h : InStep length s) (path : String) :
    InStep length (s.deleteFile path).2 := by
  obtain ⟨ht, hd⟩ := deleteFile_eq s path
  constructor
  · exact ht ▸ Tables.removeFile_sound h.sound
  · exact hd.trans h.dimensions
  · rw [ht]
    exact h.width
  · rw [ht]
    exact h.edges.sublist (List.filter_sublist.map _)

theorem InStep.sync (h : InStep length s) (g : Graph) : InStep length (s.sync g) := by
  have hempty : ({ s.tables with edges := [] } : Tables).Sound := h.sound.congr rfl rfl rfl rfl
  constructor
  · rw [sync_tables]
    exact Tables.place_sound (hempty.putEdges g.edges)
  · exact h.dimensions
  · exact h.width
  · exact Tables.nodup_putEdges (t := { s.tables with edges := [] }) List.nodup_nil g.edges

theorem InStep.apply (h : InStep length s) (c : Call) : InStep length (c.apply s).1 := by
  cases c with
  | insert chunks vectors g =>
    unfold Call.apply
    dsimp only
    split
    · rename_i s' hi
      exact h.insert hi
    · exact h
  | delete path => exact h.delete path
  | sync g => exact h.sync g
  | record path time => exact ⟨h.sound.congr rfl rfl rfl rfl, h.dimensions, h.width, h.edges⟩

theorem InStep.leaves (h : InStep length s) {c : Call} {r : Except Failure Unit}
    (hl : Leaves s c r s') : InStep length s' := by
  cases hl with
  | carriedOut ha =>
    have hs := h.apply c
    rwa [ha] at hs
  | takenBack => exact h
  | tablesMade => exact ⟨h.sound, h.dimensions, h.width, h.edges⟩

theorem InStep.runs (h : InStep length s) {calls : List Call} (hr : Runs s calls s') :
    InStep length s' := by
  induction hr with
  | nil => exact h
  | cons hl _ ih => exact ih (h.leaves hl)

theorem InStep.consistent (h : InStep length s) : Consistent length s where
  ids := h.sound.ids
  keys := h.sound.keys
  slots := h.sound.slots
  lengths := fun slot hs => (h.sound.widths slot hs).trans h.width
  edges := h.edges
  noTables := by
    intro hn
    have ht : s.tables? = none := by simpa [hasTables] using hn
    unfold tables
    rw [ht]
    exact ⟨rfl, rfl, rfl, rfl⟩

theorem insert_eq_invalidInput (s : Store) (chunks : List Chunk) (vectors : List Embedding)
    (g : Graph) : (∃ reason, s.insert chunks vectors g = .error (.invalidInput reason)) ↔
      chunks.length ≠ vectors.length ∨ ∃ v ∈ vectors, v.length ≠ s.dimensions := by
  unfold Store.insert
  by_cases hlen : chunks.length = vectors.length
  · rw [if_neg (by simp [hlen])]
    cases hfind : vectors.find? fun v => v.length != s.dimensions with
    | some v =>
      have hv : v.length ≠ s.dimensions := by simpa using List.find?_some hfind
      have hm := List.mem_of_find?_eq_some hfind
      exact ⟨fun _ => Or.inr ⟨v, hm, hv⟩, fun _ => ⟨_, rfl⟩⟩
    | none =>
      have hall : ∀ v ∈ vectors, v.length = s.dimensions := by
        intro v hv
        simpa using List.find?_eq_none.mp hfind v hv
      constructor
      · rintro ⟨reason, h⟩
        dsimp only at h
        split at h
        · exact absurd h nofun
        · cases ht : (chunks.zip vectors).foldlM (Tables.putWithVector g) s.tables with
          | error e =>
            rw [ht] at h
            obtain rfl := Tables.error_putAll ht
            exact absurd (Except.error.inj h) nofun
          | ok t =>
            rw [ht] at h
            exact absurd h nofun
      · rintro (hne | ⟨v, hv, hne⟩)
        · exact absurd hlen hne
        · exact absurd (hall v hv) hne
  · rw [if_pos (by simp [hlen])]
    exact ⟨fun _ => Or.inl hlen, fun _ => ⟨_, rfl⟩⟩

/-- A call that refuses a batch as invalid leaves the store as it is. -/
theorem leaves_invalidInput {chunks : List Chunk} {vectors : List Embedding} {g : Graph}
    {reason : String} : Leaves s (.insert chunks vectors g) (.error (.invalidInput reason)) s' ↔
      s' = s ∧ s.insert chunks vectors g = .error (.invalidInput reason) := by
  constructor
  · intro h
    cases h with
    | carriedOut ha =>
      unfold Call.apply at ha
      dsimp only at ha
      split at ha
      · exact absurd (Prod.mk.inj ha).2 nofun
      · rename_i e he
        obtain ⟨rfl, hr⟩ := Prod.mk.inj ha
        exact ⟨rfl, he.trans (congrArg _ (Except.error.inj hr))⟩
  · rintro ⟨rfl, hi⟩
    apply Leaves.carriedOut
    rw [Call.apply, hi]

/-- Calls keep the tables in step. A batch is refused as invalid exactly if there are not as many
embeddings as chunks or one of them has a wrong length, and then the store is left as it is. -/
theorem runs_consistent {calls : List Call} (hopen : Store.ofDimensions length = .ok s)
    (h : Runs s calls s') : Consistent length s' ∧
      ∀ chunks vectors g,
        ((∃ reason, Leaves s' (.insert chunks vectors g) (.error (.invalidInput reason)) s') ↔
          chunks.length ≠ vectors.length ∨ ∃ v ∈ vectors, v.length ≠ length) ∧
        ∀ reason after, Leaves s' (.insert chunks vectors g) (.error (.invalidInput reason)) after →
            after = s' := by
  obtain rfl := ofDimensions_eq hopen
  have hs := (inStep_empty length).runs h
  refine ⟨hs.consistent, fun chunks vectors g =>
    ⟨?_, fun reason after ha => (leaves_invalidInput.mp ha).1⟩⟩
  have hrefused := insert_eq_invalidInput s' chunks vectors g
  rw [hs.dimensions] at hrefused
  rw [← hrefused]
  constructor
  · rintro ⟨reason, ha⟩
    exact ⟨reason, (leaves_invalidInput.mp ha).2⟩
  · rintro ⟨reason, hi⟩
    exact ⟨reason, leaves_invalidInput.mpr ⟨rfl, hi⟩⟩

theorem runs_carriedOut (s : Store) (calls : List Call) :
    Runs s calls (calls.foldl (fun s c => (c.apply s).1) s) := by
  induction calls generalizing s with
  | nil => exact .nil s
  | cons c rest ih => exact .cons (.carriedOut rfl) (ih _)

end Calls

section MovedChunk

def movedChunk (path : String) : Chunk where
  id := "f"
  kind := .member
  content := "def f(): g()"
  path := path
  startLine := 1
  endLine := 1
  language := "python"

def callingGraph : Graph where
  edges := [⟨"f", "g", .calls, 0.8, true, false, "", []⟩]

/-- A chunk moves to another file within a batch; a second batch is refused. -/
def movingCalls : List Call :=
  [.insert [movedChunk "a.py", movedChunk "b.py"] [[1.0], [0.5]] callingGraph,
    .insert [movedChunk "c.py"] [[]] callingGraph, .delete "a.py", .sync callingGraph,
    .record "b.py" { seconds := 1 }]

def movedStore : Store := movingCalls.foldl (fun s c => (c.apply s).1) { dimensions := 1 }

theorem runs_consistent_movedChunk :
    Runs { dimensions := 1 } movingCalls movedStore ∧ Consistent 1 movedStore ∧
      (movedStore.tables.chunks.map fun r => r.chunk.path) = ["b.py"] ∧
      ∃ reason, Leaves movedStore (.insert [movedChunk "c.py"] [[]] callingGraph)
        (.error (.invalidInput reason)) movedStore := by
  have hruns : Runs { dimensions := 1 } movingCalls movedStore := runs_carriedOut _ _
  have hopen : Store.ofDimensions 1 = .ok { dimensions := 1 } := rfl
  obtain ⟨hconsistent, hrefused⟩ := runs_consistent hopen hruns
  have hshort : ∃ v ∈ ([[]] : List Embedding), v.length ≠ 1 :=
    ⟨[], List.mem_singleton_self _, by decide⟩
  exact ⟨hruns, hconsistent, rfl, (hrefused _ _ _).1.mpr (Or.inr hshort)⟩

end MovedChunk

end CodeAtlas.Store
