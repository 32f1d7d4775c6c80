import Mathlib.Data.List.Induction
import CodeAtlas.Proofs.Store.Columns
import CodeAtlas.Proofs.Store.Consistency
import CodeAtlas.Proofs.Store.Places

/-!
What a store answers when it is asked for a chunk. Whatever calls were made, it is the chunk that
was written last under the id, unless its file was removed since, with its place in the graph that
was written last.
-/

namespace CodeAtlas

open Document

namespace Store

/-- Stores and what calls to them answer, one call after the other. -/
inductive Logged : Store → List (Call × Except Failure Unit) → Store → Prop where
  | nil (s : Store) : Logged s [] s
  | cons {s s' s'' : Store} {c : Call} {r : Except Failure Unit}
      {log : List (Call × Except Failure Unit)} :
      Leaves s c r s' → Logged s' log s'' → Logged s ((c, r) :: log) s''

def succeeded (log : List (Call × Except Failure Unit)) : List Call :=
  (log.filter fun e => e.2.isOk).map Prod.fst

namespace Call

/-- The chunk that a call leaves under an id, if it writes there, and the graph it writes it
with. -/
def written? (id : String) : Call → Option (Chunk × Graph)
  | insert chunks _ g => (chunks.reverse.find? fun c => c.id == id).map (·, g)
  | _ => none

/-- The graph that a call writes over all places. -/
def synced? : Call → Option Graph
  | sync g => some g
  | _ => none

end Call

/-- Whether a chunk is the one that is last written under an id, with a graph and with some calls
after it. -/
structure LastWrite (calls : List Call) (id : String) (c : Chunk) (g : Graph) (later : List Call) :
    Prop where
  written : ∃ earlier call, calls = earlier ++ call :: later ∧ call.written? id = some (c, g)
  unwritten : ∀ call ∈ later, call.written? id = none

/-- The graph that is in force after some calls, given the one before them. -/
def latestGraph (g : Graph) (later : List Call) : Graph :=
  (later.filterMap Call.synced?).getLast?.getD g

section Calls

variable {calls later : List Call} {call : Call} {id : String} {c : Chunk} {g : Graph}

theorem Call.exists_of_written? (h : call.written? id = some (c, g)) :
    ∃ chunks vectors, call = .insert chunks vectors g ∧ c ∈ chunks ∧ c.id = id := by
  cases call with
  | insert chunks vectors g' =>
    obtain ⟨d, hd, he⟩ := Option.map_eq_some_iff.mp h
    obtain ⟨rfl, rfl⟩ := Prod.mk.inj he
    exact ⟨chunks, vectors, rfl,
      List.mem_reverse.mp (List.mem_of_find?_eq_some hd), by simpa using List.find?_some hd⟩
  | delete path => exact absurd h nofun
  | sync g' => exact absurd h nofun
  | record path time => exact absurd h nofun

theorem Call.written?_insert {chunks : List Chunk} (h : id ∈ chunks.map Chunk.id)
    (vectors : List Embedding) (g : Graph) :
    ∃ c, (Call.insert chunks vectors g).written? id = some (c, g) := by
  obtain ⟨d, hd, rfl⟩ := List.mem_map.mp h
  cases hfind : chunks.reverse.find? fun c => c.id == d.id with
  | none => exact absurd (List.find?_eq_none.mp hfind d (List.mem_reverse.mpr hd)) (by simp)
  | some c => exact ⟨c, by rw [Call.written?, hfind]; rfl⟩

theorem Call.written?_insert_eq_none {chunks : List Chunk} {vectors : List Embedding} :
    (Call.insert chunks vectors g).written? id = none ↔ id ∉ chunks.map Chunk.id := by
  simp [Call.written?]

theorem not_lastWrite_nil : ¬ LastWrite [] id c g later := by
  intro h
  obtain ⟨earlier, writer, hcalls, -⟩ := h.written
  exact absurd hcalls (by simp)

/-- Where something stands in a list, it stands last or before what stands last. -/
theorem concat_eq_append_cons {α : Type} {xs before after : List α} {x y : α} :
    xs ++ [x] = before ++ y :: after ↔
      (after = [] ∧ xs = before ∧ x = y) ∨ ∃ fewer, after = fewer ++ [x] ∧
          xs = before ++ y :: fewer := by
  constructor
  · intro h
    cases after using List.reverseRecOn with
    | nil =>
      obtain ⟨hbefore, hlast⟩ := List.append_inj' h rfl
      exact Or.inl ⟨rfl, hbefore, (List.cons.inj hlast).1⟩
    | append_singleton fewer last =>
      rw [← List.cons_append, ← List.append_assoc] at h
      obtain ⟨hbefore, hlast⟩ := List.append_inj' h rfl
      obtain rfl := (List.cons.inj hlast).1
      exact Or.inr ⟨fewer, rfl, hbefore⟩
  · rintro (⟨rfl, rfl, rfl⟩ | ⟨fewer, rfl, rfl⟩)
    · rfl
    · rw [List.append_assoc, List.cons_append]

/-- The last write is by the last call, or it is by a call before and the last call does not write
there. -/
theorem lastWrite_concat : LastWrite (calls ++ [call]) id c g later ↔
    (later = [] ∧ call.written? id = some (c, g)) ∨
      ∃ fewer, later = fewer ++ [call] ∧ LastWrite calls id c g fewer ∧
          call.written? id = none := by
  constructor
  · intro h
    obtain ⟨earlier, writer, hcalls, hwriter⟩ := h.written
    rcases concat_eq_append_cons.mp hcalls with ⟨rfl, -, rfl⟩ | ⟨fewer, rfl, hbefore⟩
    · exact Or.inl ⟨rfl, hwriter⟩
    · refine Or.inr ⟨fewer, rfl, ⟨⟨earlier, writer, hbefore, hwriter⟩, ?_⟩, ?_⟩
      · exact fun d hd => h.unwritten d (List.mem_append_left _ hd)
      · exact h.unwritten call (List.mem_append_right _ (List.mem_singleton_self _))
  · intro h
    rcases h with ⟨rfl, hwritten⟩ | ⟨fewer, rfl, h, hcall⟩
    · exact ⟨⟨calls, call, rfl, hwritten⟩, fun _ hd => absurd hd List.not_mem_nil⟩
    · obtain ⟨earlier, writer, hcalls, hwriter⟩ := h.written
      refine ⟨⟨earlier, writer, concat_eq_append_cons.mpr (Or.inr ⟨fewer, rfl, hcalls⟩), hwriter⟩,
        fun d hd => ?_⟩
      rcases List.mem_append.mp hd with hd | hd
      · exact h.unwritten d hd
      · exact List.mem_singleton.mp hd ▸ hcall

theorem LastWrite.concat (h : LastWrite calls id c g later) (hcall : call.written? id = none) :
    LastWrite (calls ++ [call]) id c g (later ++ [call]) :=
  lastWrite_concat.mpr (Or.inr ⟨later, rfl, h, hcall⟩)

theorem LastWrite.id_eq (h : LastWrite calls id c g later) : c.id = id := by
  obtain ⟨-, writer, -, hwriter⟩ := h.written
  obtain ⟨-, -, -, -, hid⟩ := Call.exists_of_written? hwriter
  exact hid

/-- There is one last write under an id. -/
theorem LastWrite.unique {c' : Chunk} {g' : Graph} {later' : List Call}
    (h : LastWrite calls id c g later) (h' : LastWrite calls id c' g' later') :
    c = c' ∧ g = g' ∧ later = later' := by
  induction calls using List.reverseRecOn generalizing later later' with
  | nil => exact absurd h not_lastWrite_nil
  | append_singleton calls last ih =>
    rcases lastWrite_concat.mp h with ⟨rfl, hlast⟩ | ⟨fewer, rfl, hfewer, hlast⟩
    · rcases lastWrite_concat.mp h' with ⟨rfl, hlast'⟩ | ⟨-, -, -, hlast'⟩
      · obtain ⟨rfl, rfl⟩ := Prod.mk.inj (Option.some.inj (hlast.symm.trans hlast'))
        exact ⟨rfl, rfl, rfl⟩
      · exact absurd (hlast.symm.trans hlast') nofun
    · rcases lastWrite_concat.mp h' with ⟨-, hlast'⟩ | ⟨fewer', rfl, hfewer', -⟩
      · exact absurd (hlast.symm.trans hlast') nofun
      · obtain ⟨hc, hg, hf⟩ := ih hfewer hfewer'
        exact ⟨hc, hg, by rw [hf]⟩

/-- There is a last write under every id that is written. -/
theorem exists_lastWrite (h : ∃ call ∈ calls, call.written? id ≠ none) :
    ∃ c g later, LastWrite calls id c g later := by
  induction calls using List.reverseRecOn with
  | nil =>
    obtain ⟨call, hmem, -⟩ := h
    exact absurd hmem List.not_mem_nil
  | append_singleton calls last ih =>
    cases hlast : last.written? id with
    | some e => exact ⟨e.1, e.2, [], lastWrite_concat.mpr (Or.inl ⟨rfl, hlast⟩)⟩
    | none =>
      obtain ⟨call, hmem, hwritten⟩ := h
      have hcall : call ∈ calls := by
        rcases List.mem_append.mp hmem with hmem | hmem
        · exact hmem
        · exact absurd (List.mem_singleton.mp hmem ▸ hlast) hwritten
      obtain ⟨c, g, later, hw⟩ := ih ⟨call, hcall, hwritten⟩
      exact ⟨c, g, _, hw.concat hlast⟩

theorem latestGraph_sync (g g' : Graph) (later : List Call) :
    latestGraph g (later ++ [.sync g']) = g' := by
  simp [latestGraph, Call.synced?]

theorem latestGraph_concat (g : Graph) (later : List Call) (h : call.synced? = none) :
    latestGraph g (later ++ [call]) = latestGraph g later := by
  simp [latestGraph, h]

/-- What a call makes of a chunk that is kept, unless it writes another one there. -/
def Call.Turns : Call → StoredChunk → StoredChunk → Prop
  | insert chunks _ _, old, d => d = old ∧ old.chunk.id ∉ chunks.map Chunk.id
  | delete path, old, d => d = old ∧ old.chunk.path ≠ path
  | sync g, old, d => d = ⟨old.chunk, profileIn g old.chunk.id⟩
  | record _ _, old, d => d = old

def keptIn (g : Graph) (c : Chunk) : StoredChunk :=
  ⟨keptChunk c, profileIn g c.id⟩

/-- Whether a chunk is the one that was last written under its id, and its file was not removed
since. -/
def LastKept (calls : List Call) (d : StoredChunk) : Prop :=
  ∃ c g later, LastWrite calls d.chunk.id c g later ∧ .delete c.path ∉ later ∧
  d = keptIn (latestGraph g later) c

theorem lastKept_concat {d : StoredChunk} : LastKept (calls ++ [call]) d ↔
    (∃ c g, call.written? d.chunk.id = some (c, g) ∧ d = keptIn g c) ∨
      ∃ old, LastKept calls old ∧ call.Turns old d := by
  constructor
  · intro h
    obtain ⟨c, g, later, hwrite, hdelete, hd⟩ := h
    rcases lastWrite_concat.mp hwrite with ⟨rfl, hcall⟩ | ⟨fewer, rfl, hfewer, hcall⟩
    · exact Or.inl ⟨c, g, hcall, hd⟩
    · rw [List.mem_append, not_or] at hdelete
      have hid : c.id = d.chunk.id := hfewer.id_eq
      have hold : LastKept calls (keptIn (latestGraph g fewer) c) :=
        ⟨c, g, fewer, hid ▸ hfewer, hdelete.1, rfl⟩
      refine Or.inr ⟨_, hold, ?_⟩
      cases call with
      | insert chunks vectors g' =>
        rw [latestGraph_concat g fewer rfl] at hd
        exact ⟨hd, hid ▸ Call.written?_insert_eq_none.mp hcall⟩
      | delete path =>
        rw [latestGraph_concat g fewer rfl] at hd
        refine ⟨hd, ?_⟩
        rintro rfl
        exact hdelete.2 (List.mem_singleton_self _)
      | sync g' =>
        rw [latestGraph_sync] at hd
        exact hd
      | record path time =>
        rw [latestGraph_concat g fewer rfl] at hd
        exact hd
  · intro h
    rcases h with ⟨c, g, hcall, rfl⟩ | ⟨old, ⟨c, g, later, hwrite, hdelete, rfl⟩, hturns⟩
    · exact ⟨c, g, [], lastWrite_concat.mpr (Or.inl ⟨rfl, hcall⟩), List.not_mem_nil, rfl⟩
    · cases call with
      | insert chunks vectors g' =>
        obtain ⟨rfl, hnot⟩ := hturns
        exact ⟨c, g, _, hwrite.concat (Call.written?_insert_eq_none.mpr hnot),
          by simpa using hdelete, by rw [latestGraph_concat g later rfl]⟩
      | delete path =>
        obtain ⟨rfl, hpath⟩ := hturns
        have hpath : c.path ≠ path := hpath
        exact ⟨c, g, _, hwrite.concat rfl, by simpa [hpath]
          using hdelete, by rw [latestGraph_concat g later rfl]⟩
      | sync g' =>
        obtain rfl := hturns
        exact ⟨c, g, _, hwrite.concat rfl, by simpa using hdelete, by rw [latestGraph_sync]; rfl⟩
      | record path time =>
        obtain rfl := hturns
        exact ⟨c, g, _,
          hwrite.concat rfl, by simpa using hdelete, by rw [latestGraph_concat g later rfl]⟩

end Calls

section Tables

open Tables

variable {s s' : Store} {d : StoredChunk}

theorem map_id_zip {chunks : List Chunk} {vectors : List Embedding}
    (h : chunks.length = vectors.length) :
    (chunks.zip vectors).map (fun e => e.1.id) = chunks.map Chunk.id := by
  have hfst : (chunks.zip vectors).map Prod.fst = chunks := List.map_fst_zip h.le
  have hids := congrArg (List.map Chunk.id) hfst
  rwa [List.map_map] at hids

/-- The chunk that is written last under its id is the first from the end that has it. -/
theorem mem_lastWrites_zip {chunks : List Chunk} {vectors : List Embedding}
    (h : chunks.length = vectors.length) (c : Chunk) :
    (∃ w, (c, w) ∈ lastWrites (chunks.zip vectors)) ↔
      chunks.reverse.find? (fun d => d.id == c.id) = some c := by
  induction chunks generalizing vectors with
  | nil => simp [lastWrites]
  | cons d rest ih =>
    cases vectors with
    | nil => exact absurd h (by simp)
    | cons v vectors =>
      have hlen : rest.length = vectors.length := by simpa using h
      have hnone : rest.reverse.find? (fun e => e.id == c.id) = none ↔
        c.id ∉ rest.map Chunk.id := by simp
      have hcons : (d :: rest).reverse.find? (fun e => e.id == c.id) = some c ↔
          rest.reverse.find? (fun e => e.id == c.id) = some c ∨
              (d = c ∧ c.id ∉ rest.map Chunk.id) := by
        rw [List.reverse_cons, List.find?_append, Option.or_eq_some_iff, hnone]
        apply or_congr_right
        constructor
        · rintro ⟨hc, hd⟩
          exact ⟨(List.mem_singleton.mp (List.mem_of_find?_eq_some hd)).symm, hc⟩
        · rintro ⟨rfl, hc⟩
          exact ⟨hc, by simp⟩
      rw [List.zip_cons_cons, lastWrites, map_id_zip hlen, hcons, ← ih hlen]
      split
      · rename_i hd
        refine ⟨Or.inl, fun h => ?_⟩
        rcases h with h | ⟨rfl, hc⟩
        · exact h
        · exact absurd hd hc
      · rename_i hd
        simp only [List.mem_cons, exists_or, Prod.mk.injEq]
        rw [or_comm]
        apply or_congr_right
        constructor
        · rintro ⟨w, rfl, -⟩
          exact ⟨rfl, hd⟩
        · rintro ⟨rfl, -⟩
          exact ⟨v, rfl, rfl⟩

theorem length_of_insert {chunks : List Chunk} {vectors : List Embedding} {g : Graph}
    (h : s.insert chunks vectors g = .ok s') : chunks.length = vectors.length := by
  unfold insert at h
  split at h
  · exact absurd h nofun
  · rename_i hlen
    simpa using hlen

theorem mem_stored_lastWrites {chunks : List Chunk} {vectors : List Embedding} {g : Graph}
    (h : chunks.length = vectors.length) :
    (∃ w, (d, w) ∈ (lastWrites (chunks.zip vectors)).map (stored g)) ↔
      ∃ c g', (Call.insert chunks vectors g).written? d.chunk.id = some (c, g') ∧
          d = keptIn g' c := by
  constructor
  · rintro ⟨w, hw⟩
    obtain ⟨⟨c, v⟩, hc, he⟩ := List.mem_map.mp hw
    obtain ⟨rfl, rfl⟩ := Prod.mk.inj he
    have hfind := (mem_lastWrites_zip h c).mp ⟨v, hc⟩
    exact ⟨c, g, Option.map_eq_some_iff.mpr ⟨c, hfind, rfl⟩, rfl⟩
  · rintro ⟨c, g', hc, rfl⟩
    obtain ⟨c, hfind, he⟩ := Option.map_eq_some_iff.mp hc
    obtain ⟨rfl, rfl⟩ := Prod.mk.inj he
    obtain ⟨w, hw⟩ := (mem_lastWrites_zip h c).mpr hfind
    exact ⟨w, List.mem_map_of_mem hw⟩

/-- What a successful call does to the chunks that are held. -/
theorem apply_holds {call : Call} (hs : s.tables.Sound) (ha : call.apply s = (s', .ok ())) :
    (∃ w, s'.tables.Holds d w) ↔ (∃ c g, call.written? d.chunk.id = some (c, g) ∧ d = keptIn g c) ∨
      ∃ old, (∃ w, s.tables.Holds old w) ∧ call.Turns old d := by
  cases call with
  | insert chunks vectors g =>
    have hi := insert_of_apply ha
    have hlen := length_of_insert hi
    simp only [insert_holds hs hi, map_id_zip hlen, exists_or, mem_stored_lastWrites hlen,
      Call.Turns]
    apply or_congr_right
    constructor
    · rintro ⟨w, hd, hid⟩
      exact ⟨d, ⟨w, hd⟩, rfl, hid⟩
    · rintro ⟨old, ⟨w, hd⟩, rfl, hid⟩
      exact ⟨w, hd, hid⟩
  | delete path =>
    obtain rfl := (Prod.mk.inj ha).1
    rw [(deleteFile_eq s path).1]
    simp only [removeFile_holds hs, Call.written?, Call.Turns]
    constructor
    · rintro ⟨w, hd, hpath⟩
      exact Or.inr ⟨d, ⟨w, hd⟩, rfl, hpath⟩
    · rintro (⟨c, g, h, -⟩ | ⟨old, ⟨w, hd⟩, rfl, hpath⟩)
      · exact absurd h nofun
      · exact ⟨w, hd, hpath⟩
  | sync g =>
    obtain rfl := (Prod.mk.inj ha).1
    rw [sync_tables]
    simp only [place_holds, Call.written?, Call.Turns]
    constructor
    · rintro ⟨w, old, hold, rfl⟩
      exact Or.inr ⟨old, ⟨w, hold⟩, rfl⟩
    · rintro (⟨c, g, h, -⟩ | ⟨old, ⟨w, hold⟩, rfl⟩)
      · exact absurd h nofun
      · exact ⟨w, old, hold, rfl⟩
  | record path time =>
    obtain rfl := (Prod.mk.inj ha).1
    simp only [Call.written?, Call.Turns]
    constructor
    · rintro ⟨w, hd⟩
      exact Or.inr ⟨d, ⟨w, hd⟩, rfl⟩
    · rintro (⟨c, g, h, -⟩ | ⟨old, hd, rfl⟩)
      · exact absurd h nofun
      · exact hd

/-- A call that fails leaves the tables as they are. -/
theorem Leaves.tables_eq {call : Call} {e : Failure} (h : Leaves s call (.error e) s') :
    s'.tables = s.tables := by
  cases h with
  | carriedOut ha =>
    cases call with
    | insert chunks vectors g =>
      unfold Call.apply at ha
      dsimp only at ha
      split at ha
      · exact absurd (Prod.mk.inj ha).2 nofun
      · rw [(Prod.mk.inj ha).1]
    | delete path => exact absurd (Prod.mk.inj ha).2 nofun
    | sync g => exact absurd (Prod.mk.inj ha).2 nofun
    | record path time => exact absurd (Prod.mk.inj ha).2 nofun
  | takenBack => rfl
  | tablesMade => rfl

/-- The chunks that are held are those that are kept since they were last written. -/
theorem Logged.holds {length : Nat} {done : List Call} {log : List (Call × Except Failure Unit)}
    (h : Logged s log s') (hs : InStep length s) (hdone : ∀ d, (∃ w, s.tables.Holds d w) ↔
      LastKept done d) :
    InStep length s' ∧ ∀ d, (∃ w, s'.tables.Holds d w) ↔ LastKept (done ++ succeeded log) d := by
  induction h generalizing done with
  | nil s =>
    rw [succeeded, List.filter_nil, List.map_nil, List.append_nil]
    exact ⟨hs, hdone⟩
  | @cons s next s' call r log hleaves hlog ih =>
    have hnext := hs.leaves hleaves
    cases r with
    | error e => exact ih hnext (hleaves.tables_eq ▸ hdone)
    | ok =>
      have happly : call.apply s = (next, .ok ()) := by
        cases hleaves with
        | carriedOut ha => exact ha
      have hstep : ∀ d, (∃ w, next.tables.Holds d w) ↔ LastKept (done ++ [call]) d := by
        intro d
        simp only [apply_holds hs.sound happly, hdone, lastKept_concat]
      have hall := ih hnext hstep
      rwa [List.append_assoc] at hall

/-- A chunk is found by its id if it is held. -/
theorem exists_chunk? (hs : s.tables.Sound) (id : String) :
    ∃ found, s.chunk? id = .ok found ∧ ∀ d, found = some d ↔
      d.chunk.id = id ∧ ∃ w, s.tables.Holds d w := by
  unfold chunk?
  cases hfind : s.tables.chunks.find? fun r => r.chunk.id == id with
  | none =>
    refine ⟨none, rfl, fun d => ⟨nofun, ?_⟩⟩
    rintro ⟨rfl, w, r, hr, rfl, -⟩
    exact absurd (List.find?_eq_none.mp hfind r hr) (by simp)
  | some r =>
    have hr := List.mem_of_find?_eq_some hfind
    have hid : r.chunk.id = id := by simpa using List.find?_some hfind
    refine ⟨some r.toStoredChunk, by simp [ChunkRow.read, hs.readable r hr]; rfl, fun d => ⟨?_, ?_⟩⟩
    · rintro ⟨rfl⟩
      exact ⟨hid, hs.exists_holds hr⟩
    · rintro ⟨hd, w, r', hr', rfl, -⟩
      rw [hs.row_eq_of_id hr' hr (hd.trans hid.symm)]

end Tables

/-- What is read back of a chunk under a graph. Metadata is lost as a whole when it is nested too
deep, and otherwise changes in real numbers only; all else is as it was written. -/
structure ReadBack (g : Graph) (c : Chunk) (d : StoredChunk) : Prop where
  chunk : d.chunk = keptChunk c
  others : { d.chunk with metadata := c.metadata } = c
  whole : c.metadata.Lasting → d.chunk = c
  lost : Proper (record c.metadata) → WithoutReals (record c.metadata) →
    nestingLimit < (record c.metadata).depth → d.chunk = { c with metadata := [] }
  place : ∀ p, Profile.ofGraph? g c.id = some p →
    d.profile = { p with instability := d.profile.instability }
  noPlace : Profile.ofGraph? g c.id = none → d.profile = {}
  /-- The place too is what is read from its column, when the counts are machine words. -/
  column : ((Profile.ofGraph? g c.id).getD {}).dependencyCount < UInt64.size →
    d.profile = Column.profile (some ((Profile.ofGraph? g c.id).getD {}).toDocument.render)

theorem keptIn_readBack (g : Graph) (c : Chunk) : ReadBack g c (keptIn g c) where
  chunk := rfl
  others := congrArg (fun d : Chunk => { d with metadata := c.metadata }) (keptChunk_eq c)
  whole := keptChunk_of_lasting
  lost := keptChunk_of_deep
  place := by
    intro p hp
    show profileIn g c.id = { p with instability := (profileIn g c.id).instability }
    rw [profileIn, hp]
    rfl
  noPlace := by
    intro hp
    show profileIn g c.id = {}
    rw [profileIn, hp]
    exact keptProfile_default
  column := profileIn_eq

section Reading

variable {s s' : Store} {log : List (Call × Except Failure Unit)} {length : Nat}

/-- A chunk is found by its id if it is kept since it was written. -/
theorem Logged.exists_chunk? (hopen : Store.ofDimensions length = .ok s) (h : Logged s log s')
    (id : String) :
    ∃ found, s'.chunk? id = .ok found ∧ ∀ d, found = some d ↔
      d.chunk.id = id ∧ LastKept (succeeded log) d := by
  obtain rfl := ofDimensions_eq hopen
  have hempty : ∀ d, (∃ w, ({ dimensions := length } : Store).tables.Holds d w) ↔
      LastKept [] d := by
    intro d
    constructor
    · rintro ⟨w, r, hr, -⟩
      exact absurd hr List.not_mem_nil
    · rintro ⟨c, g, later, hw, -⟩
      exact absurd hw not_lastWrite_nil
  obtain ⟨hs, hholds⟩ : InStep length s' ∧ ∀ d, (∃ w, s'.tables.Holds d w) ↔
      LastKept (succeeded log) d :=
    h.holds (inStep_empty length) hempty
  obtain ⟨found, hfound, hiff⟩ := Store.exists_chunk? hs.sound id
  exact ⟨found, hfound, fun d => (hiff d).trans (and_congr_right fun _ => hholds d)⟩

/-- Whatever calls were made, a chunk is found exactly if it was written and its file was not
removed after the last write under its id; it is read back as it was last written, with its place in
the graph that is in force. -/
theorem chunk?_logged (hopen : Store.ofDimensions length = .ok s) (h : Logged s log s')
    (id : String) : ∃ found, s'.chunk? id = .ok found ∧
      (found.isSome ↔
        (∃ chunks vectors g, .insert chunks vectors g ∈ succeeded log ∧ id ∈ chunks.map Chunk.id) ∧
          ∀ c g later, LastWrite (succeeded log) id c g later → .delete c.path ∉ later) ∧
      ∀ d ∈ found, ∃ c g later, LastWrite (succeeded log) id c g later ∧
          ReadBack (latestGraph g later) c d := by
  obtain ⟨found, hfound, hiff⟩ := h.exists_chunk? hopen id
  refine ⟨found, hfound, ⟨?_, ?_⟩, ?_⟩
  · intro hsome
    obtain ⟨d, hd⟩ := Option.isSome_iff_exists.mp hsome
    obtain ⟨rfl, c, g, later, hw, hdelete, -⟩ := (hiff d).mp hd
    constructor
    · obtain ⟨earlier, call, hcalls, hcall⟩ := hw.written
      obtain ⟨chunks, vectors, rfl, hc, hid⟩ := Call.exists_of_written? hcall
      exact ⟨chunks, vectors, g, hcalls ▸ by simp, hid ▸ List.mem_map_of_mem hc⟩
    · intro c' g' later' hw'
      obtain ⟨rfl, rfl, rfl⟩ := hw.unique hw'
      exact hdelete
  · rintro ⟨⟨chunks, vectors, g, hmem, hid⟩, hdelete⟩
    obtain ⟨c, hc⟩ := Call.written?_insert hid vectors g
    obtain ⟨c, g, later, hw⟩ := exists_lastWrite ⟨_, hmem, by rw [hc]; nofun⟩
    have hkept : LastKept (succeeded log) (keptIn (latestGraph g later) c) :=
      ⟨c, g, later, hw.id_eq ▸ hw, hdelete c g later hw, rfl⟩
    rw [(hiff _).mpr ⟨hw.id_eq, hkept⟩]
    rfl
  · intro d hd
    obtain ⟨rfl, c, g, later, hw, -, hread⟩ := (hiff d).mp hd
    exact ⟨c, g, later, hw, hread ▸ keptIn_readBack _ c⟩

/-- Calls and what they answer when the engine carries all of them out. -/
def logOf (s : Store) : List Call → List (Call × Except Failure Unit)
  | [] => []
  | call :: calls => (call, (call.apply s).2) :: logOf (call.apply s).1 calls

theorem logged_logOf (s : Store) (calls : List Call) :
    Logged s (logOf s calls) (calls.foldl (fun s c => (c.apply s).1) s) := by
  induction calls generalizing s with
  | nil => exact .nil s
  | cons call rest ih => exact .cons (.carriedOut rfl) (ih _)

/-- The calls after the one that moves the chunk, less the refused one. -/
def callsAfterMoving : List Call :=
  [.delete "a.py", .sync callingGraph, .record "b.py" { seconds := 1 }]

theorem lastWrite_movedChunk :
    LastWrite (succeeded (logOf { dimensions := 1 } movingCalls)) "f" (movedChunk "b.py")
      callingGraph callsAfterMoving where
  written := ⟨[], .insert [movedChunk "a.py", movedChunk "b.py"] [[1.0], [0.5]] callingGraph, rfl,
    rfl⟩
  unwritten := by simp [callsAfterMoving, Call.written?]

/-- The chunk that moves within a batch is found in the second file although the first one is
removed. -/
theorem chunk?_logged_movedChunk :
    Store.ofDimensions 1 = .ok { dimensions := 1 } ∧
      Logged { dimensions := 1 } (logOf { dimensions := 1 } movingCalls) movedStore ∧
      ∃ d, movedStore.chunk? "f" = .ok (some d) ∧ d.chunk = movedChunk "b.py" := by
  have hopen : Store.ofDimensions 1 = .ok { dimensions := 1 } := rfl
  have hlogged : Logged { dimensions := 1 } (logOf { dimensions := 1 } movingCalls) movedStore :=
    logged_logOf _ _
  obtain ⟨found, hfound, hsome, hread⟩ := chunk?_logged hopen hlogged "f"
  have hwritten : found.isSome := by
    refine hsome.mpr ⟨⟨[movedChunk "a.py", movedChunk "b.py"], [[1.0], [0.5]], callingGraph,
      List.mem_cons_self, List.mem_cons_self⟩, fun c g later hw => ?_⟩
    obtain ⟨rfl, -, rfl⟩ := hw.unique lastWrite_movedChunk
    simp [callsAfterMoving, movedChunk]
  obtain ⟨d, rfl⟩ := Option.isSome_iff_exists.mp hwritten
  obtain ⟨c, g, later, hw, hd⟩ := hread d rfl
  obtain ⟨rfl, -, -⟩ := hw.unique lastWrite_movedChunk
  have hlasting : Metadata.Lasting [] := Metadata.lasting_of_plain List.Pairwise.nil nofun
  exact ⟨hopen, hlogged, d, hfound, hd.whole hlasting⟩

/-- Lists, each the only item of the next. -/
def nestedList : Nat → Document
  | 0 => list []
  | n + 1 => list [nestedList n]

theorem depth_nestedList (n : Nat) : (nestedList n).depth = n + 1 := by
  induction n with
  | zero => rfl
  | succ n ih => simp [nestedList, depth, depthItems, ih]

theorem proper_nestedList (n : Nat) : Proper (nestedList n) := by
  induction n with
  | zero => exact .list nofun
  | succ n ih => exact .list (List.forall_mem_singleton.mpr ih)

theorem withoutReals_nestedList (n : Nat) : WithoutReals (nestedList n) := by
  induction n with
  | zero => exact .list nofun
  | succ n ih => exact .list (List.forall_mem_singleton.mpr ih)

/-- A chunk with data one level deeper than what can be read again. -/
def deepChunk : Chunk := { movedChunk "a.py" with metadata := [("tree", nestedList 126)] }

def deepCalls : List Call := [.insert [deepChunk] [[1.0]] callingGraph]

/-- A chunk is not read back as it was written if its metadata is nested too deep, be there no real
number in it. -/
theorem not_whole_deepChunk :
    Store.ofDimensions 1 = .ok { dimensions := 1 } ∧
      ∃ s, Logged { dimensions := 1 } (logOf { dimensions := 1 } deepCalls) s ∧
        LastWrite (succeeded (logOf { dimensions := 1 } deepCalls)) "f" deepChunk callingGraph [] ∧
        Proper (record deepChunk.metadata) ∧ WithoutReals (record deepChunk.metadata) ∧
        ∃ d, s.chunk? "f" = .ok (some d) ∧ d.chunk = { deepChunk with metadata := [] } ∧
            d.chunk ≠ deepChunk := by
  have hopen : Store.ofDimensions 1 = .ok { dimensions := 1 } := rfl
  have hlogged := logged_logOf { dimensions := 1 } deepCalls
  have hlast : LastWrite (succeeded (logOf { dimensions := 1 } deepCalls)) "f" deepChunk
      callingGraph [] :=
    ⟨⟨[], _, rfl, rfl⟩, nofun⟩
  have hproper : Proper (record deepChunk.metadata) :=
    .record (List.pairwise_singleton _ _) (List.forall_mem_singleton.mpr (proper_nestedList 126))
  have hreals : WithoutReals (record deepChunk.metadata) :=
    .record (List.forall_mem_singleton.mpr (withoutReals_nestedList 126))
  have hdeep : nestingLimit < (record deepChunk.metadata).depth := by
    simp [deepChunk, depth, depthFields, depth_nestedList, nestingLimit]
  have hread : (keptIn callingGraph deepChunk).chunk = { deepChunk with metadata := [] } :=
    keptChunk_of_deep hproper hreals hdeep
  obtain ⟨found, hfound, hiff⟩ := hlogged.exists_chunk? hopen "f"
  have hkept : LastKept (succeeded (logOf { dimensions := 1 } deepCalls))
      (keptIn callingGraph deepChunk) :=
    ⟨deepChunk, callingGraph, [], hlast, List.not_mem_nil, rfl⟩
  obtain rfl := (hiff _).mpr ⟨rfl, hkept⟩
  refine ⟨hopen, _, hlogged, hlast, hproper, hreals, _, hfound, hread, ?_⟩
  rw [hread]
  exact fun he => absurd (congrArg Chunk.metadata he) (by simp [deepChunk])

end Reading

end Store

end CodeAtlas
