import Mathlib.Data.List.Nodup
import CodeAtlas.Store.Write

/-!
What the tables of a store hold. Rows of chunks and slots of embeddings are kept in step by their
keys: every chunk has one embedding, and every embedding belongs to a chunk.
-/

namespace CodeAtlas.Store.Tables

def filled (slots : List (Option Slot)) : List Slot := slots.filterMap id

/-- Tables in which ids and keys tell chunks apart and embeddings stand for chunks one to one. -/
structure Sound (t : Tables) : Prop where
  ids : (t.chunks.map fun r => r.chunk.id).Nodup
  keys : (t.chunks.map ChunkRow.key).Nodup
  fresh : ∀ r ∈ t.chunks, r.key < t.nextKey
  slots : ((filled t.slots).map Slot.key).Perm (t.chunks.map ChunkRow.key)
  widths : ∀ s ∈ filled t.slots, s.vector.length = t.width
  readable : ∀ r ∈ t.chunks, r.spoiled = []

def Holds (t : Tables) (c : StoredChunk) (v : Embedding) : Prop :=
  ∃ r ∈ t.chunks, r.toStoredChunk = c ∧ ⟨r.key, v⟩ ∈ filled t.slots

def entries (t : Tables) : List (StoredChunk × List Embedding) :=
  t.chunks.map fun r =>
    (r.toStoredChunk, ((filled t.slots).filter fun s => s.key == r.key).map Slot.vector)

theorem sound_empty (width : Nat) : Sound { width } where
  ids := List.nodup_nil
  keys := List.nodup_nil
  fresh := fun _ hr => absurd hr List.not_mem_nil
  slots := List.Perm.refl _
  widths := fun _ hs => absurd hs List.not_mem_nil
  readable := fun _ hr => absurd hr List.not_mem_nil

section Slots

variable {slots : List (Option Slot)} {s : Slot} {gone : Nat → Bool}

theorem filled_freeSlots (gone : Nat → Bool) (slots : List (Option Slot)) :
    filled (freeSlots gone slots) = (filled slots).filter fun s => !gone s.key := by
  induction slots with
  | nil => rfl
  | cons o rest ih =>
    unfold filled freeSlots at ih ⊢
    cases o with
    | none => simpa using ih
    | some s =>
      by_cases h : gone s.key
      · simpa [Option.filter, h] using ih
      · simpa [Option.filter, h] using ih

theorem filled_fillSlot (s : Slot) (slots : List (Option Slot)) :
    (filled (fillSlot s slots)).Perm (s :: filled slots) := by
  induction slots with
  | nil => exact List.Perm.refl _
  | cons o rest ih =>
    cases o with
    | none => exact List.Perm.refl _
    | some other =>
      show (other :: filled (fillSlot s rest)).Perm (s :: other :: filled rest)
      exact (ih.cons other).trans (List.Perm.swap s other _)

end Slots

section Rows

variable {t : Tables} {c : StoredChunk} {r : ChunkRow} {id : String} {key : Nat}

/-- The dependencies and the recorded files have no part in soundness. -/
theorem Sound.congr {t' : Tables} (h : t.Sound) (hc : t'.chunks = t.chunks)
    (hk : t'.nextKey = t.nextKey) (hs : t'.slots = t.slots) (hw : t'.width = t.width) :
    t'.Sound := by
  constructor
  · rw [hc]
    exact h.ids
  · rw [hc]
    exact h.keys
  · rw [hc, hk]
    exact h.fresh
  · rw [hc, hs]
    exact h.slots
  · rw [hs, hw]
    exact h.widths
  · rw [hc]
    exact h.readable

theorem Sound.row_eq_of_id (h : t.Sound) {r r' : ChunkRow} (hr : r ∈ t.chunks) (hr' : r' ∈ t.chunks)
    (he : r.chunk.id = r'.chunk.id) : r = r' :=
  List.inj_on_of_nodup_map h.ids hr hr' he

theorem Sound.row_eq_of_key (h : t.Sound) {r r' : ChunkRow} (hr : r ∈ t.chunks)
    (hr' : r' ∈ t.chunks) (he : r.key = r'.key) : r = r' :=
  List.inj_on_of_nodup_map h.keys hr hr' he

/-- Every row has a slot. -/
theorem Sound.exists_slot (h : t.Sound) (hr : r ∈ t.chunks) : ∃ s ∈ filled t.slots, s.key = r.key :=
  List.mem_map.mp (h.slots.mem_iff.mpr (List.mem_map_of_mem hr))

theorem Sound.exists_holds (h : t.Sound) (hr : r ∈ t.chunks) : ∃ v, t.Holds r.toStoredChunk v := by
  obtain ⟨s, hs, hk⟩ := h.exists_slot hr
  exact ⟨s.vector, r, hr, rfl, hk ▸ hs⟩

theorem Sound.slot_eq_of_key (h : t.Sound) {s s' : Slot} (hs : s ∈ filled t.slots)
    (hs' : s' ∈ filled t.slots) (he : s.key = s'.key) : s = s' :=
  List.inj_on_of_nodup_map (h.slots.nodup_iff.mpr h.keys) hs hs' he

theorem Sound.filter_slots (h : t.Sound) {s : Slot} (hs : s ∈ filled t.slots) :
    ((filled t.slots).filter fun d => d.key == s.key) = [s] := by
  have hn : (filled t.slots).Nodup := List.Nodup.of_map _ (h.slots.nodup_iff.mpr h.keys)
  apply List.perm_singleton.mp
  apply (List.perm_ext_iff_of_nodup (hn.filter _) (List.nodup_singleton s)).mpr
  intro d
  rw [List.mem_filter, List.mem_singleton, beq_iff_eq]
  constructor
  · rintro ⟨hd, he⟩
    exact h.slot_eq_of_key hd hs he
  · rintro rfl
    exact ⟨hs, rfl⟩

theorem Sound.mem_entries (h : t.Sound) (d : StoredChunk) (vs : List Embedding) :
    (d, vs) ∈ t.entries ↔ ∃ v, vs = [v] ∧ t.Holds d v := by
  constructor
  · intro hm
    obtain ⟨r, hr, he⟩ := List.mem_map.mp hm
    obtain ⟨s, hs, hk⟩ := h.exists_slot hr
    obtain ⟨rfl, rfl⟩ := Prod.mk.inj he
    rw [← hk, h.filter_slots hs]
    exact ⟨s.vector, rfl, r, hr, rfl, hk ▸ hs⟩
  · rintro ⟨v, rfl, r, hr, rfl, hs⟩
    apply List.mem_map.mpr
    refine ⟨r, hr, ?_⟩
    have hf := h.filter_slots hs
    dsimp only at hf
    rw [hf]
    rfl

theorem Sound.entries_nodup (h : t.Sound) : (t.entries.map fun e => e.1.chunk.id).Nodup := by
  unfold entries
  rw [List.map_map]
  exact h.ids

theorem keyOf?_eq_some (h : (t.chunks.map fun r => r.chunk.id).Nodup) :
    t.keyOf? id = some key ↔ ∃ r ∈ t.chunks, r.chunk.id = id ∧ r.key = key := by
  unfold keyOf?
  constructor
  · intro hk
    obtain ⟨r, hf, rfl⟩ := Option.map_eq_some_iff.mp hk
    exact ⟨r, List.mem_of_find?_eq_some hf, by simpa using List.find?_some hf, rfl⟩
  · rintro ⟨r, hr, rfl, rfl⟩
    cases hf : t.chunks.find? fun d => d.chunk.id == r.chunk.id with
    | none => exact absurd (List.find?_eq_none.mp hf r hr) (by simp)
    | some d =>
      have hd : d.chunk.id = r.chunk.id := by simpa using List.find?_some hf
      rw [List.inj_on_of_nodup_map h (List.mem_of_find?_eq_some hf) hr hd]
      rfl

theorem keyOf?_eq_none : t.keyOf? id = none ↔ ∀ r ∈ t.chunks, r.chunk.id ≠ id := by
  unfold keyOf?
  rw [Option.map_eq_none_iff, List.find?_eq_none]
  simp only [beq_iff_eq, ne_eq]

/-- The rows after a chunk was written: its own under some key, and those with other ids as they
were. -/
structure Put (t : Tables) (c : StoredChunk) (key : Nat) (after : Tables) : Prop where
  rows : ∀ r, r ∈ after.chunks ↔ r = { toStoredChunk := c, key } ∨
    (r ∈ t.chunks ∧ r.chunk.id ≠ c.chunk.id)
  ids : (after.chunks.map fun r => r.chunk.id).Nodup
  keys : (after.chunks.map ChunkRow.key).Nodup
  mem_keys : ∀ k, k ∈ after.chunks.map ChunkRow.key ↔ k = key ∨ k ∈ t.chunks.map ChunkRow.key
  fresh : ∀ r ∈ after.chunks, r.key < after.nextKey
  others : after.slots = t.slots ∧ after.width = t.width ∧ after.files = t.files

theorem putChunk_over (h : t.Sound) (hk : t.keyOf? c.chunk.id = some key) :
    t.Put c key (t.putChunk c) := by
  obtain ⟨old, hold, hid, rfl⟩ := (keyOf?_eq_some h.ids).mp hk
  unfold putChunk
  rw [hk]
  have hmap : ∀ r ∈ t.chunks,
      (if r.key == old.key then { toStoredChunk := c, key := old.key } else r : ChunkRow).chunk.id =
        r.chunk.id := by
    intro r hr
    split
    · rename_i he
      rw [h.row_eq_of_key hr hold (by simpa using he), hid]
    · rfl
  have hkeys : t.chunks.map
      (fun r => (if r.key == old.key then { toStoredChunk := c, key := old.key }
      else r : ChunkRow).key) = t.chunks.map ChunkRow.key := by
    apply List.map_congr_left
    intro r _
    split
    · rename_i he
      exact (by simpa using he : r.key = old.key).symm
    · rfl
  constructor
  · intro r
    simp only [List.mem_map]
    constructor
    · rintro ⟨d, hd, rfl⟩
      split
      · exact Or.inl rfl
      · rename_i hne
        refine Or.inr ⟨hd, fun he => hne ?_⟩
        rw [h.row_eq_of_id hd hold (he.trans hid.symm)]
        exact BEq.rfl
    · rintro (rfl | ⟨hr, hne⟩)
      · exact ⟨old, hold, by simp⟩
      · refine ⟨r, hr, if_neg fun he => hne ?_⟩
        rw [h.row_eq_of_key hr hold (by simpa using he), hid]
  · rw [List.map_map]
    exact (List.map_congr_left hmap).symm ▸ h.ids
  · rw [List.map_map]
    exact hkeys.symm ▸ h.keys
  · intro k
    rw [List.map_map]
    refine (hkeys ▸ Iff.rfl : _ ↔ k ∈ t.chunks.map ChunkRow.key).trans ?_
    constructor
    · exact Or.inr
    · rintro (rfl | hm)
      · exact List.mem_map_of_mem hold
      · exact hm
  · intro r hr
    obtain ⟨d, hd, rfl⟩ := List.mem_map.mp hr
    split
    · exact h.fresh old hold
    · exact h.fresh d hd
  · exact ⟨rfl, rfl, rfl⟩

theorem putChunk_new (h : t.Sound) (hk : t.keyOf? c.chunk.id = none) :
    t.Put c t.nextKey (t.putChunk c) := by
  have hid := keyOf?_eq_none.mp hk
  unfold putChunk
  rw [hk]
  have hkey : t.nextKey ∉ t.chunks.map ChunkRow.key := by
    intro hm
    obtain ⟨r, hr, he⟩ := List.mem_map.mp hm
    exact absurd (h.fresh r hr) (by omega)
  constructor
  · intro r
    rw [List.mem_append, List.mem_singleton]
    constructor
    · rintro (hr | rfl)
      · exact Or.inr ⟨hr, hid r hr⟩
      · exact Or.inl rfl
    · rintro (rfl | ⟨hr, -⟩)
      · exact Or.inr rfl
      · exact Or.inl hr
  · rw [List.map_append]
    apply List.nodup_append.mpr
    refine ⟨h.ids, List.nodup_singleton _, ?_⟩
    rintro a ha b hb rfl
    obtain ⟨r, hr, rfl⟩ := List.mem_map.mp ha
    exact hid r hr (List.mem_singleton.mp hb)
  · rw [List.map_append]
    apply List.nodup_append.mpr
    refine ⟨h.keys, List.nodup_singleton _, ?_⟩
    rintro a ha b hb rfl
    have he : a = t.nextKey := List.mem_singleton.mp hb
    exact hkey (he ▸ ha)
  · intro k
    rw [List.map_append, List.mem_append]
    simp only [List.map_cons, List.map_nil, List.mem_singleton]
    exact or_comm
  · intro r hr
    show r.key < t.nextKey + 1
    rcases List.mem_append.mp hr with hr | hr
    · have := h.fresh r hr
      omega
    · rw [List.mem_singleton.mp hr]
      exact Nat.lt_succ_self _
  · exact ⟨rfl, rfl, rfl⟩

theorem putChunk_put (h : t.Sound) (c : StoredChunk) : ∃ key, t.Put c key (t.putChunk c) := by
  cases hk : t.keyOf? c.chunk.id with
  | some key => exact ⟨key, putChunk_over h hk⟩
  | none => exact ⟨t.nextKey, putChunk_new h hk⟩

theorem Put.keyOf?_eq {after : Tables} (h : t.Put c key after) :
    after.keyOf? c.chunk.id = some key :=
  (keyOf?_eq_some h.ids).mpr ⟨_, (h.rows _).mpr (Or.inl rfl), rfl, rfl⟩

end Rows

structure Written (t : Tables) (c : StoredChunk) (v : Embedding) (after : Tables) : Prop where
  sound : after.Sound
  holds : ∀ d w, after.Holds d w ↔ (d = c ∧ w = v) ∨ (t.Holds d w ∧ d.chunk.id ≠ c.chunk.id)
  width : after.width = t.width
  files : after.files = t.files

section Operations

variable {t after : Tables} {c : StoredChunk} {v : Embedding} {key : Nat}

theorem perm_putKeys (h : t.Sound) (hp : t.Put c key after) :
    (key :: ((filled t.slots).filter fun s => !s.key == key).map Slot.key).Perm
      (after.chunks.map ChunkRow.key) := by
  have hslots : ((filled t.slots).map Slot.key).Nodup := h.slots.nodup_iff.mpr h.keys
  have hrest : (((filled t.slots).filter fun s => !s.key == key).map Slot.key).Nodup :=
    hslots.sublist (List.filter_sublist.map Slot.key)
  have hmem : ∀ k, k ∈ ((filled t.slots).filter fun s => !s.key == key).map Slot.key ↔
      k ∈ t.chunks.map ChunkRow.key ∧ k ≠ key := by
    intro k
    rw [← h.slots.mem_iff]
    simp only [List.mem_map, List.mem_filter, Bool.not_eq_true', beq_eq_false_iff_ne]
    constructor
    · rintro ⟨s, ⟨hs, hne⟩, rfl⟩
      exact ⟨⟨s, hs, rfl⟩, hne⟩
    · rintro ⟨⟨s, hs, rfl⟩, hne⟩
      exact ⟨s, ⟨hs, hne⟩, rfl⟩
  apply (List.perm_ext_iff_of_nodup _ hp.keys).mpr
  · intro k
    rw [List.mem_cons, hmem, hp.mem_keys]
    by_cases hk : k = key
    · simp [hk]
    · simp [hk]
  · apply List.nodup_cons.mpr
    exact ⟨fun hm => ((hmem key).mp hm).2 rfl, hrest⟩

/-- Writing the embedding of a chunk that was just written. -/
theorem putVector_put (h : t.Sound) (hp : t.Put c key after) (hv : v.length = t.width) :
    ∃ done, after.putVector c.chunk.id v = .ok done ∧ t.Written c v done := by
  obtain ⟨hslots, hwidth, hfiles⟩ := hp.others
  -- the slot of the key, if there was one, is freed before the embedding is put anywhere
  have hfilled := filled_fillSlot ⟨key, v⟩ (freeSlots (· == key) after.slots)
  rw [filled_freeSlots, hslots] at hfilled
  have hperm := perm_putKeys h hp
  have hnew : { toStoredChunk := c, key } ∈ after.chunks := (hp.rows _).mpr (Or.inl rfl)
  have hkey : ∀ r ∈ after.chunks, r.chunk.id ≠ c.chunk.id → r.key ≠ key := by
    intro r hr hne he
    exact hne (congrArg (fun r => r.chunk.id) (List.inj_on_of_nodup_map hp.keys hr hnew he))
  refine ⟨{ after with slots := fillSlot ⟨key, v⟩ (freeSlots (· == key) after.slots) }, ?_, ?_⟩
  · unfold putVector
    rw [if_neg (by simp [hwidth, hv]), hp.keyOf?_eq]
  · rw [hslots]
    constructor
    · constructor
      · exact hp.ids
      · exact hp.keys
      · exact hp.fresh
      · exact (hfilled.map Slot.key).trans hperm
      · intro s hs
        rw [show (_ : Tables).width = t.width from hwidth]
        rcases List.mem_cons.mp (hfilled.mem_iff.mp hs) with rfl | hs
        · exact hv
        · exact h.widths s (List.mem_of_mem_filter hs)
      · intro r hr
        rcases (hp.rows r).mp hr with rfl | ⟨hr, -⟩
        · rfl
        · exact h.readable r hr
    · intro d w
      constructor
      · rintro ⟨r, hr, rfl, hs⟩
        have hs := List.mem_cons.mp (hfilled.mem_iff.mp hs)
        rcases (hp.rows r).mp hr with rfl | ⟨hold, hne⟩
        · rcases hs with hs | hs
          · exact Or.inl ⟨rfl, congrArg Slot.vector hs⟩
          · exact absurd (List.mem_filter.mp hs).2 (by simp)
        · rcases hs with hs | hs
          · exact absurd (congrArg Slot.key hs) (hkey r hr hne)
          · exact Or.inr ⟨⟨r, hold, rfl, List.mem_of_mem_filter hs⟩, hne⟩
      · rintro (⟨rfl, rfl⟩ | ⟨⟨r, hold, rfl, hs⟩, hne⟩)
        · exact ⟨_, hnew, rfl, hfilled.mem_iff.mpr List.mem_cons_self⟩
        · have hr : r ∈ after.chunks := (hp.rows r).mpr (Or.inr ⟨hold, hne⟩)
          refine ⟨r, hr, rfl,
            hfilled.mem_iff.mpr (List.mem_cons_of_mem _ (List.mem_filter.mpr ⟨hs, ?_⟩))⟩
          simpa using hkey r hr hne
    · exact hwidth
    · exact hfiles

theorem putWithVector_written (h : t.Sound) (g : Graph) (entry : Chunk × Embedding)
    (hv : entry.2.length = t.width) :
    ∃ done, t.putWithVector g entry = .ok done ∧
      t.Written ⟨keptChunk entry.1, profileIn g entry.1.id⟩ entry.2 done := by
  obtain ⟨key, hp⟩ := putChunk_put h ⟨keptChunk entry.1, profileIn g entry.1.id⟩
  exact putVector_put h hp hv

theorem length_of_putWithVector (g : Graph) (entry : Chunk × Embedding)
    (h : t.putWithVector g entry = .ok after) : entry.2.length = t.width := by
  have hw : (t.putChunk ⟨keptChunk entry.1, profileIn g entry.1.id⟩).width = t.width := by
    unfold putChunk
    split <;> rfl
  unfold putWithVector putVector at h
  by_contra hne
  rw [if_pos (by simp [hw, hne])] at h
  exact absurd h nofun

end Operations

end CodeAtlas.Store.Tables
