import CodeAtlas.Proofs.StableSort
import CodeAtlas.Proofs.Store.Consistency
import CodeAtlas.Store.Search

/-!
What a search finds. All chunks of a store stand in one order, by their distances to what is
searched for, and every search answers with the front of it; a filter chooses from the front that is
twice as long. It does not matter how distances are measured.
-/

namespace CodeAtlas.Store

section Reading

variable {δ : Type} {hit : ChunkRow → δ → Except Failure Hit} {found : ChunkRow × δ → Hit}

/-- Where all rows can be read, what is found are the first that are accepted. -/
theorem readHits_eq (accepts : Hit → Bool) {rows : List (ChunkRow × δ)}
    (h : ∀ p ∈ rows, hit p.1 p.2 = .ok (found p)) (wanted : Nat) :
    readHits hit accepts wanted rows = .ok (((rows.map found).filter accepts).take wanted) := by
  induction rows generalizing wanted with
  | nil => cases wanted <;> rfl
  | cons p rest ih =>
    obtain ⟨r, d⟩ := p
    have hhit : hit r d = .ok (found (r, d)) := h (r, d) List.mem_cons_self
    have hrest := ih fun q hq => h q (List.mem_cons_of_mem _ hq)
    cases wanted with
    | zero => rfl
    | succ wanted =>
      rw [readHits, hhit, List.map_cons, List.filter_cons]
      show (if accepts (found (r, d)) = true then _ else _) = _
      split
      · rw [hrest wanted]
        rfl
      · exact hrest (wanted + 1)

end Reading

namespace Tables

variable {t : Tables} {δ : Type} {measure : Embedding → δ} {p : ChunkRow × δ}

theorem measured_eq (t : Tables) (measure : Embedding → δ) :
    measured t measure = (filled t.slots).filterMap fun s =>
      (t.chunks.find? fun r => r.key == s.key).map fun r => (r, measure s.vector) := by
  rw [filled, List.filterMap_filterMap]
  unfold measured
  apply List.filterMap_congr
  intro slot _
  cases slot with
  | none => rfl
  | some s =>
    show (t.chunks.find? _).bind _ = (t.chunks.find? _).map _
    rw [Option.map_eq_bind]
    rfl

theorem Sound.find?_key (h : t.Sound) {r : ChunkRow} (hr : r ∈ t.chunks) :
    (t.chunks.find? fun d => d.key == r.key) = some r := by
  cases hfind : t.chunks.find? fun d => d.key == r.key with
  | none => exact absurd (List.find?_eq_none.mp hfind r hr) (by simp)
  | some d =>
    have hkey : d.key = r.key := by simpa using List.find?_some hfind
    rw [h.row_eq_of_key (List.mem_of_find?_eq_some hfind) hr hkey]

/-- Every slot belongs to a row. -/
theorem Sound.exists_row (h : t.Sound) {s : Slot} (hs : s ∈ filled t.slots) :
    ∃ r ∈ t.chunks, r.key = s.key :=
  List.mem_map.mp (h.slots.mem_iff.mp (List.mem_map_of_mem hs))

/-- What is measured are the rows, each with its embedding. -/
theorem Sound.mem_measured (h : t.Sound) :
    p ∈ measured t measure ↔ p.1 ∈ t.chunks ∧ ∃ w, ⟨p.1.key, w⟩ ∈ filled t.slots ∧
      measure w = p.2 := by
  rw [measured_eq, List.mem_filterMap]
  constructor
  · rintro ⟨s, hs, hp⟩
    obtain ⟨r, hfind, rfl⟩ := Option.map_eq_some_iff.mp hp
    have hkey : r.key = s.key := by simpa using List.find?_some hfind
    exact ⟨List.mem_of_find?_eq_some hfind, s.vector, hkey ▸ hs, rfl⟩
  · obtain ⟨r, d⟩ := p
    rintro ⟨hr, w, hw, rfl⟩
    exact ⟨_, hw, by rw [h.find?_key hr]; rfl⟩

theorem Sound.map_key_measured (h : t.Sound) :
    (measured t measure).map (fun p => p.1.key) = (filled t.slots).map Slot.key := by
  have hall : ∀ slots : List Slot, slots ⊆ filled t.slots →
      (slots.filterMap fun s => (t.chunks.find? fun r => r.key == s.key).map fun r =>
        (r, measure s.vector)).map (fun p => p.1.key) = slots.map Slot.key := by
    intro slots
    induction slots with
    | nil => exact fun _ => rfl
    | cons s rest ih =>
      intro hsub
      obtain ⟨hs, hrest⟩ := List.cons_subset.mp hsub
      obtain ⟨r, hr, hkey⟩ := h.exists_row hs
      rw [List.filterMap_cons_some (by rw [← hkey, h.find?_key hr]; rfl), List.map_cons,
        List.map_cons, ih hrest, hkey]
  rw [measured_eq]
  exact hall _ (List.Subset.refl _)

/-- Every row is measured once. -/
theorem Sound.measured_perm (h : t.Sound) : ((measured t measure).map Prod.fst).Perm t.chunks := by
  have hkeys : (((measured t measure).map Prod.fst).map ChunkRow.key).Nodup := by
    rw [List.map_map]
    show ((measured t measure).map fun p => p.1.key).Nodup
    rw [h.map_key_measured]
    exact h.slots.nodup_iff.mpr h.keys
  apply (List.perm_ext_iff_of_nodup (List.Nodup.of_map _ hkeys) (List.Nodup.of_map _ h.keys)).mpr
  intro r
  rw [List.mem_map]
  constructor
  · rintro ⟨p, hp, rfl⟩
    exact (h.mem_measured.mp hp).1
  · intro hr
    obtain ⟨s, hs, hkey⟩ := h.exists_slot hr
    exact ⟨(r, measure s.vector), h.mem_measured.mpr ⟨hr, s.vector, hkey ▸ hs, rfl⟩, rfl⟩

end Tables

section Ranking

open Tables

variable {δ κ : Type} [LinearOrder κ] {m : Measure δ κ} {s : Store} {v : Embedding}

def At (s : Store) (m : Measure δ κ) (v : Embedding) (c : StoredChunk) (d : δ) : Prop :=
  ∃ w, s.tables.Holds c w ∧ m.distance w v = d

/-- The chunks with their distances from an embedding, the nearest first. -/
def ranked (s : Store) (m : Measure δ κ) (v : Embedding) : List (ChunkRow × δ) :=
  (measured s.tables (m.distance · v)).mergeSort fun a b => m.key a.2 ≤ m.key b.2

def hitOf (m : Measure δ κ) (p : ChunkRow × δ) : Hit :=
  { p.1.toStoredChunk with similarity := (m.similarity? p.2).getD 0 }

theorem ranked_perm (hs : s.tables.Sound) : ((ranked s m v).map Prod.fst).Perm s.tables.chunks :=
  ((List.mergeSort_perm _ _).map Prod.fst).trans hs.measured_perm

theorem mem_ranked {p : ChunkRow × δ} (hs : s.tables.Sound) :
    p ∈ ranked s m v ↔ p.1 ∈ s.tables.chunks ∧ ∃ w, ⟨p.1.key, w⟩ ∈ filled s.tables.slots ∧
      m.distance w v = p.2 := by
  rw [ranked, List.mem_mergeSort, hs.mem_measured]

theorem at_iff {p : ChunkRow × δ} (hs : s.tables.Sound) (hp : p ∈ ranked s m v) {d : δ} :
    s.At m v p.1.toStoredChunk d ↔ p.2 = d := by
  obtain ⟨hr, w, hw, he⟩ := (mem_ranked hs).mp hp
  constructor
  · rintro ⟨w', ⟨r, hr', hc, hw'⟩, rfl⟩
    have hrow : r = p.1 := hs.row_eq_of_id hr' hr (congrArg (fun c => c.chunk.id) hc)
    subst hrow
    obtain ⟨-, rfl⟩ := Slot.mk.inj (hs.slot_eq_of_key hw hw' rfl)
    exact he.symm
  · rintro rfl
    exact ⟨w, ⟨p.1, hr, rfl, hw⟩, he⟩

theorem ranked_pairwise (hs : s.tables.Sound) : (ranked s m v).Pairwise fun a b =>
    ∀ d d', s.At m v a.1.toStoredChunk d → s.At m v b.1.toStoredChunk d' → m.key d ≤ m.key d' := by
  apply (StableSort.pairwise_rank (fun p : ChunkRow × δ => m.key p.2) _).imp_of_mem
  intro a b ha hb hab d d' hd hd'
  rw [← (at_iff hs ha).mp hd, ← (at_iff hs hb).mp hd']
  exact hab

theorem hitAt_ranked (hs : s.tables.Sound)
    (hm : ∀ slot ∈ filled s.tables.slots, (m.similarity? (m.distance slot.vector v)).isSome)
    {p : ChunkRow × δ} (hp : p ∈ ranked s m v) : hitAt m p.1 p.2 = .ok (hitOf m p) := by
  obtain ⟨hr, w, hw, he⟩ := (mem_ranked hs).mp hp
  obtain ⟨x, hx⟩ := Option.isSome_iff_exists.mp (hm _ hw)
  rw [he] at hx
  rw [hitAt, ChunkRow.read, hs.readable p.1 hr, hitOf, hx]
  rfl

theorem hasOtherLength_eq_false {t : Tables} (h : t.Sound) (hv : t.width = v.length) :
    hasOtherLength t v = false := by
  apply List.any_eq_false.mpr
  intro p hp
  obtain ⟨-, w, hw, he⟩ := h.mem_measured.mp hp
  have hwidth : w.length = t.width := h.widths _ hw
  rw [← he, hwidth, hv]
  simp

/-- A search reads the front of the chunks in their order. -/
theorem searchBy_eq (hs : InStep v.length s)
    (hm : ∀ slot ∈ filled s.tables.slots, (m.similarity? (m.distance slot.vector v)).isSome)
    (k : Nat) (f : Option Filter) : s.searchBy m v k f =
      .ok (((((ranked s m v).take (2 * k)).map (hitOf m)).filter fun h =>
        f.all fun f => f.accepts h.chunk h.profile).take k) := by
  have hread : ∀ accepts, readHits (hitAt m) accepts k ((ranked s m v).take (2 * k)) =
      .ok (((((ranked s m v).take (2 * k)).map (hitOf m)).filter accepts).take k) := fun accepts =>
    readHits_eq accepts (fun p hp => hitAt_ranked hs.sound hm (List.mem_of_mem_take hp)) k
  rw [← hread]
  obtain ⟨dimensions, tables?⟩ := s
  unfold searchBy
  cases tables? with
  | none =>
    show _ = readHits _ _ k ((ranked { dimensions } m v).take (2 * k))
    have hnone : ranked { dimensions } m v = [] := List.mergeSort_nil
    rw [hnone, List.take_nil]
    cases k <;> rfl
  | some t =>
    have hwidth : hasOtherLength t v = false := hasOtherLength_eq_false hs.sound hs.width
    have hlength : v.length = dimensions := hs.dimensions.symm
    dsimp only
    cases k with
    | zero => rfl
    | succ k =>
      rw [if_neg (by simp), if_neg (by simp [hlength]), if_neg (by simp [hwidth])]
      rfl

/-- What is found when there is no filter: so many of the nearest chunks, or all if there are fewer,
each once. -/
structure NearestHits (s : Store) (m : Measure δ κ) (v : Embedding) (k : Nat) (hits : List Hit) :
    Prop where
  count : hits.length = min k s.tables.chunks.length
  once : (hits.map fun h => h.chunk.id).Nodup
  stored : ∀ h ∈ hits, ∃ d, s.At m v h.toStoredChunk d ∧ m.similarity? d = some h.similarity
  ordered : hits.Pairwise fun a b =>
    ∀ d d', s.At m v a.toStoredChunk d → s.At m v b.toStoredChunk d' → m.key d ≤ m.key d'
  nearest : ∀ h ∈ hits, ∀ r ∈ s.tables.chunks, r.toStoredChunk ∉ hits.map Hit.toStoredChunk →
    ∀ d d', s.At m v h.toStoredChunk d → s.At m v r.toStoredChunk d' → m.key d ≤ m.key d'

theorem nearestHits_ranked (hs : s.tables.Sound)
    (hm : ∀ slot ∈ filled s.tables.slots, (m.similarity? (m.distance slot.vector v)).isSome)
    (k : Nat) : s.NearestHits m v k (((ranked s m v).take k).map (hitOf m)) := by
  have hperm := ranked_perm (m := m) (v := v) hs
  have hpairwise := ranked_pairwise (m := m) (v := v) hs
  constructor
  · rw [List.length_map, List.length_take, ← hperm.length_eq, List.length_map]
  · have hids : ((ranked s m v).map fun p => p.1.chunk.id).Nodup := by
      have hrows := (hperm.map fun r => r.chunk.id).nodup_iff.mpr hs.ids
      rwa [List.map_map] at hrows
    rw [List.map_map]
    exact hids.sublist ((List.take_sublist k _).map _)
  · intro h hh
    obtain ⟨p, hp, rfl⟩ := List.mem_map.mp hh
    have hp := List.mem_of_mem_take hp
    obtain ⟨-, w, hw, he⟩ := (mem_ranked hs).mp hp
    obtain ⟨x, hx⟩ := Option.isSome_iff_exists.mp (hm _ hw)
    rw [he] at hx
    exact ⟨p.2, (at_iff hs hp).mpr rfl, by rw [hitOf, hx]; rfl⟩
  · exact List.pairwise_map.mpr (hpairwise.sublist (List.take_sublist k _))
  · intro h hh r hr hnot
    obtain ⟨p, hp, rfl⟩ := List.mem_map.mp hh
    obtain ⟨q, hq, rfl⟩ := List.mem_map.mp (hperm.mem_iff.mpr hr)
    rw [← List.take_append_drop k (ranked s m v)] at hq hpairwise
    rcases List.mem_append.mp hq with hq | hq
    · exact absurd (List.mem_map_of_mem (List.mem_map_of_mem hq)) hnot
    · exact (List.pairwise_append.mp hpairwise).2.2 p hp q hq

/-- However distances are measured: without a filter a search finds the nearest chunks, a search for
fewer finds the front of what a search for more finds, and with a filter it finds the first that are
accepted of those that a search for twice as many finds without one. -/
theorem searchBy_nearest (m : Measure δ κ) (hs : InStep v.length s)
    (hm : ∀ slot ∈ filled s.tables.slots, (m.similarity? (m.distance slot.vector v)).isSome) :
    (∀ k, ∃ hits, s.searchBy m v k none = .ok hits ∧ s.NearestHits m v k hits) ∧
      (∀ k more hits hits', k ≤ more → s.searchBy m v k none = .ok hits →
        s.searchBy m v more none = .ok hits' → hits <+: hits') ∧
      ∀ k f, ∃ wide, s.searchBy m v (2 * k) none = .ok wide ∧
        s.searchBy m v k (some f) =
            .ok ((wide.filter fun h => f.accepts h.chunk h.profile).take k) := by
  have hall : ∀ hits : List Hit,
      (hits.filter fun h => Option.all (fun f : Filter => f.accepts h.chunk h.profile) none) =
          hits :=
    fun _ => List.filter_eq_self.mpr fun _ _ => rfl
  have hplain : ∀ k, s.searchBy m v k none = .ok (((ranked s m v).take k).map (hitOf m)) := by
    intro k
    rw [searchBy_eq hs hm, hall, ← List.map_take, List.take_take, Nat.min_eq_left (by omega)]
  refine ⟨fun k => ⟨_, hplain k, nearestHits_ranked hs.sound hm k⟩, ?_,
    fun k f => ⟨_, hplain (2 * k), ?_⟩⟩
  · intro k more hits hits' hle h h'
    obtain rfl := Except.ok.inj ((hplain k).symm.trans h)
    obtain rfl := Except.ok.inj ((hplain more).symm.trans h')
    exact (List.take_prefix_take_left hle).map _
  · exact searchBy_eq hs hm k (some f)

def differing : Measure Nat Nat where
  distance a b := (a.zip b).countP fun p => p.1 != p.2
  key d := d
  similarity? d := some (if d == 0 then 1 else 0)

def shelvedChunk (id : String) (kind : ChunkKind) : Chunk where
  id := id
  kind := kind
  content := id
  path := "a.py"
  startLine := 1
  endLine := 1
  language := "python"

/-- A class and two functions; the second function lies as near to the class as the first. -/
def shelvingCalls : List Call :=
  [.insert [shelvedChunk "f" .member, shelvedChunk "A" .container, shelvedChunk "g" .member]
    [[1.0, 1.0], [1.0, 0.0], [0.0, 0.0]] {}]

def shelvedStore : Store := shelvingCalls.foldl (fun s c => (c.apply s).1) { dimensions := 2 }

/-- Of the two chunks that are nearest to where the class lies, the class itself and the first
function, only the function is a member. -/
theorem searchBy_nearest_shelvedStore :
    InStep 2 shelvedStore ∧
      (∀ slot ∈ filled shelvedStore.tables.slots,
        (differing.similarity? (differing.distance slot.vector [1.0, 0.0])).isSome) ∧
      (∃ hits, shelvedStore.searchBy differing [1.0, 0.0] 2 none = .ok hits ∧
        shelvedStore.NearestHits differing [1.0, 0.0] 2 hits) ∧
      ∃ wide, shelvedStore.searchBy differing [1.0, 0.0] 2 none = .ok wide ∧
        shelvedStore.searchBy differing [1.0, 0.0] 1 (some { kinds := [.member] }) =
          .ok ((wide.filter fun h =>
            Filter.accepts { kinds := [.member] } h.chunk h.profile).take 1) := by
  have hs : InStep ([1.0, 0.0] : Embedding).length shelvedStore :=
    (inStep_empty 2).runs (runs_carriedOut _ shelvingCalls)
  have hm : ∀ slot ∈ filled shelvedStore.tables.slots,
      (differing.similarity? (differing.distance slot.vector [1.0, 0.0])).isSome := fun _ _ => rfl
  obtain ⟨hnearest, -, hchosen⟩ := searchBy_nearest differing hs hm
  exact ⟨hs, hm, hnearest 2, hchosen 1 { kinds := [.member] }⟩

end Ranking

end CodeAtlas.Store
