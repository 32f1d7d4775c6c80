import CodeAtlas.Proofs.First
import CodeAtlas.Proofs.Graph.WellFormed

/-!
Which dependencies a graph keeps. Of those with the same ends and relationship it is the first one
that is found, and to find it the pass of that relationship over the chunk at its start has to be
looked at, and nothing else.
-/

namespace CodeAtlas.Inference

section Kept

variable {chunks : List Chunk} {e : Dependency} {r : Relationship}

theorem mem_keepFirst_iff {ds : List Dependency} :
    e ∈ keepFirst ds ↔ e.source ≠ e.target ∧ First ds (fun d => d.key = e.key) e := by
  rw [keepFirst, mem_distinctBy_iff, First.filter_iff]
  -- with the key of a dependency come its ends, so none of that key was left out before it
  have hends : e.source ≠ e.target → ∀ d : Dependency, ((d.source != d.target) = true ∧
      d.key = e.key) ↔ d.key = e.key := by
    intro hne d
    rw [bne_iff_ne, and_iff_right_iff_imp]
    intro hk
    obtain ⟨hsource, hk'⟩ := Prod.mk.inj hk
    rwa [hsource, (Prod.mk.inj hk').1]
  constructor
  · rintro ⟨-, h⟩
    have hne : e.source ≠ e.target := by simpa using h.holds.1
    exact ⟨hne, (First.congr fun d _ => hends hne d).mp h⟩
  · rintro ⟨hne, h⟩
    exact ⟨List.not_mem_nil, (First.congr fun d _ => hends hne d).mpr h⟩

theorem mem_edges_iff (hn : (chunks.map Chunk.id).Nodup) :
    e ∈ (Graph.ofChunks chunks).edges ↔ e.source ≠ e.target ∧ e.source ∈ chunks.map Chunk.id ∧
      e.target ∈ chunks.map Chunk.id ∧ First (found chunks) (fun d => d.key = e.key) e := by
  have hids : (chunks.map Chunk.toNode).map Node.id = chunks.map Chunk.id := by
    rw [List.map_map]
    rfl
  rw [Graph.ofChunks, Chunk.distinct_eq_self hn, Graph.ofParts_edges, hids, List.mem_filter,
    mem_keepFirst_iff, decide_eq_true_iff]
  tauto

theorem getElem?_of_found {k : Nat} {run other : Chunk → List Dependency}
    (hk : (passes chunks)[k]? = some run) (hother : other ∈ passes chunks) {d : Dependency}
    {c : Chunk} (hd : d ∈ other c) (hr : pass d.relationship = k) :
    other = run ∧ d.source = c.id := by
  obtain ⟨l, hl⟩ := List.mem_iff_getElem?.mp hother
  have hfound := foundIn_passes (List.mk_mem_zipIdx_iff_getElem?.mpr hl) hd
  obtain rfl : k = l := hr.symm.trans hfound.relationship
  exact ⟨Option.some.inj (hl.symm.trans hk), hfound.source⟩

/-- The first dependency with a key is the first that its pass finds for the chunk it starts at. -/
theorem first_found_iff {run : Chunk → List Dependency} (hn : (chunks.map Chunk.id).Nodup)
    (hk : (passes chunks)[pass e.relationship]? = some run) :
    First (found chunks) (fun d => d.key = e.key) e ↔
      ∃ c ∈ chunks, e.source = c.id ∧ First (run c) (fun d => d.key = e.key) e := by
  have hmem : run ∈ passes chunks := List.mem_of_getElem? hk
  have hown : ∀ other ∈ passes chunks, ∀ c, ∀ d ∈ other c, d.key = e.key → other = run ∧
      e.source = c.id := by
    intro other hother c d hd hkey
    have hr : d.relationship = e.relationship := congrArg (fun k => k.2.2) hkey
    obtain ⟨he, hs⟩ := getElem?_of_found hk hother hd (congrArg pass hr)
    exact ⟨he, (congrArg Prod.fst hkey).symm.trans hs⟩
  rw [found_eq, First.flatMap_iff]
  constructor
  · rintro ⟨other, hother, h⟩
    obtain ⟨c, hc, h⟩ := First.flatMap_iff.mp h
    obtain ⟨rfl, hs⟩ := hown other hother.mem c e h.mem rfl
    exact ⟨c, hc.mem, hs, h⟩
  · rintro ⟨c, hc, hs, h⟩
    have hchunk : First chunks (fun c => ∃ d ∈ run c, d.key = e.key) c := by
      obtain ⟨c', hc'⟩ : ∃ c', First chunks (fun c => ∃ d ∈ run c, d.key = e.key) c' :=
        First.exists_iff.mpr ⟨c, hc, e, h.mem, rfl⟩
      obtain ⟨d, hd, hkey⟩ := hc'.holds
      have hid : c'.id = c.id := (hown run hmem c' d hd hkey).2.symm.trans hs
      rwa [Chunk.eq_of_id_eq hn hc'.mem hc hid] at hc'
    have hall : First (chunks.flatMap run) (fun d => d.key = e.key) e :=
      First.flatMap_iff.mpr ⟨c, hchunk, h⟩
    obtain ⟨other, hother⟩ :
        ∃ other, First (passes chunks) (fun run => ∃ d ∈ chunks.flatMap run, d.key = e.key) other :=
      First.exists_iff.mpr ⟨run, hmem, e, hall.mem, rfl⟩
    obtain ⟨d, hd, hkey⟩ := hother.holds
    obtain ⟨c', -, hd⟩ := List.mem_flatMap.mp hd
    obtain rfl := (hown other hother.mem c' d hd hkey).1
    exact ⟨other, hother, hall⟩

/-- The dependencies of one relationship in a graph, each with the chunk at its start. -/
theorem mem_edgesOf_iff {run : Chunk → List Dependency} (hn : (chunks.map Chunk.id).Nodup)
    (hk : (passes chunks)[pass r]? = some run) :
    e ∈ (Graph.ofChunks chunks).edgesOf r ↔ e.relationship = r ∧ e.source ≠ e.target ∧
      e.target ∈ chunks.map Chunk.id ∧
        ∃ c ∈ chunks, e.source = c.id ∧ First (run c) (fun d => d.key = e.key) e := by
  rw [Graph.edgesOf, List.mem_filter, mem_edges_iff hn, beq_iff_eq]
  constructor
  · rintro ⟨⟨hne, -, ht, h⟩, rfl⟩
    exact ⟨rfl, hne, ht, (first_found_iff hn hk).mp h⟩
  · rintro ⟨rfl, hne, ht, c, hc, hs, h⟩
    refine ⟨⟨hne, ?_, ht, (first_found_iff hn hk).mpr ⟨c, hc, hs, h⟩⟩, rfl⟩
    rw [hs]
    exact List.mem_map_of_mem hc

theorem mem_keys_iff {run : Chunk → List Dependency} {source target : String}
    (hn : (chunks.map Chunk.id).Nodup) (hk : (passes chunks)[pass r]? = some run) :
    (source, target, r) ∈ (Graph.ofChunks chunks).edges.map Dependency.key ↔ source ≠ target ∧
      target ∈ chunks.map Chunk.id ∧ ∃ c ∈ chunks,
          (source, target, r) ∈ (run c).map Dependency.key := by
  rw [mem_edges_keys hn]
  constructor
  · rintro ⟨d, hd, hkey, hne, -, ht⟩
    obtain ⟨rfl, rfl, rfl⟩ : d.source = source ∧ d.target = target ∧ d.relationship = r := by
      simpa [Dependency.key] using hkey
    rw [found_eq] at hd
    obtain ⟨other, hother, hd⟩ := List.mem_flatMap.mp hd
    obtain ⟨c, hc, hd⟩ := List.mem_flatMap.mp hd
    obtain ⟨rfl, -⟩ := getElem?_of_found hk hother hd rfl
    exact ⟨hne, ht, c, hc, List.mem_map_of_mem hd⟩
  · rintro ⟨hne, ht, c, hc, hc'⟩
    obtain ⟨d, hd, hkey⟩ := List.mem_map.mp hc'
    obtain ⟨rfl, rfl, rfl⟩ : d.source = source ∧ d.target = target ∧ d.relationship = r := by
      simpa [Dependency.key] using hkey
    have hmem : run ∈ passes chunks := List.mem_of_getElem? hk
    have hs : d.source = c.id := (getElem?_of_found hk hmem hd rfl).2
    refine ⟨d, ?_, rfl, hne, hs ▸ List.mem_map_of_mem hc, ht⟩
    rw [found_eq]
    exact List.mem_flatMap.mpr ⟨run, hmem, List.mem_flatMap.mpr ⟨c, hc, hd⟩⟩

end Kept

end CodeAtlas.Inference
