import Mathlib.Data.List.Nodup
import CodeAtlas.Chunk.Basic
import CodeAtlas.Proofs.Keyed

/-!
Chunks without those whose id stood before.
-/

namespace CodeAtlas.Chunk

variable {cs : List Chunk}

theorem eq_of_id_eq (hn : (cs.map Chunk.id).Nodup) {c d : Chunk} (hc : c ∈ cs) (hd : d ∈ cs)
    (h : c.id = d.id) : c = d :=
  List.inj_on_of_nodup_map hn hc hd h

theorem eq_of_map_id_eq (hn : (cs.map Chunk.id).Nodup) {ds es : List Chunk} (hd : ds ⊆ cs)
    (he : es ⊆ cs) (h : ds.map Chunk.id = es.map Chunk.id) : ds = es := by
  induction ds generalizing es with
  | nil => exact (List.map_eq_nil_iff.mp h.symm).symm
  | cons d ds ih =>
    cases es with
    | nil => exact absurd h nofun
    | cons e es =>
      obtain ⟨hdc, hd⟩ := List.cons_subset.mp hd
      obtain ⟨hec, he⟩ := List.cons_subset.mp he
      obtain ⟨hid, hids⟩ := List.cons.inj h
      rw [eq_of_id_eq hn hdc hec hid, ih hd he hids]

/-- Chunks with distinct ids are all kept. -/
theorem distinct_eq_self (h : (cs.map Chunk.id).Nodup) : distinct cs = cs :=
  distinctBy_eq_self h fun _ _ => List.not_mem_nil

/-- Of chunks from a list with distinct ids nothing but repetitions is left out. -/
theorem mem_distinct {all : List Chunk} (h : (all.map Chunk.id).Nodup) (hsub : cs ⊆ all)
    {c : Chunk} : c ∈ distinct cs ↔ c ∈ cs := by
  constructor
  · exact fun hc => (distinctBy_sublist cs []).subset hc
  · intro hc
    obtain ⟨d, hd, he⟩ := exists_mem_distinctBy hc (List.not_mem_nil (a := c.id))
    have hdc : d ∈ cs := (distinctBy_sublist cs []).subset hd
    rwa [← eq_of_id_eq h (hsub hdc) (hsub hc) he]

theorem filter_eq_singleton {α : Type} {xs : List α} {p : α → Bool} {x : α} (hn : xs.Nodup)
    (hx : x ∈ xs) (h : ∀ y ∈ xs, p y = true ↔ y = x) : xs.filter p = [x] := by
  apply List.perm_singleton.mp
  apply (List.perm_ext_iff_of_nodup (hn.filter p) (List.nodup_singleton x)).mpr
  intro y
  rw [List.mem_filter, List.mem_singleton]
  constructor
  · intro hy
    exact (h y hy.1).mp hy.2
  · intro hy
    subst hy
    exact ⟨hx, (h y hx).mpr rfl⟩

end CodeAtlas.Chunk
