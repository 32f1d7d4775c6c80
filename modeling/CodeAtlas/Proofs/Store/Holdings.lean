import CodeAtlas.Store.Search
import CodeAtlas.Proofs.Retrieval.Outcome

/-!
The store as retrieval sees it. A chunk that is read for an id has it, and dependencies of an id
start or end there.
-/

namespace CodeAtlas

namespace Store

open Retrieval

theorem exists_of_mem_mapM {α β : Type} {f : α → Except Failure β} {as : List α} {bs : List β}
    (h : as.mapM f = .ok bs) {b : β} (hb : b ∈ bs) : ∃ a ∈ as, f a = .ok b := by
  induction as generalizing bs with
  | nil =>
    obtain rfl := Except.ok.inj h
    exact absurd hb List.not_mem_nil
  | cons a rest ih =>
    rw [List.mapM_cons] at h
    cases ha : f a with
    | error e => simp [ha, bind, Except.bind] at h
    | ok c =>
      cases hr : rest.mapM f with
      | error e => simp [ha, hr, bind, Except.bind] at h
      | ok cs =>
        simp only [ha, hr, bind, Except.bind, pure, Except.pure, Except.ok.injEq] at h
        subst h
        rcases List.mem_cons.mp hb with rfl | hb
        · exact ⟨a, List.mem_cons_self, ha⟩
        · obtain ⟨a', ha', hf⟩ := ih hr hb
          exact ⟨a', List.mem_cons_of_mem a ha', hf⟩

theorem edges_chosen {s : Store} {f : EdgeFilter} {ds : List Dependency} (h : s.edges f = .ok ds)
    {d : Dependency} (hd : d ∈ ds) :
    f.source.all (· == d.source) = true ∧ f.target.all (· == d.target) = true := by
  obtain ⟨r, hr, he⟩ := exists_of_mem_mapM h hd
  have hchosen : f.accepts r = true := by
    unfold EdgeFilter.cut at hr
    split at hr
    · exact (List.mem_filter.mp (List.mem_of_mem_take hr)).2
    · exact (List.mem_filter.mp hr).2
  simp only [EdgeFilter.accepts, Bool.and_eq_true] at hchosen
  unfold EdgeRow.read at he
  split at he
  · obtain rfl := Except.ok.inj he
    exact hchosen.1
  · exact absurd he nofun

/-- What the store answers for an id belongs to it. -/
theorem holdings_lawful (s : Store) : (holdings s).Lawful where
  chunk_id id c hc := by
    have hfound : (s.chunk? id).map (fun d => d.map StoredChunk.chunk) = .ok (some c) := hc
    unfold chunk? at hfound
    split at hfound
    · exact absurd hfound nofun
    · rename_i r hr
      have hid : r.chunk.id = id := by simpa using List.find?_some hr
      unfold ChunkRow.read at hfound
      split at hfound
      · simp only [Except.map, Option.map_some, Except.ok.injEq, Option.some.injEq] at hfound
        exact hfound ▸ hid
      · exact absurd hfound nofun
  touching limit id ds hds d hd := by
    have hasked : s.neighbors id limit = .ok ds := hds
    unfold neighbors at hasked
    rw [Dependency.touches, Bool.or_eq_true]
    cases hout : s.edges { source := id, limit := some limit } with
    | error e => simp [hout, bind, Except.bind] at hasked
    | ok outgoing =>
      cases hin : s.edges { target := id, limit := some (limit - outgoing.length) } with
      | error e => simp [hout, hin, bind, Except.bind] at hasked
      | ok incoming =>
        simp only [hout, hin, bind, Except.bind, pure, Except.pure, Except.ok.injEq] at hasked
        subst hasked
        rcases List.mem_append.mp hd with hd | hd
        · have hsource : (id == d.source) = true := (edges_chosen hout hd).1
          exact Or.inl (beq_iff_eq.mpr (eq_of_beq hsource).symm)
        · have htarget : (id == d.target) = true := (edges_chosen hin hd).2
          exact Or.inr (beq_iff_eq.mpr (eq_of_beq htarget).symm)

end Store

end CodeAtlas
