import CodeAtlas.Proofs.Graph.Calls
import CodeAtlas.Proofs.Text.Word

/-!
Calls between members of one name. In the text of a member its own name with a parenthesis behind
may be its declaration or a call. On the first line every one is taken for the declaration, on the
later lines none.
-/

namespace CodeAtlas.Inference

def namesakeSites (a : Chunk) : List Text.CallSite :=
  (Text.callSites a.content).filter fun s => a.name == some s.name

section Delegation

variable {chunks : List Chunk} {a b : Chunk} {s : Text.CallSite}

theorem sitesOf_namesake (h : a.name = b.name) :
    sitesOf a b = (namesakeSites a).filter fun s => s.lineOffset != 0 := by
  rw [sitesOf, namesakeSites, List.filter_filter]
  apply List.filter_congr
  intro s _
  rw [mayMean, h, BEq.rfl, Bool.and_true, Bool.and_comm]
  rfl

theorem isNamed_of_mem_namesakeSites (h : s ∈ namesakeSites a) : a.isNamed = true := by
  obtain ⟨hs, hn⟩ := List.mem_filter.mp h
  have hne : s.name.isEmpty = false := by
    rw [Bool.eq_false_iff, Ne, String.isEmpty_iff]
    rintro he
    exact Text.name_ne_of_mem_callSites hs (by rw [he]; rfl)
  rw [Chunk.isNamed, beq_iff_eq.mp hn, Option.any_some, hne]
  rfl

theorem isCalled_namesake (hb : b.kind.isMemberLike = true) (hid : a.id ≠ b.id)
    (h : a.name = b.name) : isCalled a b = true ↔ ∃ s ∈ namesakeSites a, s.lineOffset ≠ 0 := by
  have hnamed : b.isNamed = a.isNamed := by rw [Chunk.isNamed, Chunk.isNamed, h]
  have hsites : (!(sitesOf a b).isEmpty) = true ↔ ∃ s ∈ namesakeSites a, s.lineOffset ≠ 0 := by
    rw [Bool.not_eq_true', List.isEmpty_eq_false_iff_exists_mem, sitesOf_namesake h]
    simp only [List.mem_filter, bne_iff_ne]
  rw [isCalled, hb, hnamed, bne_iff_ne.mpr hid.symm, Bool.true_and, Bool.and_true,
    Bool.and_eq_true, hsites, and_iff_right_iff_imp]
  rintro ⟨s, hs, -⟩
  exact isNamed_of_mem_namesakeSites hs

/-- The dependency of one member on another that it calls is the only one of its ends and
relationship. -/
theorem mem_edges_callOf (hn : (chunks.map Chunk.id).Nodup) (ha : a ∈ chunks)
    (hak : a.kind.isMemberLike = true) (hb : b ∈ chunks) {e : Dependency} :
    e ∈ (Graph.ofChunks chunks).edges ∧ e.key = (a.id, b.id, .calls) ↔
      isCalled a b = true ∧ e = callOf a b := by
  constructor
  · rintro ⟨he, hk⟩
    obtain ⟨a', ha', b', hb', hab, rfl⟩ := exists_callOf hn he (congrArg (fun k => k.2.2) hk)
    obtain ⟨hsource, hrest⟩ := Prod.mk.inj hk
    obtain rfl := Chunk.eq_of_id_eq hn ha' ha hsource
    obtain rfl := Chunk.eq_of_id_eq hn hb' hb (Prod.mk.inj hrest).1
    exact ⟨hab, rfl⟩
  · rintro ⟨hab, rfl⟩
    exact ⟨callOf_mem_edges hn ha hak hb hab, rfl⟩

/-- Two calls of which no more than one stands on the first line are one on a later line. -/
theorem exists_later (htwo : 2 ≤ (namesakeSites a).length)
    (hone : ((namesakeSites a).filter fun s => s.lineOffset == 0).length ≤ 1) :
    ∃ s ∈ namesakeSites a, s.lineOffset ≠ 0 := by
  by_contra hnone
  have hall : (namesakeSites a).filter (fun s => s.lineOffset == 0) = namesakeSites a := by
    apply List.filter_eq_self.mpr
    intro s hs
    exact beq_iff_eq.mpr (by_contra fun hline => hnone ⟨s, hs, hline⟩)
  rw [hall] at hone
  omega

/-- A member depends on another of its own name if the name stands as a call in it below the first
line, and the places of the dependency are those. So it does if there are two such calls, one of
them the declaration, unless both stand on the first line. -/
theorem calls_namesake (hn : (chunks.map Chunk.id).Nodup) (ha : a ∈ chunks) (hb : b ∈ chunks)
    (hak : a.kind.isMemberLike = true) (hbk : b.kind.isMemberLike = true) (hid : a.id ≠ b.id)
    (hname : a.name = b.name) :
    ((a.id, b.id, .calls) ∈ (Graph.ofChunks chunks).edges.map Dependency.key ↔
        ∃ s ∈ namesakeSites a, s.lineOffset ≠ 0) ∧
      (2 ≤ (namesakeSites a).length →
        ((namesakeSites a).filter fun s => s.lineOffset == 0).length ≤ 1 →
        (a.id, b.id, .calls) ∈ (Graph.ofChunks chunks).edges.map Dependency.key) ∧
      ∀ e ∈ (Graph.ofChunks chunks).edges, e.key = (a.id, b.id, .calls) →
        e.locations = ((namesakeSites a).filter fun s => s.lineOffset != 0).map (locationOf a) := by
  have hiff : (a.id, b.id, .calls) ∈ (Graph.ofChunks chunks).edges.map Dependency.key ↔
      ∃ s ∈ namesakeSites a, s.lineOffset ≠ 0 := by
    rw [← isCalled_namesake hbk hid hname, List.mem_map]
    constructor
    · rintro ⟨e, he⟩
      exact ((mem_edges_callOf hn ha hak hb).mp he).1
    · exact fun hab => ⟨_, (mem_edges_callOf hn ha hak hb).mpr ⟨hab, rfl⟩⟩
  refine ⟨hiff, fun htwo hone => hiff.mpr (exists_later htwo hone), ?_⟩
  intro e he hk
  obtain ⟨-, rfl⟩ := (mem_edges_callOf hn ha hak hb).mp ⟨he, hk⟩
  rw [callOf, sitesOf_namesake hname]

end Delegation

def closers (content : String) : List Chunk :=
  [{ id := "a", kind := .member, name := some "close", path := "m.py", language := "python"
     startLine := 1, endLine := 2, content },
   { id := "b", kind := .member, name := some "close", path := "m.py", language := "python"
     startLine := 4, endLine := 4, content := "def close(self): pass" }]

theorem calls_namesake_closers :
    ("a", "b", .calls) ∈
      (Graph.ofChunks (closers "def close(self):\n  self.file.close()")).edges.map
          Dependency.key := by
  have hn : ((closers "def close(self):\n  self.file.close()").map Chunk.id).Nodup := by decide
  have h := calls_namesake hn List.mem_cons_self (List.mem_cons_of_mem _ List.mem_cons_self) rfl rfl
    (by decide) rfl
  exact h.2.1 (by decide +kernel) (by decide +kernel)

/-- With the call on the line of the declaration nothing is found. -/
theorem not_calls_closers : ((closers "def close(self): self.file.close()").map Chunk.id).Nodup ∧
    ∃ a ∈ closers "def close(self): self.file.close()",
      ∃ b ∈ closers "def close(self): self.file.close()",
      a.kind.isMemberLike = true ∧ b.kind.isMemberLike = true ∧ a.id ≠ b.id ∧ a.name = b.name ∧
      2 ≤ (namesakeSites a).length ∧ (a.id, b.id, .calls) ∉
        (Graph.ofChunks (closers "def close(self): self.file.close()")).edges.map
            Dependency.key := by
  refine ⟨by decide, _, List.mem_cons_self, _, List.mem_cons_of_mem _ List.mem_cons_self, rfl,
    rfl, by decide, rfl, ?_⟩
  decide +kernel

end CodeAtlas.Inference
