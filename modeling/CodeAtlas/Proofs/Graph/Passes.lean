import CodeAtlas.Proofs.Graph.Parts

/-!
The passes over the chunks. Each finds dependencies of its own relationships, so that the
dependencies of one relationship are those that its pass finds.
-/

namespace CodeAtlas.Inference

open Resolution

/-- The pass that finds the dependencies of a relationship; no pass finds unknown ones. -/
def pass : Relationship → Nat
  | .contains => 0
  | .inherits => 1
  | .implements => 1
  | .calls => 2
  | .uses => 3
  | .imports => 4
  | .unknown => 5

def IsStrength (x : Float) : Prop := 0.0 ≤ x ∧ x ≤ 1.0

instance (x : Float) : Decidable (IsStrength x) := inferInstanceAs (Decidable (_ ∧ _))

def strengths : List Float := [1.0, 0.9, 0.8, 0.7, 0.6, 0.5]

theorem isStrength_of_mem {x : Float} (h : x ∈ strengths) : IsStrength x := by
  have hall : ∀ x ∈ strengths, IsStrength x := by decide
  exact hall x h

structure FoundIn (k : Nat) (c : Chunk) (d : Dependency) : Prop where
  source : d.source = c.id
  relationship : pass d.relationship = k
  strength : d.strength ∈ strengths

section Passes

variable {chunks : List Chunk} {c : Chunk} {d : Dependency}

theorem foundIn_containment (h : d ∈ containment chunks c) : FoundIn 0 c d := by
  obtain ⟨child, -, rfl⟩ := List.mem_map.mp h
  exact ⟨rfl, rfl, show 1.0 ∈ strengths by simp [strengths]⟩

theorem foundIn_heritage (h : d ∈ heritage chunks c) : FoundIn 1 c d := by
  unfold heritage at h
  split at h
  · cases List.mem_append.mp h with
    | inl h =>
      obtain ⟨written, -, h⟩ := List.mem_flatMap.mp h
      obtain ⟨base, -, rfl⟩ := List.mem_map.mp h
      exact ⟨rfl, rfl, show 1.0 ∈ strengths by simp [strengths]⟩
    | inr h =>
      obtain ⟨written, -, h⟩ := List.mem_flatMap.mp h
      obtain ⟨base, -, rfl⟩ := List.mem_map.mp h
      exact ⟨rfl, rfl, show 0.9 ∈ strengths by simp [strengths]⟩
  · exact absurd h List.not_mem_nil

theorem foundIn_calls (h : d ∈ calls chunks c) : FoundIn 2 c d := by
  unfold calls at h
  split at h
  · obtain ⟨callee, -, rfl⟩ := List.mem_map.mp h
    exact ⟨rfl, rfl, show 0.8 ∈ strengths by simp [strengths]⟩
  · exact absurd h List.not_mem_nil

theorem foundIn_uses {above : List (Option Nat)} (h : d ∈ uses chunks above c) : FoundIn 3 c d := by
  unfold uses at h
  split at h
  · obtain ⟨word, -, h⟩ := List.mem_filterMap.mp h
    obtain ⟨t, -, h⟩ := Option.bind_eq_some_iff.mp h
    split at h
    · exact absurd h nofun
    · obtain rfl := Option.some.inj h
      exact ⟨rfl, rfl, show 0.7 ∈ strengths by simp [strengths]⟩
  · split at h
    · obtain ⟨written, -, h⟩ := List.mem_filterMap.mp h
      obtain ⟨t, -, rfl⟩ := Option.map_eq_some_iff.mp h
      exact ⟨rfl, rfl, show 0.8 ∈ strengths by simp [strengths]⟩
    · exact absurd h List.not_mem_nil

theorem strength_match (m : Match) : Match.strength m ∈ strengths := by
  cases m <;> simp [Match.strength, strengths]

theorem foundIn_imports (h : d ∈ imports chunks c) : FoundIn 4 c d := by
  unfold imports at h
  split at h
  · obtain ⟨written, -, h⟩ := List.mem_flatMap.mp h
    unfold importsOf at h
    split at h
    · obtain ⟨t, -, rfl⟩ := List.mem_map.mp h
      exact ⟨rfl, rfl, show 0.5 ∈ strengths by simp [strengths]⟩
    · split at h
      · obtain ⟨⟨t, m⟩, -, rfl⟩ := List.mem_map.mp h
        exact ⟨rfl, rfl, strength_match m⟩
      · obtain ⟨⟨t, m⟩, -, rfl⟩ := List.mem_map.mp h
        exact ⟨rfl, rfl, strength_match m⟩
  · exact absurd h List.not_mem_nil

def passes (chunks : List Chunk) : List (Chunk → List Dependency) :=
  [containment chunks, heritage chunks, calls chunks, uses chunks (parents chunks), imports chunks]

theorem found_eq (chunks : List Chunk) :
    found chunks = (passes chunks).flatMap fun run => chunks.flatMap run := by
  simp [found, passes]

theorem foundIn_passes {k : Nat} {run : Chunk → List Dependency}
    (hk : (run, k) ∈ (passes chunks).zipIdx) (h : d ∈ run c) : FoundIn k c d := by
  simp only [passes, List.zipIdx_cons, List.zipIdx_nil, List.mem_cons, Prod.mk.injEq,
    List.not_mem_nil, or_false] at hk
  rcases hk with ⟨rfl, rfl⟩ | ⟨rfl, rfl⟩ | ⟨rfl, rfl⟩ | ⟨rfl, rfl⟩ | ⟨rfl, rfl⟩
  · exact foundIn_containment h
  · exact foundIn_heritage h
  · exact foundIn_calls h
  · exact foundIn_uses h
  · exact foundIn_imports h

theorem exists_foundIn (h : d ∈ found chunks) : ∃ k < 5, ∃ c ∈ chunks, FoundIn k c d := by
  rw [found_eq] at h
  obtain ⟨run, hr, h⟩ := List.mem_flatMap.mp h
  obtain ⟨c, hc, h⟩ := List.mem_flatMap.mp h
  obtain ⟨k, hk, rfl⟩ := List.mem_iff_getElem.mp hr
  exact ⟨k, hk, c, hc,
    foundIn_passes (List.mk_mem_zipIdx_iff_getElem?.mpr (List.getElem?_eq_getElem hk)) h⟩

/-- A pass finds nothing of the relationships of other passes. -/
theorem filter_other_pass {k : Nat} {run : Chunk → List Dependency} {r : Relationship}
    (h : ∀ c d, d ∈ run c → FoundIn k c d) (hr : pass r ≠ k) (cs : List Chunk) :
    ((cs.flatMap run).filter fun d => d.relationship == r) = [] := by
  rw [List.filter_eq_nil_iff]
  intro d hd
  obtain ⟨c, -, hd⟩ := List.mem_flatMap.mp hd
  have hne : d.relationship ≠ r := fun he => hr (he ▸ (h c d hd).relationship)
  simpa using hne

theorem filter_own_pass {k : Nat} {run : Chunk → List Dependency} {r : Relationship}
    (h : ∀ c d, d ∈ run c → FoundIn k c d) (hr : ∀ s, pass s = k → s = r) (cs : List Chunk) :
    ((cs.flatMap run).filter fun d => d.relationship == r) = cs.flatMap run := by
  rw [List.filter_eq_self]
  intro d hd
  obtain ⟨c, -, hd⟩ := List.mem_flatMap.mp hd
  simpa using hr _ (h c d hd).relationship

theorem filter_found_contains (chunks : List Chunk) :
    ((found chunks).filter fun d => d.relationship == .contains) =
      chunks.flatMap (containment chunks) := by
  have hown : ∀ s, pass s = 0 → s = .contains := by
    intro s hs
    cases s <;> first | rfl | exact absurd hs (by decide)
  simp only [found, List.filter_append]
  rw [filter_own_pass (fun _ _ => foundIn_containment) hown,
    filter_other_pass (fun _ _ => foundIn_heritage) (by decide),
    filter_other_pass (fun _ _ => foundIn_calls) (by decide),
    filter_other_pass (fun _ _ => foundIn_uses) (by decide),
    filter_other_pass (fun _ _ => foundIn_imports) (by decide)]
  simp only [List.append_nil]

theorem filter_found_calls (chunks : List Chunk) :
    ((found chunks).filter fun d => d.relationship == .calls) = chunks.flatMap (calls chunks) := by
  have hown : ∀ s, pass s = 2 → s = .calls := by
    intro s hs
    cases s <;> first | rfl | exact absurd hs (by decide)
  simp only [found, List.filter_append]
  rw [filter_other_pass (fun _ _ => foundIn_containment) (by decide),
    filter_other_pass (fun _ _ => foundIn_heritage) (by decide),
    filter_own_pass (fun _ _ => foundIn_calls) hown,
    filter_other_pass (fun _ _ => foundIn_uses) (by decide),
    filter_other_pass (fun _ _ => foundIn_imports) (by decide)]
  simp only [List.nil_append, List.append_nil]

/-- The dependencies of one relationship in a graph are what is found of it, as it stands. -/
theorem edgesOf_eq {r : Relationship} {ds : List Dependency} (h : (chunks.map Chunk.id).Nodup)
    (hfound : ((found chunks).filter fun d => d.relationship == r) = ds)
    (hends : ∀ d ∈ ds, d.source ≠ d.target ∧ d.source ∈ chunks.map Chunk.id ∧
      d.target ∈ chunks.map Chunk.id)
    (hkeys : (ds.map Dependency.key).Nodup) : (Graph.ofChunks chunks).edgesOf r = ds := by
  have hids : (chunks.map Chunk.toNode).map Node.id = chunks.map Chunk.id := by
    rw [List.map_map]
    rfl
  have hkeep : (keepFirst (found chunks)).filter (fun d => d.relationship == r) = ds := by
    rw [filter_keepFirst, hfound]
    · exact keepFirst_eq_self (fun d hd => (hends d hd).1) hkeys
    · intro d e hk
      rw [show d.relationship = e.relationship from congrArg (fun k => k.2.2) hk]
  rw [Graph.ofChunks, Chunk.distinct_eq_self h, Graph.edgesOf_ofParts, hkeep]
  apply Graph.ofParts_edges_eq_self
  intro e he
  rw [hids]
  exact (hends e he).2

end Passes

end CodeAtlas.Inference
