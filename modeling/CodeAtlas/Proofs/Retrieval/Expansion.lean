import CodeAtlas.Proofs.First
import CodeAtlas.Proofs.Retrieval.Distance
import CodeAtlas.Proofs.Retrieval.Steps

/-!
Breadth-first expansion. Before each round the nodes met last are those at one distance, and those
met before are nearer.
-/

namespace CodeAtlas.Retrieval

open Expanded

theorem meet_eq (nodes : List String) (id : String) :
    ∃ new, meet nodes id = nodes ++ new ∧ new.Nodup ∧ ∀ v, v ∈ new ↔ v = id ∧ v ∉ nodes := by
  unfold meet
  by_cases h : id ∈ nodes
  · refine ⟨[], by simp [h], List.nodup_nil, fun v => ?_⟩
    constructor
    · intro hv
      exact absurd hv List.not_mem_nil
    · rintro ⟨rfl, hv⟩
      exact absurd h hv
  · refine ⟨[id], by simp [h], List.nodup_singleton id, fun v => ?_⟩
    rw [List.mem_singleton]
    constructor
    · rintro rfl
      exact ⟨rfl, h⟩
    · exact And.left

theorem nodup_meet {nodes : List String} (hn : nodes.Nodup) (id : String) :
    (meet nodes id).Nodup := by
  obtain ⟨new, he, hnew, hm⟩ := meet_eq nodes id
  rw [he]
  apply List.nodup_append.mpr
  refine ⟨hn, hnew, ?_⟩
  rintro a ha b hb rfl
  exact ((hm a).mp hb).2 ha

/-- Meeting some nodes adds those that are new, each once. -/
theorem foldl_meet (ids nodes : List String) :
    ∃ new, ids.foldl meet nodes = nodes ++ new ∧ new.Nodup ∧ ∀ v, v ∈ new ↔
      v ∈ ids ∧ v ∉ nodes := by
  induction ids generalizing nodes with
  | nil => exact ⟨[], by simp, List.nodup_nil, by simp⟩
  | cons id rest ih =>
    obtain ⟨first, hf, hfn, hfm⟩ := meet_eq nodes id
    obtain ⟨later, hl, hln, hlm⟩ := ih (nodes ++ first)
    refine ⟨first ++ later, ?_, ?_, fun v => ?_⟩
    · rw [List.foldl_cons, hf, hl, List.append_assoc]
    · apply List.nodup_append.mpr
      refine ⟨hfn, hln, ?_⟩
      rintro a ha b hb rfl
      exact ((hlm a).mp hb).2 (List.mem_append_right _ ha)
    · rw [List.mem_append, hfm, hlm, List.mem_append, List.mem_cons, hfm]
      tauto

section Rounds

variable {links : String → List Dependency} {seeds : List String}

theorem mem_of_touches {id : String} {d : Dependency} {nodes : List String}
    (h : d.touches id = true) (hid : id ∈ nodes) :
    d.source ∈ meet nodes (otherEnd id d) ∧ d.target ∈ meet nodes (otherEnd id d) := by
  obtain ⟨new, he, -, hm⟩ := meet_eq nodes (otherEnd id d)
  have hother : otherEnd id d ∈ nodes ++ new := by
    by_cases ho : otherEnd id d ∈ nodes
    · exact List.mem_append_left new ho
    · exact List.mem_append_right nodes ((hm _).mpr ⟨rfl, ho⟩)
  have hself : id ∈ nodes ++ new := List.mem_append_left new hid
  rw [he]
  simp only [Dependency.touches, Bool.or_eq_true, beq_iff_eq] at h
  unfold otherEnd at hother
  by_cases hs : d.source = id
  · rw [if_pos (by simpa using hs)] at hother
    exact ⟨hs ▸ hself, hother⟩
  · rw [if_neg (by simpa using hs)] at hother
    rcases h with h | h
    · exact absurd h hs
    · exact ⟨hother, h ▸ hself⟩

theorem follow_eq {id : String} {d : Dependency} {x : Expanded} (h : d.touches id = true)
    (hid : id ∈ x.nodes) :
    follow id x d =
      { x with nodes := meet x.nodes (otherEnd id d), steps := addStep (stepOf d) x.steps } := by
  obtain ⟨hs, ht⟩ := mem_of_touches h hid
  unfold follow
  rw [if_pos (by simp [hs, ht])]
  rfl

theorem foldl_follow {id : String} (ds : List Dependency) {x : Expanded}
    (h : ∀ d ∈ ds, d.touches id = true) (hid : id ∈ x.nodes) :
    ds.foldl (follow id) x =
      { x with
        nodes := (ds.map (otherEnd id)).foldl meet x.nodes
        steps := (ds.map stepOf).foldl (fun kept t => addStep t kept) x.steps } := by
  induction ds generalizing x with
  | nil => rfl
  | cons d rest ih =>
    obtain ⟨new, he, -, -⟩ := meet_eq x.nodes (otherEnd id d)
    rw [List.foldl_cons, follow_eq (h d List.mem_cons_self) hid,
      ih (fun e hr => h e (List.mem_cons_of_mem d hr))]
    · rfl
    · rw [he]
      exact List.mem_append_left new hid

def otherEnds (links : String → List Dependency) (ids : List String) : List String :=
  ids.flatMap fun id => (links id).map (otherEnd id)

def stepsFrom (links : String → List Dependency) (ids : List String) : List Step :=
  ids.flatMap fun id => (links id).map stepOf

theorem round_eq (touching : ∀ v, ∀ d ∈ links v, d.touches v = true) (ids : List String)
    {x : Expanded} (hids : ids ⊆ x.nodes) :
    x.round (fun v => .ok (links v)) ids = .ok
      { x with
        nodes := (otherEnds links ids).foldl meet x.nodes
        steps := (stepsFrom links ids).foldl (fun kept t => addStep t kept) x.steps } := by
  unfold Expanded.round
  induction ids generalizing x with
  | nil => rfl
  | cons id rest ih =>
    have hid : id ∈ x.nodes := hids List.mem_cons_self
    obtain ⟨new, he, -, -⟩ := foldl_meet ((links id).map (otherEnd id)) x.nodes
    rw [List.foldlM_cons]
    show (rest.foldlM _ ((links id).foldl (follow id) x)) = _
    rw [foldl_follow (links id) (touching id) hid, ih]
    · simp only [otherEnds, stepsFrom, List.flatMap_cons, List.foldl_append]
    · intro v hv
      rw [he]
      exact List.mem_append_left new (hids (List.mem_cons_of_mem id hv))

/-- The state before the round that starts `k` steps from the seeds: `near` was met before the last
round and `ids` in it, and the dependencies of `near` were followed. -/
structure Level (links : String → List Dependency) (seeds : List String) (k : Nat)
    (near ids : List String) (x : Expanded) : Prop where
  nodes : x.nodes = near ++ ids
  nodup : x.nodes.Nodup
  mem_near : ∀ v, v ∈ near ↔ ∃ n, n < k ∧ IsDistance links seeds v n
  mem_last : ∀ v, v ∈ ids ↔ IsDistance links seeds v k
  sorted : near.Pairwise fun u v =>
    ∀ m n, IsDistance links seeds u m → IsDistance links seeds v n → m ≤ n
  seeds_eq : x.seeds = seeds.eraseDups
  seeds_first : x.seeds <+: x.nodes
  steps : Heaviest (stepsFrom links near) x.steps

theorem level_ofSeeds : Level links seeds 0 [] (ofSeeds seeds).nodes (ofSeeds seeds) where
  nodes := rfl
  nodup := nodup_eraseDups seeds
  mem_near v := by simp
  mem_last v := by
    rw [isDistance_zero]
    exact List.mem_eraseDups
  sorted := .nil
  seeds_eq := rfl
  seeds_first := List.prefix_rfl
  steps := heaviest_nil

/-- Everything met is as near as the round, and nearer things stand first. -/
theorem Level.sorted_nodes {k : Nat} {near ids : List String} {x : Expanded}
    (h : Level links seeds k near ids x) :
    (near ++ ids).Pairwise fun u v =>
      ∀ m n, IsDistance links seeds u m → IsDistance links seeds v n → m ≤ n := by
  apply List.pairwise_append.mpr
  refine ⟨h.sorted, ?_, ?_⟩
  · apply List.pairwise_of_forall_mem_list
    intro u hu v hv m n hm hn
    have h1 := hm.unique ((h.mem_last u).mp hu)
    have h2 := hn.unique ((h.mem_last v).mp hv)
    omega
  · intro u hu v hv m n hm hn
    obtain ⟨j, hj, hd⟩ := (h.mem_near u).mp hu
    have h1 := hm.unique hd
    have h2 := hn.unique ((h.mem_last v).mp hv)
    omega

theorem Level.mem_nodes {k : Nat} {near ids : List String} {x : Expanded}
    (h : Level links seeds k near ids x) (v : String) :
    v ∈ x.nodes ↔ ∃ n, n ≤ k ∧ IsDistance links seeds v n := by
  rw [h.nodes, List.mem_append, h.mem_near, h.mem_last]
  constructor
  · rintro (⟨n, hn, hv⟩ | hv)
    · exact ⟨n, by omega, hv⟩
    · exact ⟨k, Nat.le_refl k, hv⟩
  · rintro ⟨n, hn, hv⟩
    rcases Nat.lt_or_eq_of_le hn with hlt | rfl
    · exact Or.inl ⟨n, hlt, hv⟩
    · exact Or.inr hv

/-- A round meets what is one step farther. -/
theorem Level.round (touching : ∀ v, ∀ d ∈ links v, d.touches v = true) {k : Nat}
    {near ids : List String} {x : Expanded} (h : Level links seeds k near ids x) :
    ∃ y, x.round (fun v => .ok (links v)) ids = .ok y ∧
      Level links seeds (k + 1) (near ++ ids) (y.nodes.drop x.nodes.length) y := by
  have hids : ids ⊆ x.nodes := by
    rw [h.nodes]
    exact List.subset_append_right near ids
  obtain ⟨new, he, hn, hm⟩ := foldl_meet (otherEnds links ids) x.nodes
  refine ⟨_, round_eq touching ids hids, ?_⟩
  rw [he, List.drop_left]
  constructor
  · rw [h.nodes]
  · apply List.nodup_append.mpr
    refine ⟨h.nodup, hn, ?_⟩
    rintro a ha b hb rfl
    exact ((hm a).mp hb).2 ha
  · intro v
    rw [← h.nodes, h.mem_nodes]
    simp only [Nat.lt_succ_iff]
  -- what was met anew is what a step leads to from the last nodes and what is at no smaller
  -- distance
  · intro v
    rw [hm, h.mem_nodes, isDistance_succ, not_exists]
    apply and_congr
    · simp only [otherEnds, List.mem_flatMap, List.mem_map, h.mem_last]
    · apply forall_congr'
      intro n
      exact not_and
  · exact h.sorted_nodes
  · exact h.seeds_eq
  · exact h.seeds_first.trans (List.prefix_append x.nodes new)
  · have hs : stepsFrom links (near ++ ids) = stepsFrom links near ++ stepsFrom links ids :=
      List.flatMap_append
    rw [hs]
    exact h.steps.foldl (stepsFrom links ids)

/-- When nothing is at the distance of a round, nothing is farther. -/
theorem Level.stop {k : Nat} {near : List String} {x : Expanded} (h : Level links seeds k near [] x)
    (m : Nat) : Level links seeds (k + m) near [] x := by
  have hnone : ∀ v, ¬ IsDistance links seeds v k :=
    fun v hv => List.not_mem_nil ((h.mem_last v).mpr hv)
  refine ⟨h.nodes, h.nodup, fun v => ?_, fun v => ?_, h.sorted, h.seeds_eq, h.seeds_first, h.steps⟩
  · rw [h.mem_near]
    constructor
    · rintro ⟨n, hn, hv⟩
      exact ⟨n, by omega, hv⟩
    · rintro ⟨n, hn, hv⟩
      rcases Nat.lt_or_ge n k with hlt | hge
      · exact ⟨n, hlt, hv⟩
      · exact absurd hv (not_isDistance_of_le hnone hge)
  · constructor
    · exact fun hv => absurd hv List.not_mem_nil
    · exact fun hv => absurd hv (not_isDistance_of_le hnone (Nat.le_add_right k m))

theorem Level.rounds (touching : ∀ v, ∀ d ∈ links v, d.touches v = true) (hops : Nat) {k : Nat}
    {near ids : List String} {x : Expanded} (h : Level links seeds k near ids x) :
    ∃ y near' ids', rounds (fun v => .ok (links v)) hops x ids = .ok y ∧
      Level links seeds (k + hops) near' ids' y := by
  induction hops generalizing k near ids x with
  | zero => exact ⟨x, near, ids, rfl, h⟩
  | succ hops ih =>
    cases ids with
    | nil => exact ⟨x, near, [], rfl, h.stop (hops + 1)⟩
    | cons id rest =>
      obtain ⟨y, he, hl⟩ := h.round touching
      obtain ⟨z, near', ids', hr, hz⟩ := ih hl
      refine ⟨z, near', ids', ?_, ?_⟩
      · rw [Expanded.rounds, he]
        · exact hr
        · exact nofun
      · rw [show k + (hops + 1) = k + 1 + hops by omega]
        exact hz

end Rounds

/-- A step along a dependency of a node that is less than so many steps from the seeds. -/
def Followed (links : String → List Dependency) (seeds : List String) (hops : Nat) (s : Step) :
    Prop :=
  ∃ v n, n < hops ∧ IsDistance links seeds v n ∧ ∃ d ∈ links v, stepOf d = s

/-- What a breadth-first search over so many steps finds. -/
structure BreadthFirst (links : String → List Dependency) (seeds : List String) (hops : Nat)
    (x : Expanded) : Prop where
  nodup : x.nodes.Nodup
  mem_nodes : ∀ v, v ∈ x.nodes ↔ ∃ n, n ≤ hops ∧ IsDistance links seeds v n
  sorted : x.nodes.Pairwise fun u v =>
    ∀ m n, IsDistance links seeds u m → IsDistance links seeds v n → m ≤ n
  seeds_eq : x.seeds = seeds.eraseDups
  seeds_first : x.seeds <+: x.nodes
  alone : hops = 0 → x.nodes = x.seeds ∧ x.steps = []
  distinct_ends : (x.steps.map Step.ends).Nodup
  covered : ∀ t, Followed links seeds hops t → ∃ s ∈ x.steps, s.ends = t.ends
  mem_steps : ∀ s, s ∈ x.steps ↔ Followed links seeds hops s ∧
    ∀ t, Followed links seeds hops t → t.ends = s.ends →
    t.relationship.tenths ≤ s.relationship.tenths

section Rounds

variable {links : String → List Dependency} {seeds : List String}

theorem Level.mem_stepsFrom {k : Nat} {near ids : List String} {x : Expanded}
    (h : Level links seeds k near ids x) (s : Step) :
    s ∈ stepsFrom links near ↔ Followed links seeds k s := by
  simp only [stepsFrom, List.mem_flatMap, List.mem_map, h.mem_near, Followed]
  constructor
  · rintro ⟨v, ⟨n, hn, hv⟩, d, hd, he⟩
    exact ⟨v, n, hn, hv, d, hd, he⟩
  · rintro ⟨v, n, hn, hv, d, hd, he⟩
    exact ⟨v, ⟨n, hn, hv⟩, d, hd, he⟩

/-- Expansion is breadth-first search, for every store whose answers for a node touch the node. -/
theorem expand_breadthFirst (touching : ∀ v, ∀ d ∈ links v, d.touches v = true)
    (seeds : List String) (hops : Nat) :
    ∃ x, expand (fun v => .ok (links v)) seeds hops = .ok x ∧ BreadthFirst links seeds hops x := by
  have hstart : Level links seeds 0 [] (ofSeeds seeds).nodes (ofSeeds seeds) := level_ofSeeds
  obtain ⟨x, near, ids, he, h⟩ := hstart.rounds touching hops
  rw [Nat.zero_add] at h
  refine ⟨x, he, ?_⟩
  constructor
  · exact h.nodup
  · exact h.mem_nodes
  · rw [h.nodes]
    exact h.sorted_nodes
  · exact h.seeds_eq
  · exact h.seeds_first
  · rintro rfl
    obtain rfl := Except.ok.inj he
    exact ⟨rfl, rfl⟩
  · exact h.steps.distinct
  · intro t ht
    exact h.steps.covered t ((h.mem_stepsFrom t).mpr ht)
  · intro s
    rw [h.steps.mem_iff]
    simp only [h.mem_stepsFrom]

end Rounds

/-- Three nodes in a ring, two of them joined by a lighter and a heavier dependency. -/
def ring : List Dependency :=
  let join (source target : String) (relationship : Relationship) : Dependency :=
    { source, target, relationship, strength := 1.0, direct := true, required := true }
  [join "a" "b" .calls, join "b" "c" .uses, join "a" "b" .inherits, join "c" "a" .imports]

theorem expand_breadthFirst_ring :
    (∀ v, ∀ d ∈ ring.filter (fun d => d.touches v), d.touches v = true) ∧
      ∃ x, expand (fun v => .ok (ring.filter fun d => d.touches v)) ["a", "a"] 2 = .ok x ∧
        BreadthFirst (fun v => ring.filter fun d => d.touches v) ["a", "a"] 2 x := by
  have touching : ∀ v, ∀ d ∈ ring.filter (fun d => d.touches v), d.touches v = true :=
    fun v d hd => (List.mem_filter.mp hd).2
  exact ⟨touching, expand_breadthFirst touching ["a", "a"] 2⟩

end CodeAtlas.Retrieval
