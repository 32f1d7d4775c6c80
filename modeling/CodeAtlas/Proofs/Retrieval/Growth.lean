import CodeAtlas.Proofs.Retrieval.Expansion

/-!
Expansion by a store that may fail. What holds of the seeds and stays whenever a dependency is
followed holds of what is met in the end. The nodes stay distinct, and a node is met only along a
step, so that without steps there is nothing but the seeds.
-/

namespace CodeAtlas.Retrieval

open Expanded

section Run

variable {P : Expanded → Prop} {neighbors : String → Except Failure (List Dependency)}
  {x y : Expanded}

/-- Whether a property stays when a dependency is followed that is answered for a node met
before. -/
def Keeps (neighbors : String → Except Failure (List Dependency)) (P : Expanded → Prop) : Prop :=
  ∀ x id ds, id ∈ x.nodes → neighbors id = .ok ds → ∀ d ∈ ds, P x → P (follow id x d)

theorem subset_follow (id : String) (x : Expanded) (d : Dependency) :
    x.nodes ⊆ (follow id x d).nodes := by
  obtain ⟨new, he, -, -⟩ := meet_eq x.nodes (otherEnd id d)
  have hsub : x.nodes ⊆ meet x.nodes (otherEnd id d) := he ▸ List.subset_append_left x.nodes new
  unfold follow
  dsimp only
  split
  · exact hsub
  · exact hsub

theorem Keeps.foldl_follow (h : Keeps neighbors P) {id : String} {answer ds : List Dependency}
    (hn : neighbors id = .ok answer) (hds : ds ⊆ answer) (hid : id ∈ x.nodes) (hx : P x) :
    P (ds.foldl (follow id) x) ∧ x.nodes ⊆ (ds.foldl (follow id) x).nodes := by
  induction ds generalizing x with
  | nil => exact ⟨hx, List.Subset.refl _⟩
  | cons d rest ih =>
    have hsub := subset_follow id x d
    obtain ⟨hy, hrest⟩ := ih (fun e he => hds (List.mem_cons_of_mem d he)) (hsub hid)
      (h x id answer hid hn d (hds List.mem_cons_self) hx)
    exact ⟨hy, fun v hv => hrest (hsub hv)⟩

theorem Keeps.round (h : Keeps neighbors P) {ids : List String} (hids : ids ⊆ x.nodes) (hx : P x)
    (hy : x.round neighbors ids = .ok y) : P y ∧ x.nodes ⊆ y.nodes := by
  induction ids generalizing x with
  | nil =>
    obtain rfl := Except.ok.inj hy
    exact ⟨hx, List.Subset.refl _⟩
  | cons id rest ih =>
    rw [Expanded.round, List.foldlM_cons] at hy
    cases hn : neighbors id with
    | error e =>
      rw [hn] at hy
      exact absurd hy nofun
    | ok ds =>
      rw [hn] at hy
      obtain ⟨hz, hsub⟩ := h.foldl_follow hn (List.Subset.refl ds) (hids List.mem_cons_self) hx
      obtain ⟨hp, hrest⟩ := ih (fun v hv => hsub (hids (List.mem_cons_of_mem id hv))) hz hy
      exact ⟨hp, fun v hv => hrest (hsub hv)⟩

theorem Keeps.rounds (h : Keeps neighbors P) (hops : Nat) {ids : List String} (hids : ids ⊆ x.nodes)
    (hx : P x) (hy : rounds neighbors hops x ids = .ok y) : P y := by
  induction hops generalizing x ids with
  | zero =>
    obtain rfl := Except.ok.inj hy
    exact hx
  | succ hops ih =>
    cases ids with
    | nil =>
      obtain rfl := Except.ok.inj hy
      exact hx
    | cons id rest =>
      rw [Expanded.rounds] at hy
      · cases hr : x.round neighbors (id :: rest) with
        | error e =>
          rw [hr] at hy
          cases hy
        | ok z =>
          rw [hr] at hy
          exact ih (fun v hv => List.mem_of_mem_drop hv) (h.round hids hx hr).1 hy
      · exact List.cons_ne_nil id rest

/-- What holds of the seeds and is kept at each dependency holds of a whole expansion. -/
theorem Keeps.expand (h : Keeps neighbors P) {seeds : List String} {hops : Nat}
    (hseeds : P (ofSeeds seeds)) (hx : expand neighbors seeds hops = .ok x) : P x :=
  h.rounds hops (List.Subset.refl _) hseeds hx

end Run

section Growth

variable {seeds : List String} {x y : Expanded}

theorem eraseDups_eq_self {ids : List String} (hn : ids.Nodup) : ids.eraseDups = ids := by
  induction ids with
  | nil => rfl
  | cons id rest ih =>
    obtain ⟨hid, hrest⟩ := List.nodup_cons.mp hn
    have hfilter : rest.filter (fun i => !i == id) = rest := by
      apply List.filter_eq_self.mpr
      intro i hi
      have hne : i ≠ id := fun he => hid (he ▸ hi)
      simpa using hne
    rw [List.eraseDups_cons, hfilter, ih hrest]

/-- What an expansion has met at any moment: as long as there is no step, nothing but the seeds. -/
structure Grown (seeds : List String) (x : Expanded) : Prop where
  nodup : x.nodes.Nodup
  seeds_eq : x.seeds = seeds.eraseDups
  alone : x.steps = [] → x.nodes = seeds.eraseDups

theorem grown_ofSeeds (seeds : List String) : Grown seeds (ofSeeds seeds) where
  nodup := nodup_eraseDups seeds
  seeds_eq := rfl
  alone _ := rfl

theorem addStep_ne_nil (s : Step) (steps : List Step) : addStep s steps ≠ [] := by
  cases steps with
  | nil => exact List.cons_ne_nil _ _
  | cons t rest =>
    rw [addStep]
    split
    · exact List.cons_ne_nil _ _
    · exact List.cons_ne_nil _ _

theorem Grown.follow (h : Grown seeds x) {id : String} {d : Dependency} (hd : d.touches id = true)
    (hid : id ∈ x.nodes) : Grown seeds (follow id x d) := by
  rw [follow_eq hd hid]
  exact ⟨nodup_meet h.nodup _, h.seeds_eq, fun hs => absurd hs (addStep_ne_nil _ _)⟩

variable {neighbors : String → Except Failure (List Dependency)}

/-- Whether all dependencies that are answered for an id start or end there. -/
def Touching (neighbors : String → Except Failure (List Dependency)) : Prop :=
  ∀ id ds, neighbors id = .ok ds → ∀ d ∈ ds, d.touches id = true

theorem grown_expand (ht : Touching neighbors) {hops : Nat}
    (hx : expand neighbors seeds hops = .ok x) : Grown seeds x := by
  have hkept : Keeps neighbors (Grown seeds) :=
    fun x id ds hid hds d hd h => h.follow (ht id ds hds d hd) hid
  exact hkept.expand (grown_ofSeeds seeds) hx

theorem rounds_nil (hops : Nat) (x : Expanded) : rounds neighbors hops x [] = .ok x := by
  cases hops with
  | zero => rfl
  | succ hops => rfl

/-- Nothing more is met after a round in which nothing was met. -/
theorem rounds_still (hops : Nat) {ids : List String} (hx : x.round neighbors ids = .ok x) :
    rounds neighbors hops x ids = .ok x := by
  cases hops with
  | zero => rfl
  | succ hops =>
    cases ids with
    | nil => rfl
    | cons id rest =>
      rw [rounds, hx]
      · show rounds neighbors hops x (x.nodes.drop x.nodes.length) = _
        rw [List.drop_length, rounds_nil]
      · exact List.cons_ne_nil id rest

theorem round_still {ids : List String} (hids : ∀ id ∈ ids, neighbors id = .ok []) (x : Expanded) :
    x.round neighbors ids = .ok x := by
  induction ids with
  | nil => rfl
  | cons id rest ih =>
    rw [Expanded.round, List.foldlM_cons, hids id List.mem_cons_self]
    exact ih fun v hv => hids v (List.mem_cons_of_mem id hv)

/-- Without a round, and when nothing is answered for the seeds, nothing is met but the seeds. -/
theorem expand_alone {hops : Nat} (h : hops = 0 ∨ ∀ id ∈ seeds, neighbors id = .ok []) :
    expand neighbors seeds hops = .ok (ofSeeds seeds) := by
  rcases h with rfl | h
  · rfl
  · apply rounds_still
    apply round_still
    exact fun id hid => h id (List.mem_eraseDups.mp hid)

end Growth

end CodeAtlas.Retrieval
