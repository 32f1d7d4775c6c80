import CodeAtlas.Proofs.Retrieval.Expansion

/-!
Expansion with a queue. The nodes that are met wait with their distances from the seeds, and the
first in the queue is followed until none is left. This comes to the same as to go by rounds, also
when the store fails on the way.
-/

namespace CodeAtlas.Retrieval

open Expanded

/-- What comes of a queue of nodes with their distances; those that are met on the way are put at
its end. -/
inductive Drains (neighbors : String → Except Failure (List Dependency)) (hops : Nat) :
    Expanded → List (String × Nat) → Except Failure Expanded → Prop where
  | empty (x : Expanded) : Drains neighbors hops x [] (.ok x)
  | far {x : Expanded} {id : String} {depth : Nat} {rest : List (String × Nat)}
      {r : Except Failure Expanded} :
      hops ≤ depth → Drains neighbors hops x rest r →
        Drains neighbors hops x ((id, depth) :: rest) r
  | failed {x : Expanded} {id : String} {depth : Nat} {rest : List (String × Nat)} {e : Failure} :
      depth < hops → neighbors id = .error e →
      Drains neighbors hops x ((id, depth) :: rest) (.error e)
  | followed {x y : Expanded} {id : String} {depth : Nat} {rest : List (String × Nat)}
      {ds : List Dependency} {r : Except Failure Expanded} :
      depth < hops → neighbors id = .ok ds → ds.foldl (follow id) x = y →
      Drains neighbors hops y (rest ++ (y.nodes.drop x.nodes.length).map (·, depth + 1)) r →
      Drains neighbors hops x ((id, depth) :: rest) r

section Queue

variable {neighbors : String → Except Failure (List Dependency)} {hops total depth : Nat}
  {x y : Expanded} {ids : List String} {queue : List (String × Nat)}
  {r r' : Except Failure Expanded}

/-- A queue comes to one end. -/
theorem Drains.unique (h : Drains neighbors hops x queue r)
    (h' : Drains neighbors hops x queue r') : r = r' := by
  induction h with
  | empty x =>
    cases h' with
    | empty => rfl
  | far hfar _ ih =>
    cases h' with
    | far _ h' => exact ih h'
    | failed hnear => omega
    | followed hnear => omega
  | failed hnear he =>
    cases h' with
    | far hfar => omega
    | failed _ he' => exact congrArg Except.error (Except.error.inj (he.symm.trans he'))
    | followed _ hok => exact absurd (he.symm.trans hok) nofun
  | followed hnear hok hy _ ih =>
    cases h' with
    | far hfar => omega
    | failed _ he => exact absurd (he.symm.trans hok) nofun
    | followed _ hok' hy' h' =>
      obtain rfl := Except.ok.inj (hok.symm.trans hok')
      obtain rfl := hy.symm.trans hy'
      exact ih h'

theorem prefix_follow (id : String) (x : Expanded) (d : Dependency) :
    x.nodes <+: (follow id x d).nodes := by
  obtain ⟨new, he, -⟩ := meet_eq x.nodes (otherEnd id d)
  have hnodes : (follow id x d).nodes = meet x.nodes (otherEnd id d) := by
    unfold follow
    dsimp only
    split <;> rfl
  rw [hnodes, he]
  exact List.prefix_append x.nodes new

theorem prefix_foldl_follow (id : String) (ds : List Dependency) (x : Expanded) :
    x.nodes <+: (ds.foldl (follow id) x).nodes := by
  induction ds generalizing x with
  | nil => exact List.prefix_rfl
  | cons d rest ih => exact (prefix_follow id x d).trans (ih (follow id x d))

theorem round_cons_ok {id : String} {ds : List Dependency} (h : neighbors id = .ok ds) :
    x.round neighbors (id :: ids) = (ds.foldl (follow id) x).round neighbors ids := by
  unfold Expanded.round
  rw [List.foldlM_cons, h]
  rfl

theorem round_cons_error {id : String} {e : Failure} (h : neighbors id = .error e) :
    x.round neighbors (id :: ids) = .error e := by
  unfold Expanded.round
  rw [List.foldlM_cons, h]
  rfl

theorem prefix_round (h : x.round neighbors ids = .ok y) : x.nodes <+: y.nodes := by
  induction ids generalizing x with
  | nil =>
    obtain rfl := Except.ok.inj h
    exact List.prefix_rfl
  | cons id rest ih =>
    cases hn : neighbors id with
    | error e => exact absurd ((round_cons_error hn).symm.trans h) nofun
    | ok ds =>
      rw [round_cons_ok hn] at h
      exact (prefix_foldl_follow id ds x).trans (ih h)

/-- The nodes of one distance are followed before those that are met on the way, as in a round. -/
theorem drains_round (later : List String) (hnear : depth < hops)
    (hok : ∀ y, x.round neighbors ids = .ok y →
      Drains neighbors hops y ((later ++ y.nodes.drop x.nodes.length).map (·, depth + 1)) r)
    (herror : ∀ e, x.round neighbors ids = .error e → r = .error e) :
    Drains neighbors hops x (ids.map (·, depth) ++ later.map (·, depth + 1)) r := by
  induction ids generalizing x later with
  | nil => simpa using hok x rfl
  | cons id rest ih =>
    cases hn : neighbors id with
    | error e =>
      obtain rfl := herror e (round_cons_error hn)
      exact .failed hnear hn
    | ok ds =>
      rw [round_cons_ok hn] at hok herror
      rw [List.map_cons, List.cons_append]
      refine .followed hnear hn rfl ?_
      rw [List.append_assoc, ← List.map_append]
      refine ih (later ++ _) (fun y hy => ?_) herror
      obtain ⟨met, hmet⟩ := prefix_foldl_follow id ds x
      obtain ⟨more, hmore⟩ := prefix_round hy
      have hdrop : y.nodes.drop x.nodes.length = met ++ more := by
        rw [← hmore, ← hmet, List.append_assoc, List.drop_left]
      have hall := hok y hy
      rw [hdrop, ← List.append_assoc] at hall
      rwa [← hmore, List.drop_left, ← hmet, List.drop_left]

/-- Nodes at the greatest distance are passed over. -/
theorem drains_far (x : Expanded) (ids : List String) :
    Drains neighbors hops x (ids.map (·, hops)) (.ok x) := by
  induction ids with
  | nil => exact .empty x
  | cons id rest ih => exact .far (Nat.le_refl hops) ih

theorem drains_rounds (h : depth + hops = total) :
    Drains neighbors total x (ids.map (·, depth)) (x.rounds neighbors hops ids) := by
  induction hops generalizing depth x ids with
  | zero =>
    obtain rfl := h
    rw [Expanded.rounds]
    exact drains_far x ids
  | succ hops ih =>
    cases ids with
    | nil => exact .empty x
    | cons id rest =>
      have hnear : depth < total := by omega
      rw [← List.append_nil ((id :: rest).map (·, depth))]
      refine drains_round [] hnear (fun y hy => ?_) fun e he => ?_
      · have hnext : x.rounds neighbors (hops + 1) (id :: rest) =
            y.rounds neighbors hops (y.nodes.drop x.nodes.length) := by
          rw [Expanded.rounds, hy]
          · rfl
          · exact List.cons_ne_nil id rest
        rw [hnext]
        exact ih (by omega)
      · rw [Expanded.rounds, he]
        · rfl
        · exact List.cons_ne_nil id rest

/-- To expand by rounds is to drain the queue of the seeds. -/
theorem drains_iff {seeds : List String} :
    Drains neighbors hops (ofSeeds seeds) ((ofSeeds seeds).nodes.map (·, 0)) r ↔
      r = expand neighbors seeds hops := by
  have hexpand : Drains neighbors hops (ofSeeds seeds) ((ofSeeds seeds).nodes.map (·, 0))
      (expand neighbors seeds hops) := drains_rounds (Nat.zero_add hops)
  constructor
  · exact fun h => h.unique hexpand
  · rintro rfl
    exact hexpand

end Queue

end CodeAtlas.Retrieval
