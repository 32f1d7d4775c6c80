import Mathlib.Data.List.Perm.Subperm
import Mathlib.Data.List.ProdSigma
import CodeAtlas.Graph.Metrics
import CodeAtlas.Proofs.First
import CodeAtlas.Proofs.Float.Magnitude

/-!
How great the measures of a graph can be. No chain of dependencies is longer than there are nodes:
while the graph is traversed, what was found for a node that was left is at most the number of nodes
left so far, and what was found for one that is still visited at most one more. The parts are at
most as many as the nodes, and the coupling and the cohesion are doubles of moderate size.
-/

namespace CodeAtlas.Metrics

open Traversal

section Depth

variable {stack below : Stack} {left v n : Nat} {ws : List Nat} {depths : List Nat}

theorem getD_raise (depths : List Nat) (v n w : Nat) :
    (raise depths v n)[w]?.getD 0 ≤ max (depths[w]?.getD 0) (if v = w then n else 0) := by
  unfold raise
  rw [List.getElem?_modify]
  cases depths[w]? with
  | none => simp
  | some d =>
    by_cases hw : v = w
    · simp [hw]
      omega
    · simp [hw]

/-- Whether depths are as they can be when so many nodes were left and those on a stack are being
visited. -/
structure Reached (stack : Stack) (left : Nat) (depths : List Nat) : Prop where
  visited : ∀ v : Nat, depths[v]?.getD 0 ≤ left + 1
  others : ∀ v : Nat, v ∉ stack.map Prod.fst → depths[v]?.getD 0 ≤ left

theorem Reached.enter (h : Reached stack left depths) : Reached ((v, ws) :: stack) left depths where
  visited := h.visited
  others w hw := h.others w fun hm => hw (List.mem_cons_of_mem _ hm)

theorem Reached.raise (h : Reached stack left depths) (hv : v ∈ stack.map Prod.fst)
    (hn : n ≤ left + 1) : Reached stack left (raise depths v n) where
  visited w := by
    have hraised := getD_raise depths v n w
    have hw := h.visited w
    split at hraised <;> omega
  others w hw := by
    have hraised := getD_raise depths v n w
    have hne : v ≠ w := fun he => hw (he ▸ hv)
    rw [if_neg hne] at hraised
    have hw := h.others w hw
    omega

theorem Reached.leave (h : Reached ((v, ws) :: below) left depths) :
    Reached below (left + 1) (deepen depths (.leave v (below.head?.map Prod.fst))) := by
  have hleft : Reached below (left + 1) depths :=
    ⟨fun w => Nat.le_succ_of_le (h.visited w), fun w _ => h.visited w⟩
  cases below with
  | nil => exact hleft
  | cons f below => exact hleft.raise List.mem_cons_self (Nat.succ_le_succ (h.visited v))

theorem Reached.close {w : Nat} (h : Reached stack left depths) :
    Reached stack left (deepen depths (.close (stack.path.dropWhile (· != w)))) := by
  unfold deepen
  dsimp only
  cases hlast : (stack.path.dropWhile (· != w)).getLast? with
  | none => exact h
  | some u =>
    have hu := (List.dropWhile_sublist _).subset (List.mem_of_getLast? hlast)
    exact h.raise (List.mem_reverse.mp hu) (Nat.le_add_left 1 left)

/-- What is found on the rest of a traversal is bounded by the nodes that were and that will be
left. -/
theorem Reached.run (successors : Nat → List Nat) (fresh : List Nat)
    (h : Reached stack left depths) :
    ∀ u : Nat, ((run successors fresh stack).foldl deepen depths)[u]?.getD 0 ≤
      left + fresh.length + stack.length := by
  fun_induction Traversal.run successors fresh stack generalizing depths left with
  | case1 =>
    intro u
    exact Nat.le_add_right_of_le (Nat.le_add_right_of_le (h.others u List.not_mem_nil))
  | case2 v rest ih =>
    intro u
    have hrest := ih h.enter u
    simp only [List.length_cons, List.length_nil, List.foldl_cons, deepen] at hrest ⊢
    omega
  | case3 fresh v below ih =>
    intro u
    have hrest := ih h.leave u
    simp only [List.length_cons, List.foldl_cons] at hrest ⊢
    omega
  | case4 fresh v w ws below hw ih =>
    intro u
    have hstack : Reached ((v, ws) :: below) left depths := ⟨h.visited, h.others⟩
    have hrest := ih hstack.enter u
    have hpos := List.length_pos_of_mem hw
    simp only [List.length_cons, List.foldl_cons, deepen, List.length_erase_of_mem hw] at hrest ⊢
    omega
  | case5 fresh v w ws below hw path hpath =>
    rename_i ih
    intro u
    have hstack : Reached ((v, ws) :: below) left depths := ⟨h.visited, h.others⟩
    exact ih hstack.close u
  | case6 fresh v w ws below hw path hpath =>
    rename_i ih
    intro u
    have hstack : Reached ((v, ws) :: below) left depths := ⟨h.visited, h.others⟩
    have hleft : depths[w]?.getD 0 ≤ left :=
      hstack.others w fun hm => hpath (List.mem_reverse.mpr hm)
    exact ih (hstack.raise List.mem_cons_self (Nat.succ_le_succ hleft)) u

theorem foldl_max_le {ds : List Nat} (h : ∀ d ∈ ds, d ≤ n) {a : Nat} (ha : a ≤ n) :
    ds.foldl max a ≤ n := by
  induction ds generalizing a with
  | nil => exact ha
  | cons d ds ih =>
    exact ih (fun e he => h e (List.mem_cons_of_mem d he))
      (Nat.max_le.mpr ⟨ha, h d List.mem_cons_self⟩)

/-- No chain of dependencies is longer than there are nodes. -/
theorem dependencyDepth_le (successors : List (List Nat)) :
    dependencyDepth successors ≤ successors.length := by
  have hzero : ∀ v : Nat, (List.replicate successors.length 0)[v]?.getD 0 = 0 := by
    intro v
    rw [List.getElem?_replicate]
    split <;> rfl
  have hstart : Reached [] 0 (List.replicate successors.length 0) :=
    ⟨fun v => by simp [hzero v], fun v _ => by simp [hzero v]⟩
  refine foldl_max_le (fun d hd => ?_) (Nat.zero_le _)
  obtain ⟨u, hu⟩ := List.getElem?_of_mem hd
  have hbound := hstart.run (fun v => successors[v]?.getD []) (List.range successors.length) u
  unfold events at hu
  rw [hu] at hbound
  simpa using hbound

end Depth

section Parts

theorem length_merge (labels : List Nat) (v w : Nat) :
    (merge labels v w).length = labels.length := by
  unfold merge
  split
  · exact List.length_map _
  · rfl

theorem length_partLabels (successors : List (List Nat)) :
    (partLabels successors).length = successors.length := by
  have hfold : ∀ (ss : List (Nat × Nat)) (labels : List Nat),
      (ss.foldl (fun labels s => merge labels s.1 s.2) labels).length = labels.length := by
    intro ss
    induction ss with
    | nil => exact fun _ => rfl
    | cons s ss ih => exact fun labels => (ih _).trans (length_merge labels s.1 s.2)
  unfold partLabels
  rw [hfold, List.length_range]

theorem partCount_pos {successors : List (List Nat)} (h : successors ≠ []) :
    0 < partCount successors := by
  have hlabels : partLabels successors ≠ [] := by
    rw [← List.length_pos_iff, length_partLabels]
    exact List.length_pos_iff.mpr h
  obtain ⟨l, hl⟩ := List.exists_mem_of_ne_nil _ hlabels
  exact List.length_pos_of_mem (List.mem_eraseDups.mpr hl)

theorem partCount_le (successors : List (List Nat)) : partCount successors ≤ successors.length := by
  have hsub : (partLabels successors).eraseDups ⊆ partLabels successors :=
    fun _ => List.mem_eraseDups.mp
  rw [← length_partLabels]
  exact (List.subperm_of_subset (nodup_eraseDups _) hsub).length_le

end Parts

section Shares

open Double

theorem scale_cohesion {successors : List (List Nat)} (h : successors.length < UInt64.size) :
    scale (cohesion successors) < 1076 := by
  unfold cohesion cohesionBy
  split
  · decide +kernel
  · rename_i hne
    have hpos : 0 < partCount successors := partCount_pos (by simpa using hne)
    have hle := partCount_le successors
    have hword : partCount successors < 2 ^ 64 := Nat.lt_of_le_of_lt hle h
    have hlog : (partCount successors).log2 < 64 := (Nat.log2_lt hpos.ne').mpr hword
    have hone := scale_one
    obtain ⟨hs, hs'⟩ := scale_ofNat hpos hword
    obtain ⟨hd, hd'⟩ :=
      scale_div (x := 1.0) (y := Float.ofNat (partCount successors)) (by omega)
        (by omega) (by omega) (by omega) (by omega) (by omega)
    omega

theorem scale_instability {fanIn fanOut : Nat} (h : fanIn + fanOut < UInt64.size) :
    scale (instability fanIn fanOut) < 1076 := by
  unfold instability
  split
  · decide +kernel
  · rename_i hzero
    have hpos : 0 < fanIn + fanOut := Nat.pos_of_ne_zero (by simpa using hzero)
    have hlog : (fanIn + fanOut).log2 < 64 := (Nat.log2_lt hpos.ne').mpr h
    obtain ⟨hs, hs'⟩ := scale_ofNat hpos h
    by_cases hout : fanOut = 0
    · subst hout
      rw [scale_zero_div (by omega) (by omega)]
      decide
    · have hle : fanOut.log2 ≤ (fanIn + fanOut).log2 :=
        (Nat.le_log2 hpos.ne').mpr (le_trans (Nat.log2_self_le hout) (Nat.le_add_left _ _))
      obtain ⟨hx, hx'⟩ :=
        scale_ofNat (Nat.pos_of_ne_zero hout) (Nat.lt_of_le_of_lt (Nat.le_add_left _ _) h)
      obtain ⟨-, hq⟩ :=
        scale_div (x := Float.ofNat fanOut) (y := Float.ofNat (fanIn + fanOut))
          (by omega) (by omega) (by omega) (by omega) (by omega) (by omega)
      omega

/-- With at most seven dependencies between two nodes the coupling of a graph is of moderate
size. -/
theorem scale_coupling {nodes edges : Nat} (hn : nodes < UInt64.size) (he : edges < UInt64.size)
    (h : edges ≤ 7 * (nodes * nodes)) : scale (coupling nodes edges) < 1076 := by
  unfold coupling
  split
  · decide +kernel
  · rename_i htwo
    have hlog : nodes.log2 < 64 := (Nat.log2_lt (by omega)).mpr hn
    have hlog' : 1 ≤ nodes.log2 := (Nat.le_log2 (by omega)).mpr (by omega)
    obtain ⟨hs, hs'⟩ := scale_ofNat (show 0 < nodes by omega) hn
    obtain ⟨hp, hp'⟩ := scale_sub_one (x := Float.ofNat nodes) (by omega) (by omega)
    obtain ⟨hm, hm'⟩ :=
      scale_mul (x := Float.ofNat nodes) (y := Float.ofNat nodes - 1.0) (by omega) (by omega)
        (by omega) (by omega) (by omega) (by omega)
    by_cases hzero : edges = 0
    · subst hzero
      rw [scale_zero_div (by omega) (by omega)]
      decide
    · have hedges : edges.log2 ≤ 2 * nodes.log2 + 4 := by
        rw [← Nat.lt_succ_iff, Nat.log2_lt hzero]
        have hnodes : nodes < 2 ^ (nodes.log2 + 1) := Nat.lt_log2_self
        calc edges ≤ 7 * (nodes * nodes) := h
          _ < 8 * (2 ^ (nodes.log2 + 1) * 2 ^ (nodes.log2 + 1)) := by
            have := Nat.mul_lt_mul'' hnodes hnodes
            omega
          _ = 2 ^ (2 * nodes.log2 + 4).succ := by
            rw [show (2 * nodes.log2 + 4).succ = 3 + ((nodes.log2 + 1) + (nodes.log2 + 1)) by omega,
              Nat.pow_add 2 3, Nat.pow_add 2 (nodes.log2 + 1)]
      have hlogEdges : edges.log2 < 64 := (Nat.log2_lt hzero).mpr he
      obtain ⟨hd, hd'⟩ := scale_ofNat (Nat.pos_of_ne_zero hzero) he
      obtain ⟨hq, hq'⟩ :=
        scale_div (x := Float.ofNat edges) (y := Float.ofNat nodes * (Float.ofNat nodes - 1.0))
          (by omega) (by omega) (by omega) (by omega) (by omega) (by omega)
      omega

end Shares

end CodeAtlas.Metrics

namespace CodeAtlas.Graph

theorem length_successors (g : Graph) : g.successors.length = g.nodes.length := by
  rw [successors, List.length_map, List.length_map]

/-- Between two nodes there is at most one dependency of each kind. -/
theorem length_edges_le {g : Graph} (hkeys : (g.edges.map Dependency.key).Nodup)
    (hends : ∀ e ∈ g.edges, e.source ∈ g.nodes.map Node.id ∧ e.target ∈ g.nodes.map Node.id) :
    g.edges.length ≤ 7 * (g.nodes.length * g.nodes.length) := by
  have hall : ∀ r, r ∈ Relationship.all := by
    intro r
    cases r <;> decide
  have hsub : g.edges.map Dependency.key ⊆
      g.nodes.map Node.id ×ˢ g.nodes.map Node.id ×ˢ Relationship.all := by
    intro k hk
    obtain ⟨e, he, rfl⟩ := List.mem_map.mp hk
    obtain ⟨hs, ht⟩ := hends e he
    exact List.pair_mem_product.mpr ⟨hs, List.pair_mem_product.mpr ⟨ht, hall e.relationship⟩⟩
  have hlength := (List.subperm_of_subset hkeys hsub).length_le
  have hseven : Relationship.all.length = 7 := rfl
  rw [List.length_map, List.length_product, List.length_product, List.length_map, hseven] at hlength
  rwa [Nat.mul_comm 7, Nat.mul_assoc]

end CodeAtlas.Graph
