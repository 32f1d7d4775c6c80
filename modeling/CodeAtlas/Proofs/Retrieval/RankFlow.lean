import Mathlib.Algebra.BigOperators.Field
import Mathlib.Algebra.BigOperators.Ring.Finset
import Mathlib.Algebra.Order.BigOperators.Ring.Finset
import Mathlib.Algebra.Order.Ring.Rat
import Mathlib.Tactic.Linarith
import Mathlib.Tactic.Ring
import CodeAtlas.Proofs.Retrieval.Positions

/-!
How PageRank moves rank, in exact arithmetic. A round sends the rank of a node on in parts that add
up to the whole, by weight along its steps or evenly where it has none. What arrives is therefore
what was there: the ranks sum to one after any number of rounds, and no node has less than what
every node gets without a step.
-/

namespace CodeAtlas.Retrieval

namespace PageRank

section Lists

variable {n : Nat}

theorem total_eq_sum (xs : List ℚ) : total xs = xs.sum :=
  List.sum_eq_foldl.symm

theorem sum_map_range (n : Nat) (g : Nat → ℚ) :
    ((List.range n).map g).sum = ∑ v ∈ Finset.range n, g v :=
  rfl

/-- Ranks are those at their positions. -/
theorem map_rankAt {ranks : List ℚ} (h : ranks.length = n) :
    (List.range n).map (rankAt ranks) = ranks := by
  apply List.ext_getElem?
  intro v
  by_cases hv : v < n
  · simp [rankAt, hv, h]
  · simp [hv, h]

theorem sum_eq {ranks : List ℚ} (h : ranks.length = n) :
    ranks.sum = ∑ v ∈ Finset.range n, rankAt ranks v := by
  rw [← sum_map_range, map_rankAt h]

theorem rankAt_map_range (g : Nat → ℚ) {v : Nat} (hv : v < n) :
    rankAt ((List.range n).map g) v = g v := by
  simp [rankAt, hv]

/-- A sum over steps, by the node that a step has under a key. -/
theorem sum_by_key (key : Flow ℚ → Nat) (g : Flow ℚ → ℚ) {flows : List (Flow ℚ)}
    (h : ∀ f ∈ flows, key f < n) :
    ∑ v ∈ Finset.range n, ((flows.filter fun f => key f == v).map g).sum = (flows.map g).sum := by
  induction flows with
  | nil => simp
  | cons f rest ih =>
    have hf : ∀ v, (((f :: rest).filter fun f => key f == v).map g).sum =
        (if key f = v then g f else 0) + ((rest.filter fun f => key f == v).map g).sum := by
      intro v
      by_cases hv : key f = v
      · rw [List.filter_cons_of_pos (by simpa using hv), List.map_cons, List.sum_cons, if_pos hv]
      · rw [List.filter_cons_of_neg (by simpa using hv), if_neg hv, zero_add]
    have hkey : key f ∈ Finset.range n := Finset.mem_range.mpr (h f List.mem_cons_self)
    simp only [hf, Finset.sum_add_distrib, Finset.sum_ite_eq, if_pos hkey,
      ih fun f hf => h f (List.mem_cons_of_mem _ hf), List.map_cons, List.sum_cons]

end Lists

/-- Steps of positive weights between the positions of so many nodes. -/
structure Weighted (n : Nat) (flows : List (Flow ℚ)) : Prop where
  source_lt : ∀ f ∈ flows, f.source < n
  target_lt : ∀ f ∈ flows, f.target < n
  weight_pos : ∀ f ∈ flows, 0 < f.weight

/-- The part of the rank of a node that a round sends to another when all rank flows. -/
def part (n : Nat) (flows : List (Flow ℚ)) (s v : Nat) : ℚ :=
  if outWeight flows s = 0 then 1 / n
  else (((flows.filter fun f => f.source == s).filter fun f => f.target == v).map Flow.weight).sum /
    outWeight flows s

section Parts

variable {n : Nat} {flows : List (Flow ℚ)}

theorem outWeight_eq (flows : List (Flow ℚ)) (s : Nat) :
    outWeight flows s = ((flows.filter fun f => f.source == s).map Flow.weight).sum := by
  rw [outWeight, total_eq_sum, List.map_reverse, List.sum_reverse]

theorem Weighted.filter (h : Weighted n flows) (p : Flow ℚ → Bool) :
    Weighted n (flows.filter p) where
  source_lt f hf := h.source_lt f (List.mem_of_mem_filter hf)
  target_lt f hf := h.target_lt f (List.mem_of_mem_filter hf)
  weight_pos f hf := h.weight_pos f (List.mem_of_mem_filter hf)

theorem Weighted.sum_nonneg (h : Weighted n flows) : 0 ≤ (flows.map Flow.weight).sum := by
  apply List.sum_nonneg
  intro w hw
  obtain ⟨f, hf, rfl⟩ := List.mem_map.mp hw
  exact (h.weight_pos f hf).le

theorem Weighted.outWeight_nonneg (h : Weighted n flows) (s : Nat) : 0 ≤ outWeight flows s := by
  rw [outWeight_eq]
  exact (h.filter _).sum_nonneg

/-- A node that a step leaves has a positive weight of steps. -/
theorem Weighted.outWeight_pos (h : Weighted n flows) {f : Flow ℚ} (hf : f ∈ flows) :
    0 < outWeight flows f.source := by
  rw [outWeight_eq]
  have hm : f.weight ∈ (flows.filter fun g => g.source == f.source).map Flow.weight :=
    List.mem_map_of_mem (List.mem_filter.mpr ⟨hf, by simp⟩)
  have hnonneg : ∀ w ∈ (flows.filter fun g => g.source == f.source).map Flow.weight, 0 ≤ w := by
    intro w hw
    obtain ⟨g, hg, rfl⟩ := List.mem_map.mp hw
    exact ((h.filter _).weight_pos g hg).le
  exact (h.weight_pos f hf).trans_le (List.single_le_sum hnonneg _ hm)

theorem Weighted.part_nonneg (h : Weighted n flows) (s v : Nat) : 0 ≤ part n flows s v := by
  unfold part
  split
  · exact one_div_nonneg.mpr n.cast_nonneg
  · exact div_nonneg ((h.filter _).filter _).sum_nonneg (h.outWeight_nonneg s)

/-- The parts of the rank of a node are the whole of it. -/
theorem Weighted.sum_part (h : Weighted n flows) (hn : 0 < n) (s : Nat) :
    ∑ v ∈ Finset.range n, part n flows s v = 1 := by
  unfold part
  split
  · have hne : (n : ℚ) ≠ 0 := by exact_mod_cast hn.ne'
    rw [Finset.sum_const, Finset.card_range, nsmul_eq_mul, mul_one_div_cancel hne]
  · rename_i hs
    rw [← Finset.sum_div, sum_by_key Flow.target _ (h.filter _).target_lt, ← outWeight_eq,
      div_self hs]

theorem dangling_eq {ranks : List ℚ} (hr : ranks.length = n) :
    dangling (outWeights n flows) ranks =
      ∑ s ∈ Finset.range n, if outWeight flows s = 0 then rankAt ranks s else 0 := by
  have hzip : (outWeights n flows).zip ranks = (List.range n).map fun s =>
      (outWeight flows s, rankAt ranks s) := by
    conv_lhs => rw [← map_rankAt hr]
    exact List.zip_map'
  rw [dangling, total_eq_sum, hzip, ← sum_map_range]
  induction List.range n with
  | nil => rfl
  | cons s rest ih =>
    rw [List.map_cons, List.map_cons, List.sum_cons, ← ih]
    by_cases hs : outWeight flows s = 0
    · rw [List.filter_cons_of_pos (by simpa using hs), List.map_cons, List.sum_cons, if_pos hs]
    · rw [List.filter_cons_of_neg (by simpa using hs), if_neg hs, zero_add]

theorem foldl_add (g : Flow ℚ → ℚ) (start : ℚ) (fs : List (Flow ℚ)) :
    fs.foldl (fun rank f => rank + g f) start = start + (fs.map g).sum := by
  induction fs generalizing start with
  | nil => rw [List.foldl_nil, List.map_nil, List.sum_nil, add_zero]
  | cons f rest ih => rw [List.foldl_cons, ih, List.map_cons, List.sum_cons, add_assoc]

/-- What flows from one node to another is the share that their steps have in the weight of all
steps. -/
theorem sum_between (d : ℚ) (rank : Nat → ℚ) (s v : Nat) :
    (((flows.filter fun f => f.target == v).filter fun f => f.source == s).map fun f =>
        d * rank f.source * f.weight / outWeight flows f.source).sum =
      d * rank s * (((flows.filter fun f => f.source == s).filter fun f => f.target == v).map
        Flow.weight).sum / outWeight flows s := by
  rw [List.filter_comm, mul_div_right_comm, ← List.sum_map_mul_left]
  congr 1
  apply List.map_congr_left
  intro f hf
  have hs : f.source = s := by simpa using (List.mem_filter.mp (List.mem_of_mem_filter hf)).2
  rw [hs]
  ring

/-- What a round gives a node: the part that every node gets, and what flows to it. -/
theorem Weighted.gained_eq (h : Weighted n flows) (d : ℚ) {ranks : List ℚ} (hr : ranks.length = n)
    (v : Nat) : gained d flows (outWeights n flows) ranks v =
      (1 - d) / n + d * ∑ s ∈ Finset.range n, rankAt ranks s * part n flows s v := by
  have hflows : ((flows.filter fun f => f.target == v).map fun f =>
      d * rankAt ranks f.source * f.weight / rankAt (outWeights n flows) f.source) =
        (flows.filter fun f => f.target == v).map fun f =>
          d * rankAt ranks f.source * f.weight / outWeight flows f.source := by
    apply List.map_congr_left
    intro f hf
    rw [outWeights, rankAt_map_range _ (h.source_lt f (List.mem_of_mem_filter hf))]
  have hpart : ∀ s, d * rankAt ranks s * part n flows s v =
      d * (if outWeight flows s = 0 then rankAt ranks s else 0) * (1 / n) +
        d * rankAt ranks s *
          (((flows.filter fun f => f.source == s).filter fun f => f.target == v).map
          Flow.weight).sum / outWeight flows s := by
    intro s
    unfold part
    split
    · rename_i hs
      rw [hs, div_zero, add_zero]
    · ring
  calc gained d flows (outWeights n flows) ranks v
      = base d (outWeights n flows) ranks + ∑ s ∈ Finset.range n,
          d * rankAt ranks s *
            (((flows.filter fun f => f.source == s).filter fun f => f.target == v).map
            Flow.weight).sum / outWeight flows s := by
        rw [gained, foldl_add, hflows, ← sum_by_key Flow.source _ (h.filter _).source_lt]
        simp only [sum_between]
    _ = (1 - d) / n + ∑ s ∈ Finset.range n, d * rankAt ranks s * part n flows s v := by
        rw [base, dangling_eq hr, hr]
        simp only [hpart, Finset.sum_add_distrib, ← Finset.sum_mul, ← Finset.mul_sum]
        push_cast
        ring
    _ = (1 - d) / n + d * ∑ s ∈ Finset.range n, rankAt ranks s * part n flows s v := by
        simp only [Finset.mul_sum, mul_assoc]

/-- A round is linear but for the part that every node gets. -/
theorem Weighted.next_eq (h : Weighted n flows) (d : ℚ) {ranks : List ℚ} (hr : ranks.length = n) :
    next d flows (outWeights n flows) ranks =
      (List.range n).map fun v => (1 - d) / n + d * ∑ s ∈ Finset.range n,
          rankAt ranks s * part n flows s v := by
  unfold next
  rw [hr]
  exact List.map_congr_left fun v _ => h.gained_eq d hr v

theorem Weighted.sum_next (h : Weighted n flows) (hn : 0 < n) (d : ℚ) {ranks : List ℚ}
    (hr : ranks.length = n) :
    (next d flows (outWeights n flows) ranks).sum = (1 - d) + d * ranks.sum := by
  have hne : (n : ℚ) ≠ 0 := by exact_mod_cast hn.ne'
  have hswap : ∑ v ∈ Finset.range n, ∑ s ∈ Finset.range n, rankAt ranks s * part n flows s v =
      ranks.sum := by
    rw [Finset.sum_comm]
    simp only [← Finset.mul_sum, h.sum_part hn, mul_one]
    exact (sum_eq hr).symm
  rw [h.next_eq d hr, sum_map_range, Finset.sum_add_distrib, ← Finset.mul_sum, hswap,
    Finset.sum_const, Finset.card_range, nsmul_eq_mul, mul_div_cancel₀ _ hne]

end Parts

section Rounds

variable {n : Nat} {flows : List (Flow ℚ)} {d : ℚ}

/-- One round over the ranks of so many nodes. -/
def round (n : Nat) (flows : List (Flow ℚ)) (d : ℚ) : List ℚ → List ℚ :=
  next d flows (outWeights n flows)

theorem ranks_eq (n : Nat) (flows : List (Flow ℚ)) (d : ℚ) (rounds : Nat) (tolerance : ℚ) :
    ranks n flows d rounds tolerance = settle (round n flows d) tolerance rounds (uniform n) :=
  rfl

theorem length_round {ranks : List ℚ} (hr : ranks.length = n) :
    (round n flows d ranks).length = n := by
  rw [round, next, List.length_map, List.length_range, hr]

/-- What every round keeps holds when the ranks are settled. -/
theorem settle_induct {P : List ℚ → Prop} {step : List ℚ → List ℚ}
    (hstep : ∀ ranks, P ranks → P (step ranks)) (tolerance : ℚ) (rounds : Nat) {ranks : List ℚ}
    (h : P ranks) : P (settle step tolerance rounds ranks) := by
  induction rounds generalizing ranks with
  | zero => exact h
  | succ rounds ih =>
    rw [settle]
    split
    · exact hstep ranks h
    · exact ih (hstep ranks h)

/-- Ranks of so many nodes that sum to one, with what each of them has at least. -/
structure Distributed (n : Nat) (least : ℚ) (ranks : List ℚ) : Prop where
  length : ranks.length = n
  sum : ranks.sum = 1
  least_le : ∀ r ∈ ranks, least ≤ r

theorem distributed_uniform (hn : 0 < n) (h0 : 0 < d) :
    Distributed n ((1 - d) / n) (uniform n) where
  length := List.length_replicate
  sum := by
    have hne : (n : ℚ) ≠ 0 := by exact_mod_cast hn.ne'
    rw [uniform, List.sum_replicate, nsmul_eq_mul, Nat.cast_one, mul_one_div_cancel hne]
  least_le r hr := by
    obtain rfl := List.eq_of_mem_replicate hr
    push_cast
    gcongr
    linarith

theorem Distributed.rankAt_nonneg {ranks : List ℚ} (h1 : d < 1)
    (hr : Distributed n ((1 - d) / n) ranks) (s : Nat) : 0 ≤ rankAt ranks s := by
  have hleast : 0 ≤ (1 - d) / n := div_nonneg (by linarith) n.cast_nonneg
  unfold rankAt
  cases hs : ranks[s]? with
  | none => exact Nat.cast_nonneg 0
  | some r => exact hleast.trans (hr.least_le r (List.mem_of_getElem? hs))

/-- A round keeps the sum, and gives every node what it gets without a step. -/
theorem Distributed.round (h : Weighted n flows) (hn : 0 < n) (h0 : 0 < d) (h1 : d < 1)
    {ranks : List ℚ} (hr : Distributed n ((1 - d) / n) ranks) :
    Distributed n ((1 - d) / n) (round n flows d ranks) where
  length := length_round hr.length
  sum := by
    rw [PageRank.round, h.sum_next hn d hr.length, hr.sum]
    ring
  least_le r hm := by
    rw [PageRank.round, h.next_eq d hr.length] at hm
    obtain ⟨v, -, rfl⟩ := List.mem_map.mp hm
    have hflow : 0 ≤ ∑ s ∈ Finset.range n, rankAt ranks s * part n flows s v :=
      Finset.sum_nonneg fun s _ => mul_nonneg (hr.rankAt_nonneg h1 s) (h.part_nonneg s v)
    linarith [mul_nonneg h0.le hflow]

theorem distributed_ranks (h : Weighted n flows) (hn : 0 < n) (h0 : 0 < d) (h1 : d < 1)
    (rounds : Nat) (tolerance : ℚ) :
    Distributed n ((1 - d) / n) (ranks n flows d rounds tolerance) := by
  rw [ranks_eq]
  exact settle_induct (fun _ hr => hr.round h hn h0 h1) tolerance rounds (distributed_uniform hn h0)

end Rounds

end PageRank

section Ranks

theorem weight_eq_tenths (r : Relationship) : (r.weight : ℚ) = r.tenths / 10 := by
  show Rat.ofScientific r.tenths true 1 = _
  rw [Rat.ofScientific_true_def, Rat.mkRat_eq_div]
  norm_num

theorem weight_pos (r : Relationship) : (0 : ℚ) < r.weight := by
  have htenths : 0 < r.tenths := by cases r <;> decide
  rw [weight_eq_tenths]
  exact div_pos (Nat.cast_pos.mpr htenths) (by norm_num)

theorem weighted_flows (x : Expanded) : PageRank.Weighted x.nodes.length x.flows where
  source_lt f hf := by
    obtain ⟨s, -, hsource, -, -⟩ := mem_flows.mp hf
    exact lt_of_idxOf? hsource
  target_lt f hf := by
    obtain ⟨s, -, -, htarget, -⟩ := mem_flows.mp hf
    exact lt_of_idxOf? htarget
  weight_pos f hf := by
    obtain ⟨s, -, -, -, hw⟩ := mem_flows.mp hf
    rw [hw]
    exact weight_pos s.relationship

/--
The ranks of an expansion are one for each node and sum to one, and every node has what it gets
without a step, whatever the steps are and after any number of rounds. Every step starts at a node
with a positive weight of steps, which is what the rank that flows along it is divided by.
-/
theorem ranks_distributed (x : Expanded) (hx : x.nodes ≠ []) {d : ℚ} (h0 : 0 < d) (h1 : d < 1)
    (rounds : Nat) (tolerance : ℚ) :
    (x.ranks d rounds tolerance).length = x.nodes.length ∧
      (x.ranks d rounds tolerance).sum = 1 ∧
      (∀ r ∈ x.ranks d rounds tolerance, (1 - d) / x.nodes.length ≤ r) ∧
      ∀ f ∈ (x.flows : List (Flow ℚ)),
        0 < PageRank.rankAt (PageRank.outWeights x.nodes.length (x.flows : List (Flow ℚ)))
            f.source := by
  have hn : 0 < x.nodes.length := List.length_pos_iff.mpr hx
  have hflows := weighted_flows x
  obtain ⟨hlength, hsum, hleast⟩ := PageRank.distributed_ranks hflows hn h0 h1 rounds tolerance
  refine ⟨hlength, hsum, hleast, fun f hf => ?_⟩
  rw [PageRank.outWeights, PageRank.rankAt_map_range _ (hflows.source_lt f hf)]
  exact hflows.outWeight_pos hf

/-- A node that leads to itself and to another, from which a step leads to a node without steps. -/
def selfCaller : Expanded where
  nodes := ["loop", "helper", "leaf"]
  seeds := ["loop"]
  steps := [⟨"loop", "loop", .calls⟩, ⟨"loop", "helper", .contains⟩, ⟨"helper", "leaf", .uses⟩]

theorem ranks_distributed_selfCaller :
    selfCaller.nodes ≠ [] ∧ (0 : ℚ) < 17 / 20 ∧ (17 / 20 : ℚ) < 1 ∧
      (selfCaller.ranks (17 / 20 : ℚ) 100 (1 / 1000000)).sum = 1 := by
  have hnodes : selfCaller.nodes ≠ [] := List.cons_ne_nil _ _
  have h0 : (0 : ℚ) < 17 / 20 := by norm_num
  have h1 : (17 / 20 : ℚ) < 1 := by norm_num
  exact ⟨hnodes, h0, h1, (ranks_distributed selfCaller hnodes h0 h1 100 (1 / 1000000)).2.1⟩

end Ranks

end CodeAtlas.Retrieval
