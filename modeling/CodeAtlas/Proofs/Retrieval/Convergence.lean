import Mathlib.Algebra.Order.BigOperators.Group.Finset
import Mathlib.Algebra.Order.Ring.Abs
import Mathlib.Tactic.FieldSimp
import CodeAtlas.Proofs.Retrieval.RankFlow

/-!
Convergence of PageRank, in exact arithmetic. A round brings any two rankings closer together by the
share of rank that flows, so that the rounds change the ranks by less and less, the tolerance is met
after a number of rounds that can be told beforehand, and the settled ranks are near every ranking
that a round leaves as it is.
-/

namespace CodeAtlas.Retrieval

namespace PageRank

section Distance

variable {n : Nat} {xs ys zs : List ℚ}

theorem magnitude_eq_abs (x : ℚ) : magnitude x = |x| := by
  unfold magnitude
  rw [Nat.cast_zero]
  split
  · rename_i hx
    rw [abs_of_neg hx, zero_sub]
  · rename_i hx
    rw [abs_of_nonneg (not_lt.mp hx)]

theorem distance_eq (hx : xs.length = n) (hy : ys.length = n) :
    distance xs ys = ∑ v ∈ Finset.range n, |rankAt xs v - rankAt ys v| := by
  have hzip : List.zipWith (fun x y => magnitude (x - y)) xs ys =
      (List.range n).map fun v => |rankAt xs v - rankAt ys v| := by
    conv_lhs => rw [← map_rankAt hx, ← map_rankAt hy]
    rw [List.zipWith_map, List.zipWith_self]
    simp only [magnitude_eq_abs]
  rw [distance, total_eq_sum, hzip, sum_map_range]

theorem distance_comm (hx : xs.length = n) (hy : ys.length = n) :
    distance xs ys = distance ys xs := by
  rw [distance_eq hx hy, distance_eq hy hx]
  exact Finset.sum_congr rfl fun v _ => abs_sub_comm _ _

theorem distance_triangle (hx : xs.length = n) (hy : ys.length = n) (hz : zs.length = n) :
    distance xs zs ≤ distance xs ys + distance ys zs := by
  rw [distance_eq hx hz, distance_eq hx hy, distance_eq hy hz, ← Finset.sum_add_distrib]
  exact Finset.sum_le_sum fun v _ => abs_sub_le _ _ _

end Distance

section Contraction

variable {n : Nat} {flows : List (Flow ℚ)} {d : ℚ} {xs ys : List ℚ}

theorem Weighted.rankAt_round (h : Weighted n flows) (hx : xs.length = n) {v : Nat} (hv : v < n) :
    rankAt (round n flows d xs) v = (1 - d) / n + d * ∑ s ∈ Finset.range n,
      rankAt xs s * part n flows s v := by
  rw [round, h.next_eq d hx, rankAt_map_range _ hv]

/-- What is sent on is no more apart than what was there. -/
theorem Weighted.sum_abs_le (h : Weighted n flows) (hn : 0 < n) (a : Nat → ℚ) :
    ∑ v ∈ Finset.range n, |∑ s ∈ Finset.range n, a s * part n flows s v| ≤
      ∑ s ∈ Finset.range n, |a s| := by
  calc ∑ v ∈ Finset.range n, |∑ s ∈ Finset.range n, a s * part n flows s v|
      ≤ ∑ v ∈ Finset.range n, ∑ s ∈ Finset.range n, |a s * part n flows s v| :=
        Finset.sum_le_sum fun v _ => Finset.abs_sum_le_sum_abs _ _
    _ = ∑ v ∈ Finset.range n, ∑ s ∈ Finset.range n, |a s| * part n flows s v := by
        simp only [abs_mul, abs_of_nonneg (h.part_nonneg _ _)]
    _ = ∑ s ∈ Finset.range n, |a s| := by
        rw [Finset.sum_comm]
        simp only [← Finset.mul_sum, h.sum_part hn, mul_one]

/-- A round is a contraction. -/
theorem Weighted.distance_round_le (h : Weighted n flows) (hn : 0 < n) (h0 : 0 < d)
    (hx : xs.length = n) (hy : ys.length = n) :
    distance (round n flows d xs) (round n flows d ys) ≤ d * distance xs ys := by
  have hdiff : ∀ v ∈ Finset.range n, |rankAt (round n flows d xs) v - rankAt
      (round n flows d ys) v| =
      d * |∑ s ∈ Finset.range n, (rankAt xs s - rankAt ys s) * part n flows s v| := by
    intro v hv
    rw [h.rankAt_round hx (Finset.mem_range.mp hv), h.rankAt_round hy (Finset.mem_range.mp hv),
      add_sub_add_left_eq_sub, ← mul_sub, abs_mul, abs_of_pos h0, ← Finset.sum_sub_distrib]
    simp only [sub_mul]
  rw [distance_eq (length_round hx) (length_round hy), Finset.sum_congr rfl hdiff, ← Finset.mul_sum,
    distance_eq hx hy]
  exact mul_le_mul_of_nonneg_left (h.sum_abs_le hn _) h0.le

theorem length_uniform (n : Nat) : (uniform n : List ℚ).length = n :=
  List.length_replicate

theorem rankAt_uniform {v : Nat} (hv : v < n) : rankAt (uniform n : List ℚ) v = 1 / n := by
  simp [rankAt, uniform, hv]

/-- The first round changes equal ranks by no more than twice the share of rank that flows. -/
theorem Weighted.distance_uniform_le (h : Weighted n flows) (hn : 0 < n) (h0 : 0 < d) :
    distance (round n flows d (uniform n)) (uniform n) ≤ 2 * d := by
  have hne : (n : ℚ) ≠ 0 := by exact_mod_cast hn.ne'
  have hsent : ∀ v ∈ Finset.range n, |rankAt (round n flows d (uniform n)) v - rankAt
      (uniform n) v| ≤
      d * |∑ s ∈ Finset.range n, 1 / (n : ℚ) * part n flows s v| + d * (1 / n) := by
    intro v hv
    have hsum : ∑ s ∈ Finset.range n, rankAt (uniform n : List ℚ) s * part n flows s v =
        ∑ s ∈ Finset.range n, 1 / (n : ℚ) * part n flows s v :=
      Finset.sum_congr rfl fun s hs => by rw [rankAt_uniform (Finset.mem_range.mp hs)]
    have heq : (1 - d) / n + d * ∑ s ∈ Finset.range n, 1 / (n : ℚ) * part n flows s v - 1 / n =
        d * ((∑ s ∈ Finset.range n, 1 / (n : ℚ) * part n flows s v) - 1 / n) := by ring
    rw [h.rankAt_round (length_uniform n) (Finset.mem_range.mp hv),
      rankAt_uniform (Finset.mem_range.mp hv), hsum, heq, abs_mul, abs_of_pos h0, ← mul_add]
    have hpos : |1 / (n : ℚ)| = 1 / n := abs_of_nonneg (one_div_nonneg.mpr n.cast_nonneg)
    exact mul_le_mul_of_nonneg_left ((abs_sub _ _).trans_eq (by rw [hpos])) h0.le
  have hall : ∑ s ∈ Finset.range n, |1 / (n : ℚ)| = 1 := by
    rw [Finset.sum_const, Finset.card_range, nsmul_eq_mul,
      abs_of_nonneg (one_div_nonneg.mpr n.cast_nonneg), mul_one_div_cancel hne]
  rw [distance_eq (length_round (length_uniform n)) (length_uniform n)]
  calc ∑ v ∈ Finset.range n, |rankAt (round n flows d (uniform n)) v - rankAt (uniform n) v|
      ≤ ∑ v ∈ Finset.range n,
          (d * |∑ s ∈ Finset.range n, 1 / (n : ℚ) * part n flows s v| + d * (1 / n)) :=
        Finset.sum_le_sum hsent
    _ = d * ∑ v ∈ Finset.range n, |∑ s ∈ Finset.range n, 1 / (n : ℚ) * part n flows s v| + d := by
        rw [Finset.sum_add_distrib, ← Finset.mul_sum, Finset.sum_const, Finset.card_range,
          nsmul_eq_mul]
        congr 1
        field_simp
    _ ≤ d * 1 + d := by
        gcongr
        exact (h.sum_abs_le hn fun _ => 1 / (n : ℚ)).trans_eq hall
    _ = 2 * d := by ring

end Contraction

def after (n : Nat) (flows : List (Flow ℚ)) (d : ℚ) (k : Nat) : List ℚ :=
  (round n flows d)^[k] (uniform n)

/-- Whether round `k` is the first that changes the ranks by less than the tolerance. -/
structure SettlesIn (ranks : Nat → List ℚ) (tolerance : ℚ) (k : Nat) : Prop where
  pos : 0 < k
  met : distance (ranks k) (ranks (k - 1)) < tolerance
  first : ∀ j, 0 < j → j < k → tolerance ≤ distance (ranks j) (ranks (j - 1))

section Settling

variable {tolerance : ℚ} {k : Nat}

theorem exists_settlesIn (ranks : Nat → List ℚ) (hk : 0 < k)
    (h : distance (ranks k) (ranks (k - 1)) < tolerance) :
    ∃ j ≤ k, SettlesIn ranks tolerance j := by
  induction k using Nat.strongRecOn with
  | ind k ih =>
    by_cases hmet : ∃ j, 0 < j ∧ j < k ∧ distance (ranks j) (ranks (j - 1)) < tolerance
    · obtain ⟨j, hj, hjk, hlt⟩ := hmet
      obtain ⟨i, hi, hs⟩ := ih j hjk hj hlt
      exact ⟨i, by omega, hs⟩
    · exact ⟨k, Nat.le_refl k, hk, h, fun j hj hjk => not_lt.mp fun hlt => hmet ⟨j, hj, hjk, hlt⟩⟩

/-- The rounds stop with the first that changes the ranks by less than the tolerance. -/
theorem settle_eq_iterate {step : List ℚ → List ℚ} {start : List ℚ} {rounds : Nat} (hk : k ≤ rounds)
    (h : SettlesIn (fun j => step^[j] start) tolerance k) :
    settle step tolerance rounds start = step^[k] start := by
  induction rounds generalizing start k with
  | zero => exact absurd h.pos (Nat.not_lt.mpr hk)
  | succ rounds ih =>
    have hpos := h.pos
    rw [settle]
    by_cases hmet : distance (step start) start < tolerance
    · obtain rfl : k = 1 := by
        by_contra hne
        exact absurd (h.first 1 Nat.one_pos (by omega)) (not_le.mpr hmet)
      exact if_pos hmet
    · obtain ⟨j, rfl⟩ : ∃ j, k = j + 1 := ⟨k - 1, by omega⟩
      have hj : 0 < j := by
        by_contra hzero
        obtain rfl : j = 0 := by omega
        exact hmet h.met
      have hstep : ∀ i, 0 < i → step^[i - 1] (step start) = step^[i] start := by
        intro i hi
        rw [← Function.iterate_succ_apply, Nat.succ_eq_add_one, Nat.sub_add_cancel hi]
      refine (if_neg hmet).trans (ih (by omega) ⟨hj, ?_, fun i hi hij => ?_⟩)
      · show distance (step^[j] (step start)) (step^[j - 1] (step start)) < tolerance
        rw [hstep j hj]
        exact h.met
      · show tolerance ≤ distance (step^[i] (step start)) (step^[i - 1] (step start))
        rw [hstep i hi]
        exact h.first (i + 1) (by omega) (by omega)

variable {n : Nat} {flows : List (Flow ℚ)} {d : ℚ}

theorem after_succ (k : Nat) : after n flows d (k + 1) = round n flows d (after n flows d k) :=
  Function.iterate_succ_apply' _ _ _

theorem length_after (n : Nat) (flows : List (Flow ℚ)) (d : ℚ) (k : Nat) :
    (after n flows d k).length = n := by
  induction k with
  | zero => exact length_uniform n
  | succ k ih =>
    rw [after_succ]
    exact length_round ih

theorem ranks_eq_after {rounds : Nat} (hk : k ≤ rounds)
    (h : SettlesIn (after n flows d) tolerance k) :
    ranks n flows d rounds tolerance = after n flows d k :=
  settle_eq_iterate hk h

theorem Weighted.distance_after_le (h : Weighted n flows) (hn : 0 < n) (h0 : 0 < d) (k : Nat) :
    distance (after n flows d (k + 2)) (after n flows d (k + 1)) ≤
      d * distance (after n flows d (k + 1)) (after n flows d k) := by
  have hround :=
    h.distance_round_le hn h0 (length_after n flows d (k + 1)) (length_after n flows d k)
  rwa [← after_succ, ← after_succ] at hround

/-- The rounds change the ranks by less and less. -/
theorem Weighted.change_le (h : Weighted n flows) (hn : 0 < n) (h0 : 0 < d) (k : Nat) :
    distance (after n flows d (k + 1)) (after n flows d k) ≤ 2 * d ^ (k + 1) := by
  induction k with
  | zero =>
    rw [pow_one]
    exact h.distance_uniform_le hn h0
  | succ k ih =>
    calc distance (after n flows d (k + 2)) (after n flows d (k + 1))
        ≤ d * distance (after n flows d (k + 1)) (after n flows d k) := h.distance_after_le hn h0 k
      _ ≤ d * (2 * d ^ (k + 1)) := mul_le_mul_of_nonneg_left ih h0.le
      _ = 2 * d ^ (k + 1 + 1) := by ring

/-- Ranks that a round changes by less than the tolerance are near all ranks that a round leaves as
they are. -/
theorem Weighted.distance_fixed_le (h : Weighted n flows) (hn : 0 < n) (h0 : 0 < d) (h1 : d < 1)
    {before fixed : List ℚ} (hb : before.length = n) (hf : fixed.length = n)
    (hfixed : round n flows d fixed = fixed) (hmet : distance (round n flows d before) before <
      tolerance) :
    distance (round n flows d before) fixed ≤ tolerance * d / (1 - d) := by
  have hlength : (round n flows d before).length = n := length_round hb
  have hnear : distance (round n flows d before) fixed ≤
      d * (distance (round n flows d before) before + distance (round n flows d before) fixed) := by
    calc distance (round n flows d before) fixed
        = distance (round n flows d before) (round n flows d fixed) := by rw [hfixed]
      _ ≤ d * distance before fixed := h.distance_round_le hn h0 hb hf
      _ ≤ d * (distance before (round n flows d before) +
          distance (round n flows d before) fixed) :=
          mul_le_mul_of_nonneg_left (distance_triangle hb hlength hf) h0.le
      _ = d * (distance (round n flows d before) before + distance (round n flows d before)
          fixed) := by
          rw [distance_comm hb hlength]
  have hsmall : d * distance (round n flows d before) before ≤ tolerance * d := by
    rw [mul_comm]
    exact mul_le_mul_of_nonneg_right hmet.le h0.le
  rw [le_div_iff₀ (by linarith)]
  linarith

end Settling

end PageRank

section Ranks

open PageRank

/--
A round brings rankings closer together by the share of rank that flows, and so it changes the ranks
by no more than that share of what the round before has changed. The ranks settle by the first
round, within the limit, whose power of the share is less than half the tolerance, and settled ranks
are near every ranking that a round leaves as it is.
-/
theorem ranks_converge (x : Expanded) (hx : x.nodes ≠ []) {d : ℚ} (h0 : 0 < d) (h1 : d < 1) :
    (∀ xs ys, xs.length = x.nodes.length → ys.length = x.nodes.length →
      distance (round x.nodes.length x.flows d xs) (round x.nodes.length x.flows d ys) ≤
      d * distance xs ys) ∧
    (∀ k, distance (after x.nodes.length x.flows d (k + 2))
      (after x.nodes.length x.flows d (k + 1)) ≤
      d * distance (after x.nodes.length x.flows d (k + 1)) (after x.nodes.length x.flows d k)) ∧
    (∀ rounds tolerance k, 1 ≤ k → k ≤ rounds → 2 * d ^ k < tolerance →
      ∃ j ≤ k, SettlesIn (after x.nodes.length x.flows d) tolerance j ∧
        x.ranks d rounds tolerance = after x.nodes.length x.flows d j) ∧
    ∀ rounds tolerance k, k ≤ rounds → SettlesIn (after x.nodes.length x.flows d) tolerance k →
      x.ranks d rounds tolerance = after x.nodes.length x.flows d k ∧
        ∀ fixed, fixed.length = x.nodes.length → round x.nodes.length x.flows d fixed = fixed →
          distance (x.ranks d rounds tolerance) fixed ≤ tolerance * d / (1 - d) := by
  have hn : 0 < x.nodes.length := List.length_pos_iff.mpr hx
  have hflows := weighted_flows x
  refine ⟨fun xs ys => hflows.distance_round_le hn h0, hflows.distance_after_le hn h0, ?_, ?_⟩
  · intro rounds tolerance k hk hrounds hpow
    obtain ⟨i, rfl⟩ : ∃ i, k = i + 1 := ⟨k - 1, by omega⟩
    obtain ⟨j, hj, hs⟩ := exists_settlesIn (after x.nodes.length x.flows d) hk
      ((hflows.change_le hn h0 i).trans_lt hpow)
    exact ⟨j, hj, hs, ranks_eq_after (by omega) hs⟩
  · intro rounds tolerance k hrounds hs
    have hranks : x.ranks d rounds tolerance = after x.nodes.length x.flows d k :=
      ranks_eq_after hrounds hs
    refine ⟨hranks, fun fixed hf hfixed => ?_⟩
    obtain ⟨i, rfl⟩ : ∃ i, k = i + 1 := ⟨k - 1, by have := hs.pos; omega⟩
    have hmet : distance (after x.nodes.length x.flows d (i + 1))
      (after x.nodes.length x.flows d i) < tolerance := hs.met
    rw [after_succ] at hranks hmet
    rw [hranks]
    exact hflows.distance_fixed_le hn h0 h1 (length_after _ _ _ i) hf hfixed hmet

theorem ranks_converge_selfCaller :
    selfCaller.nodes ≠ [] ∧ (0 : ℚ) < 17 / 20 ∧ (17 / 20 : ℚ) < 1 ∧
      2 * (17 / 20 : ℚ) ^ 90 < 1 / 1000000 ∧
      ∃ j ≤ 90, SettlesIn (after selfCaller.nodes.length selfCaller.flows (17 / 20))
        (1 / 1000000) j ∧
        selfCaller.ranks (17 / 20 : ℚ) 100 (1 / 1000000) =
            after selfCaller.nodes.length selfCaller.flows (17 / 20) j := by
  have hnodes : selfCaller.nodes ≠ [] := List.cons_ne_nil _ _
  have h0 : (0 : ℚ) < 17 / 20 := by norm_num
  have h1 : (17 / 20 : ℚ) < 1 := by norm_num
  have hpow : 2 * (17 / 20 : ℚ) ^ 90 < 1 / 1000000 := by norm_num
  obtain ⟨-, -, hsettles, -⟩ := ranks_converge selfCaller hnodes h0 h1
  exact ⟨hnodes, h0, h1, hpow, hsettles 100 (1 / 1000000) 90 (by decide) (by decide) hpow⟩

end Ranks

end CodeAtlas.Retrieval
