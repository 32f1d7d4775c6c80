import Mathlib.Analysis.Real.Sqrt
import Mathlib.Data.Multiset.Basic
import CodeAtlas.Embedding

/-!
Feature hashing in exact numbers. Every text has a vector of length one with a number for every
dimension, also where all sums cancel and where the text has no terms. Sums do not depend on the
order of terms, so that texts with the same terms have the same vector.
-/

namespace CodeAtlas

namespace Text

/-- The parts of a text between characters that do not belong to terms, without empty ones, in lower
case, each as often as it stands in the text. -/
def tokens (text : String) : Multiset String :=
  ((text.toList.splitOnP fun c => !isTermChar c).filter fun part => !part.isEmpty).map fun part =>
    String.ofList (toLower part)

/-- The runs of a text are what stands between the other characters. -/
theorem runs_eq_splitOnP (p : Char → Bool) (cs : List Char) :
    runs p cs = (cs.splitOnP fun c => !p c).filter fun part => !part.isEmpty := by
  fun_induction runs p cs with
  | case1 => rfl
  | case2 c rest hc ih =>
    have hrun : ∀ d ∈ c :: rest.takeWhile p, (!p d) = false := by
      intro d hd
      rcases List.mem_cons.mp hd with rfl | hd
      · rw [hc]
        rfl
      · rw [List.all_eq_true.mp List.all_takeWhile d hd]
        rfl
    have hsplit : c :: rest = (c :: rest.takeWhile p) ++ rest.dropWhile p := by
      rw [List.cons_append, List.takeWhile_append_dropWhile]
    rw [hsplit, ih]
    cases hrest : rest.dropWhile p with
    | nil =>
      rw [List.append_nil, List.splitOnP_eq_singleton hrun]
      rfl
    | cons d after =>
      have hd : (!p d) = true := by
        have hhead := List.head?_dropWhile_not p rest
        simpa [hrest] using hhead
      rw [List.splitOnP_append_cons_of_forall_mem hrun d hd, List.splitOnP_cons_eq_if_modifyHead,
        if_pos hd]
      rfl
  | case3 c rest hc ih =>
    rw [List.splitOnP_cons_eq_if_modifyHead, if_pos (by simpa using hc), ih]
    rfl

theorem terms_eq_tokens (text : String) : (terms text : Multiset String) = tokens text := by
  rw [terms, runs_eq_splitOnP]
  rfl

end Text

namespace FeatureHashing

section Sums

/-- What tokens add up to at a place: one more or one less, by the top bit of its hash, for each
token that points there. -/
def bucket (dimensions : Nat) (tokens : Multiset String) (place : Nat) : Int :=
  (((tokens.map (markOf dimensions)).filter fun m => m.place = place).map Mark.amount).sum

theorem tally_concat (dimensions : Nat) (marks : List Mark) (m : Mark) :
    tally dimensions (marks ++ [m]) = (tally dimensions marks).modify m.place (· + m.amount) :=
  List.foldl_append

theorem length_tally (dimensions : Nat) (marks : List Mark) :
    (tally dimensions marks).length = dimensions := by
  induction marks using List.reverseRecOn with
  | nil => exact List.length_replicate
  | append_singleton marks m ih => rw [tally_concat, List.length_modify, ih]

theorem getElem?_tally (dimensions : Nat) (marks : List Mark) (place : Nat) :
    (tally dimensions marks)[place]? =
    if place < dimensions then some ((marks.filter fun m => m.place = place).map Mark.amount).sum
      else none := by
  induction marks using List.reverseRecOn with
  | nil => exact List.getElem?_replicate
  | append_singleton marks m ih =>
    rw [tally_concat, List.getElem?_modify, ih, List.filter_append, List.map_append,
      List.sum_append]
    by_cases hm : m.place = place <;> by_cases hplace : place < dimensions <;> simp [hm, hplace]

/-- The sums of a text with tokens are told by which tokens it has, in whatever order. -/
theorem weights_eq (dimensions : Nat) {text : String} (h : Text.tokens text ≠ 0) :
    weights dimensions text =
      (List.range dimensions).map (bucket dimensions (Text.tokens text)) := by
  rw [← Text.terms_eq_tokens] at h ⊢
  have hterms : (Text.terms text).isEmpty = false := by simpa using h
  unfold weights
  dsimp only
  rw [hterms, if_neg Bool.false_ne_true]
  apply List.ext_getElem?
  intro place
  rw [getElem?_tally, List.getElem?_map]
  by_cases hplace : place < dimensions
  · rw [if_pos hplace, List.getElem?_range hplace, Option.map_some, bucket, Multiset.map_coe,
      Multiset.filter_coe, Multiset.map_coe, Multiset.sum_coe]
  · rw [if_neg hplace, List.getElem?_eq_none (by simpa using hplace), Option.map_none]

theorem length_weights (dimensions : Nat) (text : String) :
    (weights dimensions text).length = dimensions := by
  unfold weights
  dsimp only
  split
  · rw [List.length_set, length_tally]
  · exact length_tally _ _

end Sums

section Scaling

variable {α : Type} [Add α] [Mul α] [Div α] [LT α] [DecidableLT α] [OfNat α 0] [OfNat α 1]

theorem length_scaledBy (sqrt : α → α) (v : List α) : (scaledBy sqrt v).length = v.length := by
  unfold scaledBy
  split
  · exact List.length_map _
  · exact List.length_set

/-- With any dimensions a text has a vector, which has as many numbers. -/
theorem embedBy_eq_ok (ofInt : Int → α) (sqrt : α → α) {dimensions : Nat} (h : 0 < dimensions)
    (text : String) :
    embedBy ofInt sqrt dimensions text = .ok (scaledBy sqrt ((weights dimensions text).map ofInt)) ∧
      (scaledBy sqrt ((weights dimensions text).map ofInt)).length = dimensions := by
  constructor
  · rw [embedBy, if_neg]
    simpa using h.ne'
  · rw [length_scaledBy, List.length_map, length_weights]

variable {v : List ℝ}

theorem squares_eq (v : List ℝ) : squares v = (v.map fun x => x * x).sum := by
  rw [squares, List.sum_eq_foldl, List.foldl_map]

theorem squares_cons (x : ℝ) (v : List ℝ) : squares (x :: v) = x * x + squares v := by
  rw [squares_eq, squares_eq, List.map_cons, List.sum_cons]

theorem squares_nonneg (v : List ℝ) : 0 ≤ squares v := by
  induction v with
  | nil => exact le_refl 0
  | cons x v ih =>
    rw [squares_cons]
    exact add_nonneg (mul_self_nonneg x) ih

theorem squares_map_mul (v : List ℝ) (x : ℝ) : squares (v.map (· * x)) = squares v * (x * x) := by
  induction v with
  | nil => exact (zero_mul _).symm
  | cons y v ih =>
    rw [List.map_cons, squares_cons, squares_cons, ih]
    ring

/-- What is scaled has length one, whatever it was before. -/
theorem squares_scaledBy (h : v ≠ []) : squares (scaledBy Real.sqrt v) = 1 := by
  unfold scaledBy
  split
  · rename_i hpos
    rw [squares_map_mul, one_div, ← mul_inv, Real.mul_self_sqrt hpos.le, mul_inv_cancel₀ hpos.ne']
  · rename_i hzero
    obtain ⟨x, rest, rfl⟩ := List.exists_cons_of_ne_nil h
    rw [squares_cons] at hzero
    -- no square is negative, so that none of those behind the first place is anything but zero
    have hrest : squares rest = 0 := by
      have hx := mul_self_nonneg x
      have hnonneg := squares_nonneg rest
      linarith
    rw [List.set_cons_zero, squares_cons, hrest, mul_one, add_zero]

theorem exists_ne_zero (h : squares v ≠ 0) : ∃ x ∈ v, x ≠ 0 := by
  by_contra hnone
  push Not at hnone
  apply h
  rw [squares_eq]
  exact List.sum_eq_zero fun y hy => by
    obtain ⟨x, hx, rfl⟩ := List.mem_map.mp hy
    rw [hnone x hx, mul_zero]

end Scaling

section Exact

/-- The vector of a text in exact numbers. -/
noncomputable def exactly (dimensions : Nat) (text : String) : Except Failure (List ℝ) :=
  embedBy Int.cast Real.sqrt dimensions text

/-- Every text has a vector with a number for each dimension, not all of them zero and together of
length one. If it has tokens, the vector is made of what they add up to at each place, so that texts
with the same tokens have the same one. -/
theorem exactly_hashed (dimensions : Nat) (h : 0 < dimensions) :
    (∀ text, ∃ v, exactly dimensions text = .ok v ∧ v.length = dimensions ∧ (∃ x ∈ v, x ≠ 0) ∧
      squares v = 1) ∧ (∀ text, ∃ v, embedder dimensions text = .ok v ∧ v.length = dimensions) ∧
      (∀ text, Text.tokens text ≠ 0 → exactly dimensions text = .ok (scaledBy Real.sqrt
        ((List.range dimensions).map fun place =>
        (bucket dimensions (Text.tokens text) place : ℝ)))) ∧
      ∀ text text', Text.tokens text = Text.tokens text' → Text.tokens text ≠ 0 →
        exactly dimensions text = exactly dimensions text' ∧
            embedder dimensions text = embedder dimensions text' := by
  refine ⟨fun text => ?_, fun text => ⟨_, embedBy_eq_ok _ _ h text⟩, fun text hne => ?_,
    fun text text' htokens hne => ?_⟩
  · obtain ⟨hok, hlength⟩ := embedBy_eq_ok Int.cast Real.sqrt h text
    have hsquares : squares (scaledBy Real.sqrt ((weights dimensions text).map Int.cast)) = 1 := by
      apply squares_scaledBy
      rw [← List.length_pos_iff, List.length_map, length_weights]
      exact h
    exact ⟨_, hok, hlength, exists_ne_zero (hsquares ▸ one_ne_zero), hsquares⟩
  · rw [exactly, (embedBy_eq_ok Int.cast Real.sqrt h text).1, weights_eq dimensions hne,
      List.map_map]
    rfl
  · have hweights : weights dimensions text = weights dimensions text' := by
      rw [weights_eq dimensions hne, weights_eq dimensions (htokens ▸ hne), htokens]
    rw [exactly, exactly, embedder, embedBy, embedBy, embedBy, embedBy, hweights]
    exact ⟨rfl, rfl⟩

/-- Two terms whose marks cancel, in either order and case. -/
theorem exactly_hashed_twoTerms :
    0 < 1 ∧ weights 1 "a B" = [0] ∧ Text.tokens "a B" = Text.tokens "(b, A)" ∧
      Text.tokens "a B" ≠ 0 ∧
      exactly 1 "a B" = exactly 1 "(b, A)" ∧ ∃ v, exactly 1 "a B" = .ok v ∧ v.length = 1 ∧
          ∃ x ∈ v, x ≠ 0 := by
  have hpos : 0 < 1 := Nat.one_pos
  obtain ⟨hweights, htokens, hne⟩ : weights 1 "a B" = [0] ∧
      Text.tokens "a B" = Text.tokens "(b, A)" ∧ Text.tokens "a B" ≠ 0 := by decide +kernel
  obtain ⟨hvector, -, -, hsame⟩ := exactly_hashed 1 hpos
  obtain ⟨v, hv, hlength, hnonzero, -⟩ := hvector "a B"
  exact ⟨hpos, hweights, htokens, hne, (hsame _ _ htokens hne).1, v, hv, hlength, hnonzero⟩

end Exact

end FeatureHashing

end CodeAtlas
