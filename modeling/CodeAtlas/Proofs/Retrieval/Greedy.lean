import CodeAtlas.Proofs.Retrieval.Packing
import Mathlib.Data.List.Induction

/-!
Greedy packing. Every chunk has its turn after those before it and is taken exactly if it fits in
what they have left of the budget. What is passed over would not fit at the end either, and leaves
no trace in what is packed behind it.
-/

namespace CodeAtlas.Retrieval

/-- What some chunks leave of a budget when they are packed. -/
def leftover (budget : Nat) (before : List Chunk) : Nat :=
  budget - (pack budget before).tokens

/-- The chunks of a list in order, each with those before it. -/
def turns (chunks : List Chunk) : List (Chunk × List Chunk) :=
  chunks.zipIdx.map fun p => (p.1, chunks.take p.2)

def fitting (budget : Nat) (chunks : List Chunk) : List (Chunk × List Chunk) :=
  (turns chunks).filter fun p => sectionTokens p.1 ≤ leftover budget p.2

def exceeding (budget : Nat) (chunks : List Chunk) : List (Chunk × List Chunk) :=
  (turns chunks).filter fun p => leftover budget p.2 < sectionTokens p.1

section Turns

variable {budget : Nat}

theorem turns_concat (chunks : List Chunk) (c : Chunk) :
    turns (chunks ++ [c]) = turns chunks ++ [(c, chunks)] := by
  unfold turns
  rw [List.zipIdx_append, List.map_append]
  congr 1
  · apply List.map_congr_left
    intro p hp
    have hlt := List.snd_lt_of_mem_zipIdx hp
    rw [List.take_append_of_le_length (by omega)]
  · simp

theorem map_fst_turns (chunks : List Chunk) : (turns chunks).map Prod.fst = chunks := by
  unfold turns
  rw [List.map_map]
  exact List.zipIdx_map_fst 0 chunks

theorem pack_concat (chunks : List Chunk) (c : Chunk) :
    pack budget (chunks ++ [c]) = (pack budget chunks).add budget c := by
  rw [pack, List.foldl_concat, ← pack]

theorem tokens_le (budget : Nat) (chunks : List Chunk) : (pack budget chunks).tokens ≤ budget :=
  (pack_holds budget chunks).2

theorem lt_leftover_iff (chunks : List Chunk) (c : Chunk) :
    leftover budget chunks < sectionTokens c ↔
      budget < (pack budget chunks).tokens + sectionTokens c := by
  have h := tokens_le budget chunks
  unfold leftover
  omega

theorem fitting_concat_of_lt {chunks : List Chunk} {c : Chunk}
    (h : leftover budget chunks < sectionTokens c) :
    fitting budget (chunks ++ [c]) = fitting budget chunks ∧
      exceeding budget (chunks ++ [c]) = exceeding budget chunks ++ [(c, chunks)] := by
  unfold fitting exceeding
  rw [turns_concat, List.filter_append, List.filter_append]
  simp [h]

theorem fitting_concat_of_le {chunks : List Chunk} {c : Chunk}
    (h : sectionTokens c ≤ leftover budget chunks) :
    fitting budget (chunks ++ [c]) = fitting budget chunks ++ [(c, chunks)] ∧
      exceeding budget (chunks ++ [c]) = exceeding budget chunks := by
  unfold fitting exceeding
  rw [turns_concat, List.filter_append, List.filter_append]
  simp [h]

/-- Packing takes the chunks that fit at their turn and passes over the others. -/
theorem pack_turns (budget : Nat) (chunks : List Chunk) :
    (pack budget chunks).Holds ((fitting budget chunks).map Prod.fst) ∧
      (pack budget chunks).excluded = (exceeding budget chunks).map fun p => p.1.id := by
  induction chunks using List.reverseRecOn with
  | nil => exact ⟨⟨rfl, rfl, rfl⟩, rfl⟩
  | append_singleton chunks c ih =>
    obtain ⟨hholds, hexcluded⟩ := ih
    rw [pack_concat]
    by_cases hc : leftover budget chunks < sectionTokens c
    · have hover := (lt_leftover_iff chunks c).mp hc
      obtain ⟨hf, he⟩ := fitting_concat_of_lt hc
      rw [hf, he, List.map_append, ← hexcluded, Packed.add_of_lt hover]
      exact ⟨⟨hholds.text, hholds.included, hholds.tokens⟩, rfl⟩
    · have hfits := Nat.le_of_not_lt (mt (lt_leftover_iff chunks c).mpr hc)
      obtain ⟨hf, he⟩ := fitting_concat_of_le (Nat.le_of_not_lt hc)
      rw [hf, he, List.map_append, ← hexcluded]
      exact ⟨(hholds.add_of_le hfits).1, Packed.excluded_add hfits⟩

theorem tokens_add_le (p : Packed) (c : Chunk) : p.tokens ≤ (p.add budget c).tokens := by
  unfold Packed.add
  dsimp only
  split
  · exact Nat.le_refl _
  · exact Nat.le_add_right _ _

/-- The less is left of the budget the more chunks have had their turn. -/
theorem leftover_antitone (chunks : List Chunk) (n : Nat) :
    leftover budget chunks ≤ leftover budget (chunks.take n) := by
  have hfold : ∀ (rest : List Chunk) (p : Packed), p.tokens ≤
      (rest.foldl (Packed.add budget) p).tokens := by
    intro rest
    induction rest with
    | nil => exact fun p => Nat.le_refl _
    | cons c rest ih => exact fun p => (tokens_add_le p c).trans (ih _)
  have htokens := hfold (chunks.drop n) (pack budget (chunks.take n))
  rw [pack, ← List.foldl_append, List.take_append_drop, ← pack, ← pack] at htokens
  unfold leftover
  omega

end Turns

section Skipping

variable {budget : Nat}

/-- What is packed, whatever is passed over. -/
def Packed.content (p : Packed) : String × List String × Nat :=
  (p.text, p.included, p.tokens)

theorem content_add {p q : Packed} (h : p.content = q.content) (c : Chunk) :
    (p.add budget c).content = (q.add budget c).content := by
  obtain ⟨htext, hrest⟩ := Prod.mk.inj h
  obtain ⟨hincluded, htokens⟩ := Prod.mk.inj hrest
  unfold Packed.add Packed.content
  dsimp only
  rw [htext, hincluded, htokens]
  split <;> rfl

theorem content_foldl {p q : Packed} (h : p.content = q.content) (chunks : List Chunk) :
    (chunks.foldl (Packed.add budget) p).content =
      (chunks.foldl (Packed.add budget) q).content := by
  induction chunks generalizing p q with
  | nil => exact h
  | cons c rest ih => exact ih (content_add h c)

theorem pack_append (before after : List Chunk) :
    pack budget (before ++ after) = after.foldl (Packed.add budget) (pack budget before) := by
  rw [pack, List.foldl_append, ← pack]

/-- A chunk that does not fit at its turn could as well not be there. -/
theorem pack_skip (before after : List Chunk) {c : Chunk}
    (h : leftover budget before < sectionTokens c) :
    (pack budget (before ++ c :: after)).content = (pack budget (before ++ after)).content ∧
      ∃ rest, (pack budget (before ++ after)).excluded = (pack budget before).excluded ++ rest ∧
        (pack budget (before ++ c :: after)).excluded =
            (pack budget before).excluded ++ c.id :: rest := by
  have hadd := Packed.add_of_lt ((lt_leftover_iff before c).mp h)
  have hcontent : ((pack budget before).add budget c).content = (pack budget before).content := by
    rw [hadd]; rfl
  rw [pack_append, pack_append, List.foldl_cons]
  refine ⟨content_foldl hcontent after, (passedOver budget (pack budget before).tokens after).map
    Chunk.id, ?_, ?_⟩
  · exact foldl_add_excluded budget _ after
  · rw [hadd, foldl_add_excluded, List.append_assoc]
    rfl

/-- Every chunk has its turn, in order. Those that fit then are packed with a line between their
sections, their tokens are counted, and the budget holds. The others would not fit in what is left
at the end either, and without one of them all the rest is packed as before. -/
theorem pack_greedy (budget : Nat) (chunks : List Chunk) :
    (turns chunks).map Prod.fst = chunks ∧
      (pack budget chunks).included = (fitting budget chunks).map (fun p => p.1.id) ∧
      (pack budget chunks).excluded = (exceeding budget chunks).map (fun p => p.1.id) ∧
      (pack budget chunks).text =
        "\n".intercalate ((fitting budget chunks).map fun p => sectionText p.1) ∧
      (pack budget chunks).tokens = ((fitting budget chunks).map fun p => sectionTokens p.1).sum ∧
      (pack budget chunks).tokens ≤ budget ∧
      (∀ p ∈ exceeding budget chunks,
        leftover budget p.2 < sectionTokens p.1 ∧ leftover budget chunks < sectionTokens p.1) ∧
      ∀ before c after, chunks = before ++ c :: after → leftover budget before < sectionTokens c →
        (pack budget chunks).content = (pack budget (before ++ after)).content ∧
          ∃ rest, (pack budget (before ++ after)).excluded = (pack budget before).excluded ++ rest ∧
            (pack budget chunks).excluded = (pack budget before).excluded ++ c.id :: rest := by
  obtain ⟨hholds, hexcluded⟩ := pack_turns budget chunks
  refine ⟨map_fst_turns chunks, ?_, hexcluded, ?_, ?_, tokens_le budget chunks, ?_, ?_⟩
  · rw [hholds.included, List.map_map]
    rfl
  · rw [hholds.text, List.map_map]
    rfl
  · rw [hholds.tokens, List.map_map]
    rfl
  · intro p hp
    obtain ⟨hturn, hexceeds⟩ := List.mem_filter.mp hp
    have hlt : leftover budget p.2 < sectionTokens p.1 := of_decide_eq_true hexceeds
    obtain ⟨q, -, rfl⟩ := List.mem_map.mp hturn
    exact ⟨hlt, (leftover_antitone chunks q.2).trans_lt hlt⟩
  · rintro before c after rfl h
    exact pack_skip before after h

end Skipping

end CodeAtlas.Retrieval
