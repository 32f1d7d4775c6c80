import Mathlib.Algebra.BigOperators.Group.List.Basic
import Mathlib.Algebra.Ring.Nat
import CodeAtlas.Retrieval.Assembly

/-!
Packed texts. A text is made of sections with an empty line between any two of them, and the tokens
that are counted for it are those of its sections. Each section is rounded down by itself and the
lines between them are not counted, so that the whole text can come to more tokens than the budget,
by less than one for each section.
-/

namespace CodeAtlas.Retrieval

def sectionTokens (c : Chunk) : Nat := estimateTokens (sectionText c)

/-- The chunks of a list that are packed when some tokens of the budget are used already. -/
def taken (budget used : Nat) : List Chunk → List Chunk
  | [] => []
  | c :: rest =>
    if budget < used + sectionTokens c then taken budget used rest
    else c :: taken budget (used + sectionTokens c) rest

def passedOver (budget used : Nat) : List Chunk → List Chunk
  | [] => []
  | c :: rest =>
    if budget < used + sectionTokens c then c :: passedOver budget used rest
    else passedOver budget (used + sectionTokens c) rest

/-- The characters of the text of packed chunks that no token is counted for. -/
def uncounted (kept : List Chunk) : Nat :=
  (kept.map fun c => (sectionText c).length % 4).sum + (kept.length - 1)

section Text

theorem sectionText_ne_empty (c : Chunk) : sectionText c ≠ "" := by
  intro h
  have hline : toString "\n" = "" := (String.append_eq_empty_iff.mp h).2
  exact absurd hline (by decide)

theorem length_intercalate_line (texts : List String) :
    ("\n".intercalate texts).length = (texts.map String.length).sum + (texts.length - 1) := by
  induction texts with
  | nil => rfl
  | cons s rest ih =>
    cases rest with
    | nil => simp
    | cons t rest =>
      rw [String.intercalate_cons_cons, String.length_append, String.length_append, ih]
      have hline : "\n".length = 1 := rfl
      simp only [List.map_cons, List.sum_cons, List.length_cons]
      omega

theorem sum_length_eq (kept : List Chunk) :
    (kept.map fun c => (sectionText c).length).sum =
      4 * (kept.map sectionTokens).sum + (kept.map fun c => (sectionText c).length % 4).sum := by
  induction kept with
  | nil => rfl
  | cons c rest ih =>
    have hc : (sectionText c).length = 4 * sectionTokens c + (sectionText c).length % 4 :=
      (Nat.div_add_mod _ 4).symm
    simp only [List.map_cons, List.sum_cons]
    omega

theorem uncounted_le (kept : List Chunk) : uncounted kept / 4 ≤ kept.length - 1 := by
  have hsum : (kept.map fun c => (sectionText c).length % 4).sum ≤ 3 * kept.length := by
    induction kept with
    | nil => exact Nat.le_refl 0
    | cons c rest ih =>
      have hc := Nat.mod_lt (sectionText c).length (show 0 < 4 by omega)
      simp only [List.map_cons, List.sum_cons, List.length_cons]
      omega
  unfold uncounted
  omega

end Text

namespace Packed

/-- What a packed text says of the chunks in it. -/
structure Holds (p : Packed) (kept : List Chunk) : Prop where
  text : p.text = "\n".intercalate (kept.map sectionText)
  included : p.included = kept.map Chunk.id
  tokens : p.tokens = (kept.map sectionTokens).sum

variable {budget : Nat} {p : Packed} {kept : List Chunk}

theorem Holds.isEmpty_text (h : p.Holds kept) : p.text.isEmpty = true ↔ kept = [] := by
  rw [String.isEmpty_iff, h.text]
  constructor
  · intro he
    cases kept with
    | nil => rfl
    | cons c rest =>
      have hl := congrArg String.length he
      rw [length_intercalate_line, List.map_cons, List.map_cons, List.sum_cons, String.length_empty]
        at hl
      have hc : (sectionText c).length ≠ 0 :=
        fun h0 => sectionText_ne_empty c (String.length_eq_zero_iff.mp h0)
      omega
  · rintro rfl
    rfl

/-- A chunk that does not fit is noted as passed over. -/
theorem add_of_lt {c : Chunk} (hc : budget < p.tokens + sectionTokens c) :
    p.add budget c = { p with excluded := p.excluded ++ [c.id] } :=
  if_pos hc

theorem excluded_add {c : Chunk} (hc : p.tokens + sectionTokens c ≤ budget) :
    (p.add budget c).excluded = p.excluded := by
  unfold sectionTokens at hc
  unfold add
  rw [if_neg (Nat.not_lt.mpr hc)]

theorem Holds.add_of_lt (h : p.Holds kept) {c : Chunk} (hc : budget < p.tokens + sectionTokens c) :
    (p.add budget c).Holds kept ∧ (p.add budget c).tokens = p.tokens := by
  rw [Packed.add_of_lt hc]
  exact ⟨⟨h.text, h.included, h.tokens⟩, rfl⟩

theorem Holds.add_of_le (h : p.Holds kept) {c : Chunk} (hc : p.tokens + sectionTokens c ≤ budget) :
    (p.add budget c).Holds (kept ++ [c]) ∧
      (p.add budget c).tokens = p.tokens + sectionTokens c := by
  have htokens : (p.add budget c).tokens = p.tokens + sectionTokens c := by
    unfold sectionTokens at hc ⊢
    unfold add
    rw [if_neg (Nat.not_lt.mpr hc)]
  refine ⟨⟨?_, ?_, ?_⟩, htokens⟩
  · unfold sectionTokens at hc
    unfold add
    rw [if_neg (Nat.not_lt.mpr hc)]
    by_cases hk : kept = []
    · rw [if_pos (h.isEmpty_text.mpr hk), hk]
      rfl
    · have hsections : kept.map sectionText ≠ [] := fun he => hk (List.map_eq_nil_iff.mp he)
      rw [if_neg (fun he => hk (h.isEmpty_text.mp he)), List.map_append, List.map_singleton,
        String.intercalate_append_of_ne_nil hsections (List.cons_ne_nil _ _), h.text,
        String.intercalate_singleton]
  · unfold sectionTokens at hc
    unfold add
    rw [if_neg (Nat.not_lt.mpr hc), List.map_append, ← h.included]
    rfl
  · rw [htokens, List.map_append, List.sum_append, ← h.tokens, List.map_singleton,
      List.sum_singleton]

/-- Packing goes on with the chunks that are taken, and never beyond the budget. -/
theorem Holds.foldl_add (h : p.Holds kept) (hp : p.tokens ≤ budget) (chunks : List Chunk) :
    (chunks.foldl (add budget) p).Holds (kept ++ taken budget p.tokens chunks) ∧
      (chunks.foldl (add budget) p).tokens ≤ budget := by
  induction chunks generalizing p kept with
  | nil => exact ⟨(List.append_nil kept).symm ▸ h, hp⟩
  | cons c rest ih =>
    rw [List.foldl_cons, taken]
    by_cases hc : budget < p.tokens + sectionTokens c
    · obtain ⟨ha, ht⟩ := h.add_of_lt hc
      rw [if_pos hc, ← ht]
      exact ih ha (ht ▸ hp)
    · obtain ⟨ha, ht⟩ := h.add_of_le (Nat.le_of_not_lt hc)
      rw [if_neg hc, ← ht, List.append_cons]
      exact ih ha (ht ▸ Nat.le_of_not_lt hc)

theorem Holds.length_text (h : p.Holds kept) : p.text.length = 4 * p.tokens + uncounted kept := by
  rw [h.text, h.tokens, length_intercalate_line, List.map_map, Function.comp_def, sum_length_eq,
    List.length_map, uncounted, Nat.add_assoc]

end Packed

section Pack

theorem pack_holds (budget : Nat) (chunks : List Chunk) :
    (pack budget chunks).Holds (taken budget 0 chunks) ∧ (pack budget chunks).tokens ≤ budget := by
  have hempty : Packed.Holds {} [] := ⟨rfl, rfl, rfl⟩
  exact hempty.foldl_add (Nat.zero_le budget) chunks

theorem taken_sublist (budget used : Nat) (chunks : List Chunk) :
    (taken budget used chunks).Sublist chunks := by
  induction chunks generalizing used with
  | nil => exact List.Sublist.refl []
  | cons c rest ih =>
    rw [taken]
    split
    · exact (ih used).cons c
    · exact (ih _).cons_cons c

theorem passedOver_sublist (budget used : Nat) (chunks : List Chunk) :
    (passedOver budget used chunks).Sublist chunks := by
  induction chunks generalizing used with
  | nil => exact List.Sublist.refl []
  | cons c rest ih =>
    rw [passedOver]
    split
    · exact (ih used).cons_cons c
    · exact (ih _).cons c

/-- Every chunk is either taken or passed over. -/
theorem taken_perm (budget used : Nat) (chunks : List Chunk) :
    (taken budget used chunks ++ passedOver budget used chunks).Perm chunks := by
  induction chunks generalizing used with
  | nil => exact List.Perm.refl []
  | cons c rest ih =>
    rw [taken, passedOver]
    split
    · exact List.perm_middle.trans ((ih used).cons c)
    · exact (ih _).cons c

theorem foldl_add_excluded (budget : Nat) (p : Packed) (chunks : List Chunk) :
    (chunks.foldl (Packed.add budget) p).excluded =
      p.excluded ++ (passedOver budget p.tokens chunks).map Chunk.id := by
  induction chunks generalizing p with
  | nil => simp [passedOver]
  | cons c rest ih =>
    rw [List.foldl_cons, ih, passedOver]
    by_cases hc : budget < p.tokens + sectionTokens c
    · rw [Packed.add_of_lt hc, if_pos hc]
      simp
    · have htokens : (p.add budget c).tokens = p.tokens + sectionTokens c :=
        congrArg Packed.tokens (if_neg hc)
      rw [htokens, Packed.excluded_add (Nat.le_of_not_lt hc), if_neg hc]

theorem pack_excluded (budget : Nat) (chunks : List Chunk) :
    (pack budget chunks).excluded = (passedOver budget 0 chunks).map Chunk.id := by
  rw [pack, foldl_add_excluded]
  rfl

/-- The whole text respects the budget exactly if what is not counted of it fits in what is left of
the budget. The tokens that are counted always do, and the text is over the budget by less than a
token for each section. -/
theorem estimateTokens_pack_le_iff (budget : Nat) (chunks : List Chunk) :
    (estimateTokens (pack budget chunks).text ≤ budget ↔
        uncounted (taken budget 0 chunks) / 4 ≤ budget - (pack budget chunks).tokens) ∧
      (pack budget chunks).tokens ≤ budget ∧
      estimateTokens (pack budget chunks).text ≤
          budget + ((pack budget chunks).included.length - 1) := by
  obtain ⟨hp, hb⟩ := pack_holds budget chunks
  have htokens : estimateTokens (pack budget chunks).text =
      (pack budget chunks).tokens + uncounted (taken budget 0 chunks) / 4 := by
    rw [estimateTokens, hp.length_text]
    omega
  have hover := uncounted_le (taken budget 0 chunks)
  rw [htokens, hp.included, List.length_map]
  refine ⟨?_, hb, ?_⟩
  · omega
  · omega

def oneLiner (name content : String) (line : Nat) : Chunk where
  id := name
  kind := .member
  content := content
  path := "m.rs"
  startLine := line
  endLine := line
  language := "rust"
  name := some name

theorem estimateTokens_oneLiners :
    estimateTokens (pack 10 [oneLiner "f" "fn f(){}" 1, oneLiner "g" "fn g(){}" 2]).text = 11 := by
  decide +kernel

/-- Two sections of five tokens each make a text of eleven. -/
theorem pack_text_over_budget :
    ¬ ∀ (budget : Nat) (chunks : List Chunk), estimateTokens (pack budget chunks).text ≤
      budget := by
  intro h
  have hle := h 10 [oneLiner "f" "fn f(){}" 1, oneLiner "g" "fn g(){}" 2]
  rw [estimateTokens_oneLiners] at hle
  exact absurd hle (by decide)

end Pack

end CodeAtlas.Retrieval
