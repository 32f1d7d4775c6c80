import Mathlib.Data.List.Nodup
import Mathlib.Data.List.Perm.Subperm
import Mathlib.Logic.Relation
import CodeAtlas.Proofs.Graph.Parts

/-!
Chains of parents among chunks. The chain above a position follows the parents one by one; where no
chunk is above itself it comes to its end within the list, however many steps are allowed.
-/

namespace CodeAtlas

namespace Lineage

def IsParent (parents : List (Option Nat)) (p i : Nat) : Prop := parents[i]? = some (some p)

variable {parents : List (Option Nat)} {steps i p : Nat}

theorem chain_of_isParent (h : IsParent parents p i) (steps : Nat) :
    chain parents (steps + 1) i = p :: chain parents steps p := by
  rw [chain, show parents[i]? = some (some p) from h]

theorem chain_of_root (h : ∀ p, ¬ IsParent parents p i) (steps : Nat) :
    chain parents steps i = [] := by
  cases steps with
  | zero => rfl
  | succ steps =>
    unfold chain
    split
    · rename_i p hp
      exact absurd hp (h p)
    · rfl

theorem above_of_mem_chain {q : Nat} (h : q ∈ chain parents steps i) :
    Relation.TransGen (IsParent parents) q i := by
  induction steps generalizing i with
  | zero => exact absurd h List.not_mem_nil
  | succ steps ih =>
    by_cases hroot : ∃ p, IsParent parents p i
    · obtain ⟨p, hp⟩ := hroot
      rw [chain_of_isParent hp] at h
      rcases List.mem_cons.mp h with rfl | h
      · exact .single hp
      · exact (ih h).tail hp
    · rw [chain_of_root (not_exists.mp hroot)] at h
      exact absurd h List.not_mem_nil

theorem chain_pairwise (parents : List (Option Nat)) (steps i : Nat) :
    (chain parents steps i).Pairwise fun p q => Relation.TransGen (IsParent parents) q p := by
  induction steps generalizing i with
  | zero => exact List.Pairwise.nil
  | succ steps ih =>
    by_cases hroot : ∃ p, IsParent parents p i
    · obtain ⟨p, hp⟩ := hroot
      rw [chain_of_isParent hp]
      exact List.pairwise_cons.mpr ⟨fun q hq => above_of_mem_chain hq, ih p⟩
    · rw [chain_of_root (not_exists.mp hroot)]
      exact List.Pairwise.nil

theorem chain_eq_take {fewer : Nat} (h : fewer ≤ steps) :
    chain parents fewer i = (chain parents steps i).take fewer := by
  induction fewer generalizing steps i with
  | zero => rfl
  | succ fewer ih =>
    obtain ⟨more, rfl⟩ : ∃ more, steps = more + 1 := ⟨steps - 1, by omega⟩
    by_cases hroot : ∃ p, IsParent parents p i
    · obtain ⟨p, hp⟩ := hroot
      rw [chain_of_isParent hp, chain_of_isParent hp, List.take_succ_cons,
        ← ih (Nat.le_of_succ_le_succ h)]
    · rw [chain_of_root (not_exists.mp hroot), chain_of_root (not_exists.mp hroot), List.take_nil]

/-- Where no position is above itself, a chain has no repetitions and so is no longer than the
list. -/
theorem length_chain_le (hb : ∀ p i, IsParent parents p i → p < parents.length)
    (ha : ∀ p, ¬ Relation.TransGen (IsParent parents) p p) (steps i : Nat) :
    (chain parents steps i).length ≤ parents.length := by
  have hn : (chain parents steps i).Nodup := by
    apply (chain_pairwise parents steps i).imp
    rintro p _ hp rfl
    exact ha p hp
  have hsub : chain parents steps i ⊆ List.range parents.length := by
    intro p hp
    rw [List.mem_range]
    have hup := above_of_mem_chain hp
    cases hup using Relation.TransGen.head_induction_on with
    | single h => exact hb _ _ h
    | head h _ => exact hb _ _ h
  have hle := (List.subperm_of_subset hn hsub).length_le
  rwa [List.length_range] at hle

/-- Where no position is above itself, no more steps than the list is long find anything more. -/
theorem chain_eq_ancestors (hb : ∀ p i, IsParent parents p i → p < parents.length)
    (ha : ∀ p, ¬ Relation.TransGen (IsParent parents) p p) (h : parents.length ≤ steps) (i : Nat) :
    chain parents steps i = ancestors parents i := by
  rw [ancestors, chain_eq_take h, List.take_of_length_le (length_chain_le hb ha steps i)]

theorem mem_chain_of_above {q : Nat} (h : Relation.TransGen (IsParent parents) q i) :
    ∃ steps, q ∈ chain parents steps i := by
  induction h with
  | single h =>
    refine ⟨1, ?_⟩
    rw [chain_of_isParent h]
    exact List.mem_cons_self
  | tail _ h ih =>
    obtain ⟨steps, hq⟩ := ih
    refine ⟨steps + 1, ?_⟩
    rw [chain_of_isParent h]
    exact List.mem_cons_of_mem _ hq

/-- Where no position is above itself, walking up finds all that is above one. -/
theorem isAncestor_iff (hb : ∀ p i, IsParent parents p i → p < parents.length)
    (ha : ∀ p, ¬ Relation.TransGen (IsParent parents) p p) :
    isAncestor parents p i = true ↔ Relation.TransGen (IsParent parents) p i := by
  rw [isAncestor, List.contains_iff_mem]
  constructor
  · exact above_of_mem_chain
  · intro h
    obtain ⟨steps, hp⟩ := mem_chain_of_above h
    rw [chain_eq_take (Nat.le_add_right steps parents.length)] at hp
    rw [← chain_eq_ancestors hb ha (Nat.le_add_left parents.length steps)]
    exact List.mem_of_mem_take hp

end Lineage

namespace Resolution

/-- Whether the chunk with one id is the parent of the chunk with another; of chunks with one id the
first counts. -/
def IsParent (chunks : List Chunk) (p c : String) : Prop :=
  (byId? chunks p).isSome ∧ ∃ d, byId? chunks c = some d ∧ d.parent = some p

/-- Whether no chunk is above itself. -/
def Acyclic (chunks : List Chunk) : Prop :=
  ∀ id, ¬ Relation.TransGen (IsParent chunks) id id

section Positions

variable {chunks : List Chunk} {id : String} {c : Chunk} {i p : Nat}

/-- A parent by position is a parent by id. -/
theorem isParent_of_position (hn : (chunks.map Chunk.id).Nodup)
    (h : Lineage.IsParent (parents chunks) p i) :
    ∃ c q, chunks[i]? = some c ∧ chunks[p]? = some q ∧ IsParent chunks q.id c.id := by
  unfold Lineage.IsParent parents at h
  rw [List.getElem?_map] at h
  obtain ⟨c, hc, hp⟩ := Option.map_eq_some_iff.mp h
  obtain ⟨pid, hpid, hp⟩ := Option.bind_eq_some_iff.mp hp
  obtain ⟨hlt, hq, -⟩ := List.findIdx?_eq_some_iff_getElem.mp hp
  have hcm : c ∈ chunks := List.mem_of_getElem? hc
  have hqm : chunks[p] ∈ chunks := List.getElem_mem hlt
  have hqid : chunks[p].id = pid := by simpa using hq
  refine ⟨c, chunks[p], hc, List.getElem?_eq_getElem hlt, ?_, c, byId?_eq_some hn hcm, ?_⟩
  · rw [byId?_eq_some hn hqm]
    rfl
  · rw [hqid]
    exact hpid

theorem isParent_lt (hn : (chunks.map Chunk.id).Nodup) (h : Lineage.IsParent (parents chunks) p i) :
    p < (parents chunks).length := by
  obtain ⟨-, q, -, hq, -⟩ := isParent_of_position hn h
  rw [parents, List.length_map]
  exact (List.getElem?_eq_some_iff.mp hq).1

theorem above_of_positions (hn : (chunks.map Chunk.id).Nodup)
    (h : Relation.TransGen (Lineage.IsParent (parents chunks)) p i) :
    Relation.TransGen (IsParent chunks) (idAt Chunk.id chunks p) (idAt Chunk.id chunks i) := by
  apply h.lift (idAt Chunk.id chunks)
  intro q i hq
  obtain ⟨c, d, hc, hd, hcd⟩ := isParent_of_position hn hq
  show IsParent chunks (idAt Chunk.id chunks q) (idAt Chunk.id chunks i)
  rwa [idAt_eq Chunk.id hc, idAt_eq Chunk.id hd]

theorem positions_acyclic (hn : (chunks.map Chunk.id).Nodup) (ha : Acyclic chunks) (p : Nat) :
    ¬ Relation.TransGen (Lineage.IsParent (parents chunks)) p p :=
  fun hp => ha (idAt Chunk.id chunks p) (above_of_positions hn hp)

/-- Where no chunk is above itself, walking up from a chunk ends within the list. -/
theorem chain_parents (hn : (chunks.map Chunk.id).Nodup) (ha : Acyclic chunks) {steps : Nat}
    (h : chunks.length ≤ steps) (i : Nat) :
    Lineage.chain (parents chunks) steps i = Lineage.ancestors (parents chunks) i := by
  apply Lineage.chain_eq_ancestors (fun _ _ => isParent_lt hn) (positions_acyclic hn ha)
  rwa [parents, List.length_map]

/-- The position of the first chunk with an id. -/
def indexOf (chunks : List Chunk) (id : String) : Nat := chunks.findIdx fun c => c.id == id

theorem getElem?_indexOf (h : byId? chunks id = some c) :
    chunks[indexOf chunks id]? = some c ∧
      chunks.findIdx? (fun c => c.id == id) = some (indexOf chunks id) := by
  have hlt : indexOf chunks id < chunks.length := by
    rw [indexOf, List.findIdx_lt_length]
    exact ⟨c, (mem_of_byId? h).1, by simp [(mem_of_byId? h).2]⟩
  have hfind : chunks.findIdx? (fun c => c.id == id) = some (indexOf chunks id) :=
    List.findIdx?_eq_some_iff_findIdx_eq.mpr ⟨hlt, rfl⟩
  refine ⟨?_, hfind⟩
  rw [byId?, List.find?_eq_bind_findIdx?_getElem?, hfind] at h
  exact h

theorem indexOf_eq (hn : (chunks.map Chunk.id).Nodup) (h : chunks[i]? = some c) :
    indexOf chunks c.id = i := by
  obtain ⟨hlt, rfl⟩ := List.getElem?_eq_some_iff.mp h
  have hat := (getElem?_indexOf (byId?_eq_some hn (List.getElem_mem hlt))).1
  obtain ⟨hlt', he⟩ := List.getElem?_eq_some_iff.mp hat
  exact (List.Nodup.of_map _ hn).getElem_inj_iff.mp he

/-- A parent by id is a parent by position. -/
theorem isParent_indexOf {child : String} (h : IsParent chunks id child) :
    Lineage.IsParent (parents chunks) (indexOf chunks id) (indexOf chunks child) := by
  obtain ⟨hp, c, hc, hcp⟩ := h
  obtain ⟨q, hq⟩ := Option.isSome_iff_exists.mp hp
  unfold Lineage.IsParent parents
  rw [List.getElem?_map, (getElem?_indexOf hc).1, Option.map_some, hcp, Option.bind_some,
    (getElem?_indexOf hq).2]

/-- Where no chunk is above itself, walking up by position finds the chunks above one. -/
theorem isAncestor_parents (hn : (chunks.map Chunk.id).Nodup) (ha : Acyclic chunks) {q : Chunk}
    (hq : chunks[p]? = some q) (hc : chunks[i]? = some c) :
    Lineage.isAncestor (parents chunks) p i = true ↔
      Relation.TransGen (IsParent chunks) q.id c.id := by
  rw [Lineage.isAncestor_iff (fun _ _ => isParent_lt hn) (positions_acyclic hn ha)]
  constructor
  · intro h
    rw [← idAt_eq Chunk.id hq, ← idAt_eq Chunk.id hc]
    exact above_of_positions hn h
  · intro h
    rw [← indexOf_eq hn hq, ← indexOf_eq hn hc]
    exact h.lift (indexOf chunks) fun _ _ => isParent_indexOf

end Positions

end Resolution

end CodeAtlas
