import Mathlib.Data.List.Nodup
import CodeAtlas.Proofs.Source.WellFormed

/-!
The parts of a file with a well-formed tree. Any two of them are apart or one is a container around
the other, so that the declarations which belong to one container stand one after the other.
-/

namespace CodeAtlas.Source

open CodeAtlas.Source.Tree

namespace Language
variable {l : Language}

/-- A node is a container around a node that declares no package. -/
structure Holds (l : Language) (a b : Tree) : Prop where
  container : l.containerNode a = true
  around : encloses a b.first b.last = true
  plain : l.declaresPackage b = false

/-- Two nodes are apart or one holds the other. -/
def Compatible (l : Language) (a b : Tree) : Prop := Apart a b ∨ l.Holds a b ∨ l.Holds b a

theorem encloses_iff {a b : Tree} :
    encloses a b.first b.last = true ↔ Inside b a ∧ b.width < a.width := by
  simp only [encloses, Bool.and_eq_true, decide_eq_true_eq]
  exact Iff.rfl

theorem Compatible.symm {a b : Tree} (h : l.Compatible a b) : l.Compatible b a := by
  rcases h with (h | h) | h | h
  · exact Or.inl (Or.inr h)
  · exact Or.inl (Or.inl h)
  · exact Or.inr (Or.inr h)
  · exact Or.inr (Or.inl h)

mutual

theorem reached_sublist (l : Language) : (t : Tree) → (l.reached t).Sublist t.preorder
  | .node info children => by
    unfold reached
    split
    · exact List.nil_sublist _
    · refine List.Sublist.cons_cons _ ?_
      split
      · exact reachedAll_sublist l children
      · exact List.nil_sublist _

theorem reachedAll_sublist (l : Language) : (ts : List Tree) →
    (l.reachedAll ts).Sublist (preorderAll ts)
  | [] => .slnil
  | t :: ts => (reached_sublist l t).append (reachedAll_sublist l ts)

end

mutual

theorem named_of_mem_reached : (t : Tree) → {b : Tree} → b ∈ l.reached t → b.info.named = true
  | .node info children, b, hb => by
    unfold reached at hb
    split at hb
    · exact absurd hb List.not_mem_nil
    · rename_i hn
      rcases List.mem_cons.mp hb with rfl | hb
      · simpa [Tree.info] using hn
      · split at hb
        · exact named_of_mem_reachedAll children hb
        · exact absurd hb List.not_mem_nil

theorem named_of_mem_reachedAll : (ts : List Tree) → {b : Tree} → b ∈ l.reachedAll ts →
    b.info.named = true
  | [], _, hb => absurd hb List.not_mem_nil
  | t :: ts, _, hb => by
    rcases List.mem_append.mp hb with hb | hb
    · exact named_of_mem_reached t hb
    · exact named_of_mem_reachedAll ts hb

end

mutual

/-- Of two nodes that are reached, the former ends before the latter, or the latter is below it. -/
theorem reached_pairwise : (t : Tree) → Orderly l t.preorder →
    (l.reached t).Pairwise fun a b => Before a b ∨ (l.opens a = true ∧ b ∈ a.descendants)
  | .node info children, h => by
    unfold reached
    split
    · exact .nil
    · split
      · rename_i ho
        refine List.Pairwise.cons (fun b hb => Or.inr ⟨ho, ?_⟩) ?_
        · exact (reachedAll_sublist l children).subset hb
        · exact reachedAll_pairwise children h.descendants (h.ordered _ (mem_preorder_self _))
      · exact List.pairwise_singleton _ _

theorem reachedAll_pairwise : (ts : List Tree) → Orderly l (preorderAll ts) → ts.Pairwise Before →
    (l.reachedAll ts).Pairwise fun a b => Before a b ∨ (l.opens a = true ∧ b ∈ a.descendants)
  | [], _, _ => .nil
  | t :: ts, h, hp => by
    obtain ⟨ht, hts⟩ := List.pairwise_cons.mp hp
    refine List.pairwise_append.mpr ⟨reached_pairwise t h.head, reachedAll_pairwise ts h.tail hts,
      ?_⟩
    intro a ha b hb
    have hat := inside_of_mem_preorder t h.head ((reached_sublist l t).subset ha)
    obtain ⟨u, hu, hbu⟩ := inside_of_mem_preorderAll ts h.tail ((reachedAll_sublist l ts).subset hb)
    have htu : t.last ≤ u.first := ht u hu
    exact Or.inl (Nat.le_trans hat.2 (Nat.le_trans htu hbu.1))

end

/-- The nodes of a file that become chunks, in pre-order. -/
def roleNodes (l : Language) (root : Tree) : List Tree :=
  (l.reachedAll root.children).filter l.hasRole

theorem roleNodes_sublist (l : Language) (root : Tree) :
    (l.roleNodes root).Sublist (root.preorder.filter l.hasRole) := by
  refine List.Sublist.filter _ ((reachedAll_sublist l root.children).trans ?_)
  rw [preorder_eq]
  exact List.sublist_cons_self _ _

section WellFormed
variable {size : Nat} {root : Tree}

theorem mem_preorder_of_mem_roleNodes {t : Tree} (ht : t ∈ l.roleNodes root) :
    t ∈ root.preorder ∧ l.hasRole t = true :=
  List.mem_filter.mp ((roleNodes_sublist l root).subset ht)

theorem nonempty_of_mem_roleNodes (h : WellFormed l size root) {t : Tree}
    (ht : t ∈ l.roleNodes root) : t.first < t.last :=
  h.nonempty t (mem_preorder_of_mem_roleNodes ht).1 (mem_preorder_of_mem_roleNodes ht).2

theorem containerNode_of_opens {t : Tree} (hr : l.hasRole t = true) (ho : l.opens t = true) :
    l.containerNode t = true := by
  simp only [hasRole, opens, containerNode, Bool.and_eq_true, Bool.or_eq_true, Bool.not_eq_true']
    at *
  simp_all

/-- A node with a role is apart from a later one, or it is a container around it. -/
theorem roleNodes_pairwise (h : WellFormed l size root) :
    (l.roleNodes root).Pairwise fun a b => Before a b ∨ l.Holds a b := by
  have horder : (l.reachedAll root.children).Pairwise
      fun a b => Before a b ∨ (l.opens a = true ∧ b ∈ a.descendants) :=
    reachedAll_pairwise root.children h.toOrderly.descendants (h.ordered _ (mem_preorder_self _))
  have hdistinct := h.distinct.sublist (roleNodes_sublist l root)
  refine ((horder.filter _).and hdistinct).imp_of_mem ?_
  rintro a b ha hb ⟨hab | ⟨ho, hd⟩, hs⟩
  · exact Or.inl hab
  · obtain ⟨hat, har⟩ := mem_preorder_of_mem_roleNodes ha
    have hc := containerNode_of_opens har ho
    have hi : Inside b a :=
      inside_of_mem_descendants (h.toOrderly.sublist (preorder_sublist root hat)) hd
    have hb := nonempty_of_mem_roleNodes h hb
    have hp : l.isPrimary a.kind = true := (Bool.and_eq_true_iff.mp hc).2
    refine Or.inr ⟨hc, ?_, h.packages a hat hp b hd⟩
    have hw : b.width < a.width := by
      unfold SameSpan at hs
      unfold Inside at hi
      unfold width
      omega
    exact encloses_iff.mpr ⟨hi, hw⟩

theorem roleNodes_nodup (h : WellFormed l size root) : (l.roleNodes root).Nodup :=
  by
  refine (h.distinct.sublist (roleNodes_sublist l root)).imp ?_
  rintro a _ hs rfl
  exact hs ⟨rfl, rfl⟩

theorem compatible_of_mem (h : WellFormed l size root) {a b : Tree} (ha : a ∈ l.roleNodes root)
    (hb : b ∈ l.roleNodes root) (hne : a ≠ b) : l.Compatible a b := by
  have hp : (l.roleNodes root).Pairwise l.Compatible := by
    refine (roleNodes_pairwise h).imp ?_
    rintro a b (hab | hab)
    · exact Or.inl (Or.inl hab)
    · exact Or.inr (Or.inl hab)
  have : Std.Symm l.Compatible := ⟨fun _ _ => Compatible.symm⟩
  exact hp.forall ha hb hne

theorem filter_roleNodes {p : Tree → Bool} (root : Tree)
    (hp : ∀ t, t.info.named = true → p t = true → l.hasRole t = true) :
    (l.roleNodes root).filter p = (l.reachedAll root.children).filter p := by
  rw [roleNodes, List.filter_filter]
  refine List.filter_congr fun t ht => ?_
  cases hq : p t with
  | false => rfl
  | true => rw [hp t (named_of_mem_reachedAll _ ht) hq, Bool.and_self]

end WellFormed

end Language

namespace Parts
variable {l : Language} {p : Parts}

def all (p : Parts) : List Tree := p.contexts ++ (p.primaries ++ p.secondaries)

/-- The parts of a well-formed tree: named nodes that are not empty, without repetitions, of the
kinds they are listed under, and any two of them apart or one in the other. -/
structure Sound (l : Language) (p : Parts) : Prop where
  contexts : p.contexts.Nodup ∧ ∀ t ∈ p.contexts, l.contextNode t = true
  primaries : p.primaries.Nodup ∧ ∀ t ∈ p.primaries, l.containerNode t = true
  secondaries : p.secondaries.Nodup ∧ ∀ t ∈ p.secondaries, l.memberNode t = true
  named : ∀ t ∈ p.all, t.info.named = true
  nonempty : ∀ t ∈ p.all, t.first < t.last
  compatible : ∀ a ∈ p.all, ∀ b ∈ p.all, a ≠ b → l.Compatible a b

theorem sorted_perm (ts : List Tree) : (sorted ts).Perm ts := List.mergeSort_perm ts _

theorem ofRoot_contexts_perm (l : Language) (root : Tree) :
    (ofRoot l root).contexts.Perm ((l.roleNodes root).filter l.contextNode) := by
  rw [Language.filter_roleNodes root (by simp_all [Language.contextNode, Language.hasRole])]
  simpa [ofRoot, ofTrees_eq_among, among] using sorted_perm _

theorem ofRoot_primaries_perm (l : Language) (root : Tree) :
    (ofRoot l root).primaries.Perm ((l.roleNodes root).filter l.containerNode) := by
  rw [Language.filter_roleNodes root (by simp_all [Language.containerNode, Language.hasRole])]
  simpa [ofRoot, ofTrees_eq_among, among] using sorted_perm _

theorem ofRoot_secondaries_perm (l : Language) (root : Tree) :
    (ofRoot l root).secondaries.Perm ((l.roleNodes root).filter l.memberNode) := by
  rw [Language.filter_roleNodes root (by simp_all [Language.memberNode, Language.hasRole])]
  simpa [ofRoot, ofTrees_eq_among, among] using sorted_perm _

theorem mem_roleNodes_of_mem_all {root t : Tree} (ht : t ∈ (ofRoot l root).all) :
    t ∈ l.roleNodes root := by
  simp only [all, List.mem_append, (ofRoot_contexts_perm l root).mem_iff,
    (ofRoot_primaries_perm l root).mem_iff, (ofRoot_secondaries_perm l root).mem_iff,
    List.mem_filter] at ht
  rcases ht with ht | ht | ht <;> exact ht.1

theorem ofRoot_sound {size : Nat} {root : Tree} (h : WellFormed l size root) :
    (ofRoot l root).Sound l := by
  have hn := Language.roleNodes_nodup h
  have hc := ofRoot_contexts_perm l root
  have hp := ofRoot_primaries_perm l root
  have hs := ofRoot_secondaries_perm l root
  refine ⟨⟨hc.nodup_iff.mpr (hn.filter _), fun t ht => ?_⟩,
    ⟨hp.nodup_iff.mpr (hn.filter _), fun t ht => ?_⟩,
    ⟨hs.nodup_iff.mpr (hn.filter _), fun t ht => ?_⟩, fun t ht => ?_, fun t ht =>
      ?_, fun a ha b hb hne => ?_⟩
  · exact (List.mem_filter.mp (hc.mem_iff.mp ht)).2
  · exact (List.mem_filter.mp (hp.mem_iff.mp ht)).2
  · exact (List.mem_filter.mp (hs.mem_iff.mp ht)).2
  · exact Language.named_of_mem_reachedAll _ (List.mem_filter.mp (mem_roleNodes_of_mem_all ht)).1
  · exact Language.nonempty_of_mem_roleNodes h (mem_roleNodes_of_mem_all ht)
  · exact Language.compatible_of_mem h (mem_roleNodes_of_mem_all ha)
      (mem_roleNodes_of_mem_all hb) hne

end Parts

end CodeAtlas.Source
