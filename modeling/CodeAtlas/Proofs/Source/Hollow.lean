import CodeAtlas.Proofs.Source.Alike
import CodeAtlas.Source.Heritage

/-!
Trees with nothing below their members. Such a tree has the same parts, with the same spans. A
pattern with one branch captures in it what it captures in the whole tree, but for what lies inside
a member.
-/

namespace CodeAtlas.Source

open CodeAtlas.Source.Tree

mutual

/-- A tree with nothing below the members that are collected from it. -/
def Language.hollow (l : Language) : Tree → Tree
  | .node info children =>
    if !info.named || l.isContext info.kind then .node info children
    else if l.isSecondary info.kind then .node info []
    else .node info (l.hollowAll children)

def Language.hollowAll (l : Language) : List Tree → List Tree
  | [] => []
  | t :: ts => l.hollow t :: l.hollowAll ts

end

def Language.hollowRoot (l : Language) (root : Tree) : Tree :=
  .node root.info (l.hollowAll root.children)

namespace Language

theorem info_hollow (l : Language) (t : Tree) : (l.hollow t).info = t.info := by
  cases t with
  | node info children =>
    unfold Language.hollow
    split
    · rfl
    · split <;> rfl

theorem hollowAll_eq (l : Language) (ts : List Tree) : l.hollowAll ts = ts.map l.hollow := by
  induction ts with
  | nil => rfl
  | cons t ts ih => rw [Language.hollowAll, ih, List.map_cons]

/-- A tree is left as it is, or it is a member and loses its children, or its children become
hollow. -/
theorem hollow_cases (l : Language) (info : NodeInfo) (children : List Tree) :
    l.hollow (.node info children) = .node info children ∨
    (l.hollow (.node info children) = .node info [] ∧
      ∀ ts, Parts.ofTree l (.node info ts) = { secondaries := [.node info ts] }) ∨
    (l.hollow (.node info children) = .node info (l.hollowAll children) ∧
      ∀ ts, Parts.ofTree l (.node info ts) =
        Parts.append { primaries := if l.isPrimary info.kind then [.node info ts] else [] }
            (Parts.ofTrees l ts)) := by
  unfold hollow Parts.ofTree
  by_cases hn : info.named
  · by_cases hc : l.isContext info.kind
    · exact Or.inl (by simp [hc])
    · by_cases hs : l.isSecondary info.kind
      · exact Or.inr (Or.inl (by simp [hn, hc, hs]))
      · refine Or.inr (Or.inr ⟨by simp [hn, hc, hs], fun ts => ?_⟩)
        simp only [hn, hc, hs, Bool.not_true, Bool.false_eq_true, if_false]
        split <;> rfl
  · exact Or.inl (by simp [hn])

end Language

def Below (members : List Tree) (t : Tree) : Prop := ∃ m ∈ members, t ∈ m.descendants

namespace Parts
variable {l : Language}

mutual

theorem ofTree_hollow (l : Language) : (t : Tree) → Alike (ofTree l (l.hollow t)) (ofTree l t)
  | .node info children => by
    rcases l.hollow_cases info children with h | ⟨h, hp⟩ | ⟨h, hp⟩
    · rw [h]
      exact ⟨rfl, rfl, rfl⟩
    · rw [h, hp, hp]
      exact ⟨rfl, rfl, rfl⟩
    · rw [h, hp, hp]
      refine Alike.append (Alike.mk rfl ?_ rfl) (ofTrees_hollow l children)
      dsimp only
      split <;> rfl

theorem ofTrees_hollow (l : Language) :
    (ts : List Tree) → Alike (ofTrees l (l.hollowAll ts)) (ofTrees l ts)
  | [] => ⟨rfl, rfl, rfl⟩
  | t :: ts => (ofTree_hollow l t).append (ofTrees_hollow l ts)

end

/-- A hollow tree has the parts of the whole tree, at the same places. -/
theorem ofRoot_hollowRoot (l : Language) (root : Tree) :
    Alike (ofRoot l (l.hollowRoot root)) (ofRoot l root) := by
  have h := ofTrees_hollow l root.children
  exact ⟨map_info_sorted h.contexts, map_info_sorted h.primaries, map_info_sorted h.secondaries⟩

theorem secondaries_subset {t : Tree} {ts : List Tree} (h : t ∈ ts) :
    (ofTree l t).secondaries ⊆ (ofTrees l ts).secondaries := by
  induction ts with
  | nil => exact absurd h List.not_mem_nil
  | cons u ts ih =>
    show _ ⊆ (ofTree l u).secondaries ++ (ofTrees l ts).secondaries
    rcases List.mem_cons.mp h with rfl | h
    · exact List.subset_append_left _ _
    · exact List.subset_append_of_subset_right _ (ih h)

end Parts

/-- Whether the second list is what remains of the first one when some elements are gone; of those
that remain only the heads are the same. -/
inductive Sifted {α β : Type} (gone : α → Prop) (head : α → β) : List α → List α → Prop where
  | nil : Sifted gone head [] []
  | drop {x : α} {xs ys : List α} : gone x → Sifted gone head xs ys → Sifted gone head (x :: xs) ys
  | keep {x y : α} {xs ys : List α} : head x = head y → Sifted gone head xs ys →
      Sifted gone head (x :: xs) (y :: ys)

namespace Sifted
variable {α β : Type} {gone : α → Prop} {head : α → β} {xs ys xs' ys' : List α}

theorem refl (xs : List α) : Sifted gone head xs xs := by
  induction xs with
  | nil => exact .nil
  | cons x xs ih => exact .keep rfl ih

theorem of_forall (h : ∀ x ∈ xs, gone x) : Sifted gone head xs [] := by
  induction xs with
  | nil => exact .nil
  | cons x xs ih =>
    exact .drop (h x List.mem_cons_self) (ih fun y hy => h y (List.mem_cons_of_mem x hy))

theorem append (h : Sifted gone head xs ys) (h' : Sifted gone head xs' ys') :
    Sifted gone head (xs ++ xs') (ys ++ ys') := by
  induction h with
  | nil => exact h'
  | drop hx _ ih => exact .drop hx ih
  | keep hxy _ ih => exact .keep hxy ih

theorem flatMap {γ : Type} {f g : γ → List α} {cs : List γ}
    (h : ∀ c ∈ cs, Sifted gone head (f c) (g c)) :
    Sifted gone head (cs.flatMap f) (cs.flatMap g) := by
  induction cs with
  | nil => exact .nil
  | cons c cs ih =>
    rw [List.flatMap_cons, List.flatMap_cons]
    exact (h c List.mem_cons_self).append (ih fun d hd => h d (List.mem_cons_of_mem c hd))

theorem map {α' β' : Type} {gone' : α' → Prop} {head' : α' → β'} {f : α → α'}
    (hgone : ∀ x, gone x → gone' (f x)) (hhead : ∀ x y, head x = head y → head' (f x) = head' (f y))
    (h : Sifted gone head xs ys) : Sifted gone' head' (xs.map f) (ys.map f) := by
  induction h with
  | nil => exact .nil
  | drop hx _ ih => exact .drop (hgone _ hx) ih
  | keep hxy _ ih => exact .keep (hhead _ _ hxy) ih

/-- A choice by the heads that takes nothing that is gone takes the same heads from both lists. -/
theorem map_filter {p q : α → Bool} (hpq : ∀ x y, head x = head y → p x = q y)
    (h : Sifted gone head xs ys) (hgone : ∀ x ∈ xs, gone x → p x = false) :
    (xs.filter p).map head = (ys.filter q).map head := by
  induction h with
  | nil => rfl
  | drop hx _ ih =>
    rw [List.filter_cons_of_neg (by simp [hgone _ List.mem_cons_self hx])]
    exact ih fun x hm => hgone x (List.mem_cons_of_mem _ hm)
  | @keep x y xs ys hxy _ ih =>
    have hrest := ih fun x hm => hgone x (List.mem_cons_of_mem _ hm)
    rw [List.filter_cons, List.filter_cons, hpq x y hxy]
    split
    · rw [List.map_cons, List.map_cons, hxy, hrest]
    · exact hrest

end Sifted

section Captures
variable {l : Language} {members : List Tree} {p : Pattern} {b : Branch}

theorem mem_preorderAll {ts : List Tree} {t : Tree} :
    t ∈ preorderAll ts ↔ ∃ u ∈ ts, t ∈ u.preorder := by
  induction ts with
  | nil => simp [preorderAll]
  | cons u ts ih => simp [preorderAll, ih]

def Capture.head (c : Capture) : Role × NodeInfo := (c.role, c.node.info)

theorem mem_preorder_of_mem_ends {steps : List Step} {t e : Tree} (h : e ∈ Pattern.ends steps t) :
    e ∈ t.preorder := by
  induction steps generalizing t with
  | nil =>
    obtain rfl := List.mem_singleton.mp h
    exact mem_preorder_self e
  | cons s steps ih =>
    obtain ⟨c, hc, he⟩ := List.mem_flatMap.mp h
    rw [preorder_eq]
    exact List.mem_cons_of_mem t (mem_preorderAll.mpr ⟨c, List.mem_of_mem_filter hc, ih he⟩)

theorem mem_descendants_of_mem_ends {s : Step} {steps : List Step} {t e : Tree}
    (h : e ∈ Pattern.ends (s :: steps) t) : e ∈ t.descendants := by
  obtain ⟨c, hc, he⟩ := List.mem_flatMap.mp h
  exact mem_preorderAll.mpr ⟨c, List.mem_of_mem_filter hc, mem_preorder_of_mem_ends he⟩

/-- From a node on, whose children become hollow, paths lead to the same nodes as long as they do so
from the children. -/
theorem sifted_ends_cons {s : Step} {steps : List Step} {info : NodeInfo} {children : List Tree}
    (h : ∀ c ∈ children, Sifted (Below members) Tree.info (Pattern.ends steps c)
      (Pattern.ends steps (l.hollow c))) :
    Sifted (Below members) Tree.info (Pattern.ends (s :: steps) (.node info children))
      (Pattern.ends (s :: steps) (.node info (l.hollowAll children))) := by
  have haccepts : s.accepts ∘ l.hollow = s.accepts := by
    funext t
    simp only [Function.comp_apply, Step.accepts, Tree.kind, Language.info_hollow]
  have hhollow : Pattern.ends (s :: steps) (.node info (l.hollowAll children)) =
      (children.filter s.accepts).flatMap fun c => Pattern.ends steps (l.hollow c) := by
    rw [Pattern.ends, Tree.children, Language.hollowAll_eq, List.filter_map, haccepts,
      List.flatMap_map]
  rw [hhollow]
  exact Sifted.flatMap fun c hc => h c (List.mem_of_mem_filter hc)

theorem sifted_ends (steps : List Step) (t : Tree)
    (hmem : (Parts.ofTree l t).secondaries ⊆ members) :
    Sifted (Below members) Tree.info (Pattern.ends steps t) (Pattern.ends steps (l.hollow t)) := by
  induction steps generalizing t with
  | nil => exact .keep (l.info_hollow t).symm .nil
  | cons s steps ih =>
    obtain ⟨info, children⟩ := t
    rcases l.hollow_cases info children with h | ⟨h, hp⟩ | ⟨h, hp⟩
    · rw [h]
      exact .refl _
    -- a member has children that are all gone
    · rw [h]
      apply Sifted.of_forall
      intro e he
      have hm : Tree.node info children ∈ members :=
        hmem (by rw [hp]; exact List.mem_singleton_self _)
      exact ⟨_, hm, mem_descendants_of_mem_ends he⟩
    · rw [h]
      apply sifted_ends_cons
      intro c hc
      rw [hp] at hmem
      exact ih c fun m hm => hmem (Parts.secondaries_subset hc hm)

theorem flatten_matchesAt (hb : p.branches = [b]) (t : Tree) : (p.matchesAt t).flatten =
    if t.info.named && t.kind == p.kind then (Pattern.ends b.steps t).map (Capture.mk b.role)
      else [] := by
  unfold Pattern.matchesAt
  split
  · rw [hb, Pattern.choices, List.map_eq_flatMap, ← List.flatMap_id, List.flatMap_assoc]
    rfl
  · rfl

theorem sifted_matchesAt (hb : p.branches = [b]) {t u : Tree} (hinfo : t.info = u.info)
    (h : Sifted (Below members) Tree.info (Pattern.ends b.steps t) (Pattern.ends b.steps u)) :
    Sifted (Below members ∘ Capture.node) Capture.head (p.matchesAt t).flatten
      (p.matchesAt u).flatten := by
  rw [flatten_matchesAt hb, flatten_matchesAt hb, Tree.kind, Tree.kind, hinfo]
  split
  · exact h.map (fun _ hx => hx) fun x y hxy => congrArg (Prod.mk b.role) hxy
  · exact .nil

theorem flatten_matchesIn (p : Pattern) (t : Tree) :
    (p.matchesIn t).flatten = t.preorder.flatMap fun u => (p.matchesAt u).flatten := by
  rw [Pattern.matchesIn, ← List.flatMap_id, List.flatMap_assoc]
  simp only [List.flatMap_id]

/-- What is captured from a node inside a member on lies inside the member too. -/
theorem below_of_mem_matchesAt (hb : p.branches = [b]) {m t : Tree} (hm : m ∈ members)
    (ht : t ∈ m.descendants) {c : Capture} (hc : c ∈ (p.matchesAt t).flatten) :
    Below members c.node := by
  rw [flatten_matchesAt hb] at hc
  split at hc
  · obtain ⟨e, he, rfl⟩ := List.mem_map.mp hc
    exact ⟨m, hm, (preorder_sublist_preorderAll m.children ht).subset (mem_preorder_of_mem_ends he)⟩
  · exact absurd hc List.not_mem_nil

mutual

theorem sifted_matchesIn (hb : p.branches = [b]) :
    (t : Tree) → (Parts.ofTree l t).secondaries ⊆ members →
    Sifted (Below members ∘ Capture.node) Capture.head (p.matchesIn t).flatten
      (p.matchesIn (l.hollow t)).flatten
  | .node info children, hmem => by
    have hself :=
      sifted_matchesAt hb (l.info_hollow _).symm (sifted_ends b.steps (.node info children) hmem)
    rcases l.hollow_cases info children with h | ⟨h, hp⟩ | ⟨h, hp⟩
    · rw [h]
      exact .refl _
    · rw [h] at hself ⊢
      rw [flatten_matchesIn, flatten_matchesIn, preorder, preorder, List.flatMap_cons,
        List.flatMap_cons]
      apply hself.append
      apply Sifted.of_forall
      intro c hc
      obtain ⟨u, hu, hc⟩ := List.mem_flatMap.mp hc
      rw [hp] at hmem
      exact below_of_mem_matchesAt hb (hmem (List.mem_singleton_self _)) hu hc
    · rw [h] at hself ⊢
      rw [flatten_matchesIn, flatten_matchesIn, preorder, preorder, List.flatMap_cons,
        List.flatMap_cons]
      rw [hp] at hmem
      exact hself.append (sifted_matchesInAll hb children hmem)

theorem sifted_matchesInAll (hb : p.branches = [b]) : (ts : List Tree) →
    (Parts.ofTrees l ts).secondaries ⊆ members →
    Sifted (Below members ∘ Capture.node) Capture.head
      ((preorderAll ts).flatMap fun u => (p.matchesAt u).flatten)
      ((preorderAll (l.hollowAll ts)).flatMap fun u => (p.matchesAt u).flatten)
  | [], _ => .nil
  | t :: ts, hmem => by
    have hmem' : (Parts.ofTree l t).secondaries ++ (Parts.ofTrees l ts).secondaries ⊆ members :=
      hmem
    obtain ⟨ht, hts⟩ := List.append_subset.mp hmem'
    have hfirst := sifted_matchesIn hb t ht
    rw [flatten_matchesIn, flatten_matchesIn] at hfirst
    rw [Language.hollowAll, preorderAll, preorderAll, List.flatMap_append, List.flatMap_append]
    exact hfirst.append (sifted_matchesInAll hb ts hts)

end

/-- What a pattern with one branch captures in a file, but for what lies inside its members, it
captures in the hollow tree. -/
theorem sifted_hollowRoot (hb : p.branches = [b]) (root : Tree) :
    Sifted (Below (Parts.ofRoot l root).secondaries ∘ Capture.node) Capture.head
      (p.matchesIn root).flatten (p.matchesIn (l.hollowRoot root)).flatten := by
  obtain ⟨info, children⟩ := root
  have hmem : (Parts.ofTrees l children).secondaries ⊆
      (Parts.ofRoot l (.node info children)).secondaries :=
    fun m hm => List.mem_mergeSort.mpr hm
  have hends : Sifted (Below (Parts.ofRoot l (.node info children)).secondaries) Tree.info
      (Pattern.ends b.steps (.node info children))
          (Pattern.ends b.steps (.node info (l.hollowAll children))) := by
    cases b.steps with
    | nil => exact .keep rfl .nil
    | cons s steps =>
      apply sifted_ends_cons
      intro c hc
      exact sifted_ends steps c fun m hm => hmem (Parts.secondaries_subset hc hm)
  rw [flatten_matchesIn, flatten_matchesIn, Language.hollowRoot, preorder, preorder,
    List.flatMap_cons, List.flatMap_cons]
  have hself :=
    sifted_matchesAt hb (t := .node info children) (u := .node info (l.hollowAll children)) rfl
    hends
  exact hself.append (sifted_matchesInAll hb children hmem)

end Captures

end CodeAtlas.Source
