import Mathlib.Algebra.Order.BigOperators.Group.List
import Mathlib.Algebra.Order.Group.Nat
import CodeAtlas.Proofs.Source.Layout

/-!
Declarations and the containers above them. The narrowest container around the span of a declaration
is the nearest one on the way to it from the root, so that blocks nest as the nodes of the tree do,
and every declaration stands in one of them.
-/

namespace CodeAtlas.Source

open CodeAtlas.Source.Tree

mutual

/-- The named nodes of a tree that are reached from above without passing through an import or a
member, in pre-order, each with the nearest node of a primary kind above it. -/
def Language.placed (l : Language) (above : Option Tree) : Tree → List (Tree × Option Tree)
  | .node info children =>
    if !info.named then []
    else (.node info children, above) ::
      if l.opens (.node info children) then
        l.placedAll (if l.isPrimary info.kind then some (.node info children) else above) children
      else []

def Language.placedAll (l : Language) (above : Option Tree) : List Tree → List (Tree × Option Tree)
  | [] => []
  | t :: ts => l.placed above t ++ l.placedAll above ts

end

/-- The nodes of a file that become chunks, in pre-order, each with the nearest node of a primary
kind above it. -/
def Language.placements (l : Language) (root : Tree) : List (Tree × Option Tree) :=
  (l.placedAll none root.children).filter fun x => l.hasRole x.1

namespace Language
variable {l : Language}

mutual

theorem map_fst_placed (l : Language) : (above : Option Tree) → (t : Tree) →
    (l.placed above t).map Prod.fst = l.reached t
  | above, .node info children => by
    unfold placed reached
    split
    · rfl
    · split
      · rw [List.map_cons, map_fst_placedAll l _ children]
      · rfl

theorem map_fst_placedAll (l : Language) : (above : Option Tree) → (ts : List Tree) →
    (l.placedAll above ts).map Prod.fst = l.reachedAll ts
  | _, [] => rfl
  | above, t :: ts => by
    rw [placedAll, reachedAll, List.map_append, map_fst_placed l above t,
      map_fst_placedAll l above ts]

end

/-- Whether a node is, of some containers, in the one given as the nearest and in no narrower one;
where it is in none of them, what is above them all is the nearest. -/
def Nearest (containers : List Tree) (above : Option Tree) (x : Tree × Option Tree) : Prop :=
  (x.2 = above ∧ ∀ r ∈ containers, encloses r x.1.first x.1.last = false) ∨
    ∃ q ∈ containers, x.2 = some q ∧ encloses q x.1.first x.1.last = true ∧
      ∀ r ∈ containers, encloses r x.1.first x.1.last = true → r = q ∨ q.width < r.width

/-- Containers that the node is not in do not matter. -/
theorem Nearest.widen {containers more : List Tree} {above : Option Tree} {x : Tree × Option Tree}
    (h : Nearest containers above x) (hsub : containers ⊆ more)
    (hnot : ∀ r ∈ more, r ∈ containers ∨ encloses r x.1.first x.1.last = false) :
    Nearest more above x := by
  rcases h with ⟨hx, hnone⟩ | ⟨q, hq, hxq, hqx, hleast⟩
  · exact Or.inl ⟨hx, fun r hr => (hnot r hr).elim (hnone r) id⟩
  · refine Or.inr ⟨q, hsub hq, hxq, hqx, fun r hr he => ?_⟩
    cases hnot r hr with
    | inl hr => exact hleast r hr he
    | inr hne => exact absurd he (ne_true_of_eq_false hne)

/-- A container around others is the nearest where none of the others is. -/
theorem Nearest.below {containers : List Tree} {above : Option Tree} {t : Tree}
    {x : Tree × Option Tree} (h : Nearest containers (some t) x)
    (ht : encloses t x.1.first x.1.last = true) (hw : ∀ r ∈ containers, r.width < t.width) :
    Nearest (t :: containers) above x := by
  rcases h with ⟨hx, hnone⟩ | ⟨q, hq, hxq, hqx, hleast⟩
  · refine Or.inr ⟨t, List.mem_cons_self, hx, ht, fun r hr he => ?_⟩
    cases List.mem_cons.mp hr with
    | inl hr => exact Or.inl hr
    | inr hr => exact absurd he (ne_true_of_eq_false (hnone r hr))
  · refine Or.inr ⟨q, List.mem_cons_of_mem _ hq, hxq, hqx, fun r hr he => ?_⟩
    cases List.mem_cons.mp hr with
    | inl hr => exact Or.inr (hr ▸ hw q hq)
    | inr hr => exact hleast r hr he

theorem Nearest.mem {containers : List Tree} {x : Tree × Option Tree} {q : Tree}
    (h : Nearest containers none x) (hq : x.2 = some q) : q ∈ containers := by
  rcases h with ⟨hx, -⟩ | ⟨q', hq', hx, -⟩
  · exact absurd (hx.symm.trans hq) nofun
  · rwa [Option.some.inj (hq.symm.trans hx)]

theorem not_encloses_of_inside {r t : Tree} (h : Inside r t) (hr : r.first ≤ r.last) :
    encloses r t.first t.last = false := by
  by_contra he
  obtain ⟨hi, hw⟩ := encloses_iff.mp (eq_true_of_ne_false he)
  unfold Inside at h hi
  unfold width at hw
  omega

/-- A node is in no container that is apart from another one around the node. -/
theorem not_encloses_of_before {r b t u : Tree} (hb : b.first < b.last) (hbt : Inside b t)
    (hru : Inside r u) (h : Before t u ∨ Before u t) : encloses r b.first b.last = false := by
  by_contra he
  obtain ⟨hi, -⟩ := encloses_iff.mp (eq_true_of_ne_false he)
  unfold Inside at hbt hru hi
  unfold Before at h
  omega

theorem mem_reached_of_mem_placed {above : Option Tree} {t : Tree} {x : Tree × Option Tree}
    (h : x ∈ l.placed above t) : x.1 ∈ l.reached t := by
  rw [← map_fst_placed l above t]
  exact List.mem_map_of_mem h

theorem mem_reachedAll_of_mem_placedAll {above : Option Tree} {ts : List Tree}
    {x : Tree × Option Tree} (h : x ∈ l.placedAll above ts) : x.1 ∈ l.reachedAll ts := by
  rw [← map_fst_placedAll l above ts]
  exact List.mem_map_of_mem h

theorem encloses_of_descendant {t b : Tree} (h : Orderly l t.preorder) (hb : b ∈ t.descendants)
    (hrole : l.hasRole t = true) (hbrole : l.hasRole b = true) :
    encloses t b.first b.last = true := by
  have hi := inside_of_mem_descendants h hb
  have hdistinct := h.distinct
  rw [preorder_eq, List.filter_cons_of_pos hrole, List.pairwise_cons] at hdistinct
  have hs := hdistinct.1 b (List.mem_filter.mpr ⟨hb, hbrole⟩)
  have hspan := h.span b (by rw [preorder_eq]; exact List.mem_cons_of_mem t hb)
  apply encloses_iff.mpr
  refine ⟨hi, ?_⟩
  unfold SameSpan at hs
  unfold Inside at hi
  unfold width
  omega

theorem hasRole_of_containerNode {t : Tree} (hn : t.info.named = true)
    (h : l.containerNode t = true) : l.hasRole t = true := by
  simp only [containerNode, Bool.and_eq_true] at h
  simp [hasRole, hn, h.2]

/-- A node is in nothing that is below it. -/
theorem nearest_self {t : Tree} (h : Orderly l t.preorder) (above : Option Tree) :
    Nearest ((l.reached t).filter l.containerNode) above (t, above) := by
  refine Or.inl ⟨rfl, fun r hr => ?_⟩
  have hr := (reached_sublist l t).subset (List.mem_filter.mp hr).1
  exact not_encloses_of_inside (inside_of_mem_preorder t h hr) (h.span r hr)

/-- A container stands above what is reached through it and is in no other container. -/
theorem Nearest.through {info : NodeInfo} {children : List Tree} {above : Option Tree}
    {x : Tree × Option Tree} (h : Orderly l (node info children).preorder) (hn : info.named = true)
    (ho : l.opens (.node info children) = true) (hmem : x.1 ∈ l.reachedAll children)
    (hrole : l.hasRole x.1 = true) (hx : Nearest ((l.reachedAll children).filter l.containerNode)
      (if l.isPrimary info.kind then some (.node info children) else above) x) :
    Nearest ((.node info children :: l.reachedAll children).filter l.containerNode) above x := by
  have hbelow := (reachedAll_sublist l children).subset
  by_cases hp : l.isPrimary info.kind = true
  · have hc : l.containerNode (.node info children) = true := by
      rw [containerNode, ho]
      exact hp
    have hself : l.hasRole (.node info children) = true := hasRole_of_containerNode hn hc
    rw [List.filter_cons_of_pos hc]
    rw [if_pos hp] at hx
    apply hx.below (encloses_of_descendant h (hbelow hmem) hself hrole)
    intro r hr
    obtain ⟨hr, hrc⟩ := List.mem_filter.mp hr
    have hrrole := hasRole_of_containerNode (named_of_mem_reachedAll children hr) hrc
    exact (encloses_iff.mp (encloses_of_descendant h (hbelow hr) hself hrrole)).2
  · have hc : l.containerNode (.node info children) ≠ true := by
      rw [containerNode, ho]
      exact hp
    rw [List.filter_cons_of_neg hc]
    rwa [if_neg hp] at hx

mutual

/-- The walk knows of each node the nearest container. -/
theorem placed_nearest : (t : Tree) → Orderly l t.preorder → (above : Option Tree) →
    ∀ x ∈ l.placed above t, l.hasRole x.1 = true →
      Nearest ((l.reached t).filter l.containerNode) above x
  | .node info children, h, above, x, hx, hrole => by
    have hself := nearest_self h above
    unfold placed at hx
    unfold reached at hself ⊢
    split at hx
    · exact absurd hx List.not_mem_nil
    · rename_i hn
      rw [if_neg hn] at hself ⊢
      cases List.mem_cons.mp hx with
      | inl hx => exact hx ▸ hself
      | inr hbelow =>
        by_cases ho : l.opens (.node info children) = true
        · rw [if_pos ho] at hbelow ⊢
          exact Nearest.through h (by simpa using hn) ho
            (mem_reachedAll_of_mem_placedAll hbelow) hrole
            (placedAll_nearest children h.descendants (h.ordered _ (mem_preorder_self _)) _ x
              hbelow hrole)
        · rw [if_neg ho] at hbelow
          exact absurd hbelow List.not_mem_nil

theorem placedAll_nearest : (ts : List Tree) → Orderly l (preorderAll ts) → ts.Pairwise Before →
    (above : Option Tree) → ∀ x ∈ l.placedAll above ts, l.hasRole x.1 = true →
      Nearest ((l.reachedAll ts).filter l.containerNode) above x
  | [], _, _, _, x, hx, _ => absurd hx List.not_mem_nil
  | t :: ts, h, hp, above, x, hx, hrole => by
    obtain ⟨ht, hts⟩ := List.pairwise_cons.mp hp
    rw [reachedAll, List.filter_append]
    have hinside : ∀ r ∈ (l.reachedAll ts).filter l.containerNode, ∃ u ∈ ts, Inside r u :=
      fun r hr =>
      inside_of_mem_preorderAll ts h.tail
        ((reachedAll_sublist l ts).subset (List.mem_filter.mp hr).1)
    have hfirst : ∀ r ∈ (l.reached t).filter l.containerNode, Inside r t := fun r hr =>
      inside_of_mem_preorder t h.head ((reached_sublist l t).subset (List.mem_filter.mp hr).1)
    cases List.mem_append.mp hx with
    | inl hx =>
      have hm := (reached_sublist l t).subset (mem_reached_of_mem_placed hx)
      have hnonempty := h.head.nonempty x.1 hm hrole
      have hapart : ∀ r ∈ (l.reachedAll ts).filter l.containerNode, encloses r x.1.first x.1.last =
          false := by
        intro r hr
        obtain ⟨u, hu, hru⟩ := hinside r hr
        exact not_encloses_of_before hnonempty (inside_of_mem_preorder t h.head hm) hru
          (Or.inl (ht u hu))
      apply (placed_nearest t h.head above x hx hrole).widen (List.subset_append_left _ _)
      exact fun r hr => (List.mem_append.mp hr).imp id (hapart r)
    | inr hx =>
      have hm := (reachedAll_sublist l ts).subset (mem_reachedAll_of_mem_placedAll hx)
      have hnonempty := h.tail.nonempty x.1 hm hrole
      obtain ⟨u, hu, hxu⟩ := inside_of_mem_preorderAll ts h.tail hm
      have hapart : ∀ r ∈ (l.reached t).filter l.containerNode, encloses r x.1.first x.1.last =
          false := fun r hr =>
        not_encloses_of_before hnonempty hxu (hfirst r hr) (Or.inr (ht u hu))
      apply (placedAll_nearest ts h.tail hts above x hx hrole).widen (List.subset_append_right _ _)
      exact fun r hr => (List.mem_append.mp hr).symm.imp id (hapart r)

end

/-- What stands above a node at its placement is a container, which has a placement too. -/
theorem placements_nearest {size : Nat} {root : Tree} (h : WellFormed l size root)
    {x : Tree × Option Tree} (hx : x ∈ l.placements root) :
    Nearest ((l.roleNodes root).filter l.containerNode) none x := by
  obtain ⟨hx, hrole⟩ := List.mem_filter.mp hx
  rw [filter_roleNodes root fun t hn hc => hasRole_of_containerNode hn hc]
  exact placedAll_nearest root.children h.toOrderly.descendants (h.ordered _ (mem_preorder_self _))
    none x hx hrole

theorem map_fst_placements (l : Language) (root : Tree) :
    (l.placements root).map Prod.fst = l.roleNodes root := by
  rw [placements, roleNodes, ← map_fst_placedAll l none root.children, List.filter_map]
  rfl

theorem exists_placement {root t : Tree} (ht : t ∈ l.roleNodes root) :
    ∃ above, (t, above) ∈ l.placements root := by
  rw [← map_fst_placements] at ht
  obtain ⟨x, hx, rfl⟩ := List.mem_map.mp ht
  exact ⟨x.2, hx⟩

end Language

theorem owner?_eq_some {primaries : List Tree} {self : Option Nat} {first last i : Nat}
    (h : owner? primaries self first last = some i) :
    ∃ o, primaries[i]? = some o ∧ encloses o first last = true := by
  simp only [owner?, Option.map_eq_some_iff] at h
  obtain ⟨⟨j, t⟩, hn, rfl⟩ := h
  have hm := Parts.narrowest?_mem hn
  simp only [List.mem_map, List.mem_filter, Prod.mk.injEq, Bool.and_eq_true] at hm
  obtain ⟨⟨u, k⟩, ⟨hz, -, he⟩, rfl, rfl⟩ := hm
  exact ⟨u, List.mk_mem_zipIdx_iff_getElem?.mp hz, he⟩

namespace Parts
variable {l : Language} {p : Parts} {root : Tree}

def ownerNode? (p : Parts) (item : Item) : Option Tree := (p.ownerOf? item).map p.primary

theorem ownerOf?_eq_some {item : Item} {i : Nat} (h : p.ownerOf? item = some i) :
    Item.container i ∈ p.items ∧ encloses (p.primary i) (p.node item).first
      (p.node item).last = true := by
  have howner : ∃ o, p.primaries[i]? = some o ∧
      encloses o (p.node item).first (p.node item).last = true := by
    cases item with
    | container j => exact owner?_eq_some h
    | member k => exact owner?_eq_some h
  obtain ⟨o, ho, he⟩ := howner
  have hp : p.primary i = o := by rw [primary, ho, Option.getD_some]
  refine ⟨?_, hp ▸ he⟩
  rw [items, List.mem_append, List.mem_map]
  exact Or.inl ⟨i, List.mem_range.mpr (List.getElem?_eq_some_iff.mp ho).1, rfl⟩

/-- The container that an item belongs to is the nearest. -/
theorem ownerNode?_of_nearest {item : Item} {above : Option Tree}
    (h : Language.Nearest p.primaries none (p.node item, above)) : p.ownerNode? item = above := by
  unfold ownerNode?
  rcases h with ⟨rfl, hnone⟩ | ⟨q, hq, rfl, hqx, hleast⟩
  · cases ho : p.ownerOf? item with
    | none => rfl
    | some i =>
      obtain ⟨hi, he⟩ := ownerOf?_eq_some ho
      exact absurd he (ne_true_of_eq_false (hnone _ (primary_mem hi)))
  · obtain ⟨j, hj⟩ := List.mem_iff_getElem?.mp hq
    have hself : ∀ i, item = .container i → some j ≠ some i := by
      rintro i rfl hji
      obtain rfl := Option.some.inj hji
      have hnode : p.node (.container j) = q := by rw [node, primary, hj, Option.getD_some]
      have hw := (Language.encloses_iff.mp hqx).2
      rw [hnode] at hw
      exact Nat.lt_irrefl _ hw
    have howner : ∃ i o, p.ownerOf? item = some i ∧ p.primaries[i]? = some o ∧
        o.width ≤ q.width := by
      cases item with
      | container i => exact owner?_of_encloses hj (hself i rfl) hqx
      | member k => exact owner?_of_encloses hj (by simp) hqx
    obtain ⟨i, o, hi, ho, hle⟩ := howner
    obtain ⟨hc, he⟩ := ownerOf?_eq_some hi
    have hp : p.primary i = o := by rw [primary, ho, Option.getD_some]
    rw [hi, Option.map_some, hp]
    rcases hleast o (List.mem_of_getElem? ho) (hp ▸ he) with hoq | hlt
    · rw [hoq]
    · omega

theorem placements_nearest {size : Nat} (h : WellFormed l size root) {x : Tree × Option Tree}
    (hx : x ∈ l.placements root) : Language.Nearest (ofRoot l root).primaries none x := by
  have hperm := ofRoot_primaries_perm l root
  apply (Language.placements_nearest h hx).widen hperm.symm.subset
  exact fun r hr => Or.inl (hperm.subset hr)

theorem exists_item {t : Tree} (h : t ∈ p.primaries ∨ t ∈ p.secondaries) :
    ∃ item ∈ p.items, p.node item = t := by
  rw [items]
  cases h with
  | inl h =>
    obtain ⟨i, hi⟩ := List.mem_iff_getElem?.mp h
    refine ⟨.container i, ?_, by rw [node, primary, hi, Option.getD_some]⟩
    exact List.mem_append_left _
      (List.mem_map_of_mem (List.mem_range.mpr (List.getElem?_eq_some_iff.mp hi).1))
  | inr h =>
    obtain ⟨k, hk⟩ := List.mem_iff_getElem?.mp h
    refine ⟨.member k, ?_, by rw [node, secondary, hk, Option.getD_some]⟩
    exact List.mem_append_right _
      (List.mem_map_of_mem (List.mem_range.mpr (List.getElem?_eq_some_iff.mp hk).1))

theorem Sound.not_context (hp : p.Sound l) {item : Item} (h : item ∈ p.items) :
    l.contextNode (p.node item) = false := by
  cases item with
  | container i =>
    have hc := hp.primaries.2 _ (primary_mem h)
    simp only [Language.containerNode, Language.opens, Bool.and_eq_true, Bool.not_eq_true'] at hc
    exact hc.1.1
  | member k =>
    have hm := hp.secondaries.2 _ (secondary_mem h)
    simp only [Language.memberNode, Bool.and_eq_true, Bool.not_eq_true'] at hm
    exact hm.1

/-- The declarations among the placements are the items with their owners. -/
theorem mem_placements_iff {size : Nat} (h : WellFormed l size root) {x : Tree × Option Tree} :
    (x ∈ l.placements root ∧ l.contextNode x.1 = false) ↔
      ∃ item ∈ (ofRoot l root).items, x =
          ((ofRoot l root).node item, (ofRoot l root).ownerNode? item) := by
  constructor
  · rintro ⟨hx, hcontext⟩
    have hrole := (List.mem_filter.mp hx).2
    have ht : x.1 ∈ l.roleNodes root := by
      rw [← Language.map_fst_placements]
      exact List.mem_map_of_mem hx
    have hpart : x.1 ∈ (ofRoot l root).primaries ∨ x.1 ∈ (ofRoot l root).secondaries := by
      rw [(ofRoot_primaries_perm l root).mem_iff, (ofRoot_secondaries_perm l root).mem_iff,
        List.mem_filter, List.mem_filter]
      simp only [Language.contextNode] at hcontext
      simp only [Language.hasRole, hcontext, Bool.false_or, Bool.and_eq_true, Bool.or_eq_true]
        at hrole
      by_cases hs : l.isSecondary x.1.kind = true
      · exact Or.inr ⟨ht, by simp [Language.memberNode, hcontext, hs]⟩
      · have hprimary := hrole.2.resolve_right hs
        exact Or.inl ⟨ht, by simp [Language.containerNode, Language.opens, hcontext, hs, hprimary]⟩
    obtain ⟨item, hi, hn⟩ := exists_item hpart
    refine ⟨item, hi, Prod.ext hn.symm ?_⟩
    apply Eq.symm
    apply ownerNode?_of_nearest
    rw [hn]
    exact placements_nearest h hx
  · rintro ⟨item, hi, rfl⟩
    obtain ⟨above, ha⟩ := Language.exists_placement (mem_roleNodes_of_mem_all (node_mem_all hi))
    rw [ownerNode?_of_nearest (placements_nearest h ha)]
    exact ⟨ha, (ofRoot_sound h).not_context hi⟩

end Parts

mutual

/-- A block and the blocks in it, in pre-order, each with the node of the container it stands in. -/
def Block.owned (owner : Option Tree) : Block → List (Block × Option Tree)
  | .member t => [(.member t, owner)]
  | .container i t children => (.container i t children, owner) :: ownedAll (some t) children

def Block.ownedAll (owner : Option Tree) : List Block → List (Block × Option Tree)
  | [] => []
  | b :: bs => b.owned owner ++ ownedAll owner bs

end

namespace Block
variable {p : Parts}

theorem mem_owned_self (owner : Option Tree) (b : Block) : (b, owner) ∈ b.owned owner := by
  cases b with
  | member t => exact List.mem_cons_self
  | container i t children =>
    rw [owned]
    exact List.mem_cons_self

theorem mem_ownedAll {owner : Option Tree} {bs : List Block} {x : Block × Option Tree} :
    x ∈ ownedAll owner bs ↔ ∃ b ∈ bs, x ∈ b.owned owner := by
  induction bs with
  | nil => simp [ownedAll]
  | cons b bs ih => simp [ownedAll, ih]

mutual

/-- With a container, what stands in it is found too. -/
theorem mem_owned_child {i : Nat} {t : Tree} {children : List Block} {o : Option Tree} {c : Block}
    (hc : c ∈ children) :
    (owner : Option Tree) → (b : Block) → (.container i t children, o) ∈ b.owned owner →
      (c, some t) ∈ b.owned owner
  | _, .member u, h => by
    rw [owned, List.mem_singleton] at h
    exact absurd h nofun
  | owner, .container j u bs, h => by
    rw [owned] at h ⊢
    cases List.mem_cons.mp h with
    | inl h =>
      obtain ⟨-, rfl, rfl⟩ := Block.container.inj (congrArg Prod.fst h)
      exact List.mem_cons_of_mem _ (mem_ownedAll.mpr ⟨c, hc, mem_owned_self (some t) c⟩)
    | inr h => exact List.mem_cons_of_mem _ (mem_ownedAll_child hc (some u) bs h)

theorem mem_ownedAll_child {i : Nat} {t : Tree} {children : List Block}
    {o : Option Tree} {c : Block} (hc : c ∈ children) : (owner : Option Tree) → (bs : List Block) →
      (.container i t children, o) ∈ ownedAll owner bs → (c, some t) ∈ ownedAll owner bs
  | _, [], h => absurd h List.not_mem_nil
  | owner, b :: bs, h => by
    rw [ownedAll] at h ⊢
    cases List.mem_append.mp h with
    | inl h => exact List.mem_append_left _ (mem_owned_child hc owner b h)
    | inr h => exact List.mem_append_right _ (mem_ownedAll_child hc owner bs h)

end

def ownedItem (p : Parts) (item : Item) : Block × Option Tree := (ofItem p item, p.ownerNode? item)

/-- What stands in the block of an item are blocks of items with their owners. -/
theorem owned_ofItem (p : Parts) (item : Item) (h : item ∈ p.items) :
    ∀ x ∈ (ofItem p item).owned (p.ownerNode? item), ∃ other ∈ p.items, x = ownedItem p other := by
  intro x hx
  match item with
  | .member k =>
    rw [ofItem, owned, List.mem_singleton] at hx
    exact ⟨.member k, h, by rw [hx, ownedItem, ofItem]⟩
  | .container i =>
    rw [ofItem_container, owned] at hx
    cases List.mem_cons.mp hx with
    | inl hx => exact ⟨.container i, h, by rw [hx, ownedItem, ofItem_container]⟩
    | inr hx =>
      obtain ⟨b, hb, hx⟩ := mem_ownedAll.mp hx
      obtain ⟨item, hi, rfl⟩ := List.mem_map.mp hb
      obtain ⟨hmem, ho⟩ := Parts.mem_itemsOf.mp hi
      have hn : p.ownerNode? item = some (p.primary i) := by
        rw [Parts.ownerNode?, ho, Option.map_some]
      rw [← hn] at hx
      exact owned_ofItem p item hmem x hx
termination_by p.room item
decreasing_by exact Parts.room_lt_of_mem_itemsOf hi

/-- The block of every item stands in one of the blocks of the file. -/
theorem ownedItem_mem (p : Parts) (item : Item) (h : item ∈ p.items) :
    ownedItem p item ∈ ownedAll none (roots p) := by
  cases ho : p.ownerOf? item with
  | none =>
    have hn : p.ownerNode? item = none := by rw [Parts.ownerNode?, ho, Option.map_none]
    rw [ownedItem, hn]
    apply mem_ownedAll.mpr
    exact ⟨_, List.mem_map_of_mem (Parts.mem_itemsOf.mpr ⟨h, ho⟩), mem_owned_self none _⟩
  | some i =>
    obtain ⟨hi, he⟩ := Parts.ownerOf?_eq_some ho
    have hn : p.ownerNode? item = some (p.primary i) := by
      rw [Parts.ownerNode?, ho, Option.map_some]
    have howner := ownedItem_mem p (.container i) hi
    rw [ownedItem, ofItem_container] at howner
    rw [ownedItem, hn]
    exact mem_ownedAll_child (List.mem_map_of_mem (Parts.mem_itemsOf.mpr ⟨h, ho⟩)) none
      (roots p) howner
-- owners are wider than what they own, up to all containers together
termination_by (p.primaries.map Tree.width).sum - (p.node item).width
decreasing_by
  have hw := (Language.encloses_iff.mp he).2
  have hle := List.le_sum_of_mem (List.mem_map_of_mem (f := Tree.width) (Parts.primary_mem hi))
  show (p.primaries.map Tree.width).sum - (p.primary i).width < _
  omega

theorem mem_ownedAll_roots {x : Block × Option Tree} :
    x ∈ ownedAll none (roots p) ↔ ∃ item ∈ p.items, x = ownedItem p item := by
  constructor
  · intro hx
    obtain ⟨b, hb, hx⟩ := mem_ownedAll.mp hx
    obtain ⟨item, hi, rfl⟩ := List.mem_map.mp hb
    obtain ⟨hmem, ho⟩ := Parts.mem_itemsOf.mp hi
    have hn : p.ownerNode? item = none := by rw [Parts.ownerNode?, ho, Option.map_none]
    rw [← hn] at hx
    exact owned_ofItem p item hmem x hx
  · rintro ⟨item, hi, rfl⟩
    exact ownedItem_mem p item hi

end Block

end CodeAtlas.Source
