import Mathlib.Data.List.Sort
import CodeAtlas.Proofs.Source.Parts

/-!
The layout of blocks. The blocks that belong to one container lie inside it, are narrower, and stand
one after the other.
-/

namespace CodeAtlas.Source

open CodeAtlas.Source.Tree

namespace Parts
variable {l : Language} {p : Parts}

theorem foldl_narrower_le (a : Nat × Tree) (rest : List (Nat × Tree)) :
    ∀ b ∈ a :: rest, (rest.foldl narrower a).2.width ≤ b.2.width := by
  induction rest generalizing a with
  | nil => simp
  | cons c rest ih =>
    have hn : (narrower a c).2.width ≤ a.2.width ∧ (narrower a c).2.width ≤ c.2.width := by
      unfold narrower
      split <;> omega
    have hh := ih (narrower a c)
    have hhead := hh _ List.mem_cons_self
    intro b hb
    rw [List.foldl_cons]
    rcases List.mem_cons.mp hb with rfl | hb
    · exact Nat.le_trans hhead hn.1
    rcases List.mem_cons.mp hb with rfl | hb
    · exact Nat.le_trans hhead hn.2
    · exact hh b (List.mem_cons_of_mem _ hb)

theorem narrowest?_le {xs : List (Nat × Tree)} {b : Nat × Tree} (hb : b ∈ xs) :
    ∃ a, narrowest? xs = some a ∧ a.2.width ≤ b.2.width := by
  cases xs with
  | nil => exact absurd hb List.not_mem_nil
  | cons a rest => exact ⟨_, rfl, foldl_narrower_le a rest b hb⟩

/-- A span inside a container has an owner, which is no wider than that container. -/
theorem owner?_of_encloses {primaries : List Tree} {self : Option Nat} {first last i : Nat}
    {q : Tree} (hq : primaries[i]? = some q) (hi : some i ≠ self)
    (he : encloses q first last = true) :
    ∃ j o, owner? primaries self first last = some j ∧ primaries[j]? = some o ∧
      o.width ≤ q.width := by
  have hm : (i, q) ∈
      (primaries.zipIdx.filter fun e => some e.2 != self && encloses e.1 first last).map
          Prod.swap := by
    refine List.mem_map.mpr ⟨(q, i), List.mem_filter.mpr ⟨?_, by simp [hi, he]⟩, rfl⟩
    exact List.mk_mem_zipIdx_iff_getElem?.mpr hq
  obtain ⟨⟨j, o⟩, hn, hle⟩ := narrowest?_le hm
  have hmem := narrowest?_mem hn
  simp only [List.mem_map, List.mem_filter] at hmem
  obtain ⟨⟨o', j'⟩, ⟨hz, -⟩, rfl, rfl⟩ := hmem
  exact ⟨_, _, congrArg (Option.map Prod.fst) hn, List.mk_mem_zipIdx_iff_getElem?.mp hz, hle⟩

def items (p : Parts) : List Item :=
  (List.range p.primaries.length).map Item.container ++
  (List.range p.secondaries.length).map Item.member

def ownerOf? (p : Parts) : Item → Option Nat
  | .container i => p.containerOwner? i
  | .member k => p.memberOwner? k

theorem itemsOf_perm (p : Parts) (owner : Option Nat) :
    (p.itemsOf owner).Perm (p.items.filter fun item => p.ownerOf? item == owner) := by
  refine (List.mergeSort_perm _ _).trans (.of_eq ?_)
  simp [items, List.filter_append, List.filter_map, Function.comp_def, ownerOf?]

theorem mem_itemsOf {owner : Option Nat} {item : Item} :
    item ∈ p.itemsOf owner ↔ item ∈ p.items ∧ p.ownerOf? item = owner := by
  simp [(itemsOf_perm p owner).mem_iff, List.mem_filter]

theorem items_nodup (p : Parts) : p.items.Nodup := by
  refine List.nodup_append.mpr ⟨?_, ?_, ?_⟩
  · exact List.nodup_range.map fun _ _ h => Item.container.inj h
  · exact List.nodup_range.map fun _ _ h => Item.member.inj h
  · intro a ha b hb
    obtain ⟨_, -, rfl⟩ := List.mem_map.mp ha
    obtain ⟨_, -, rfl⟩ := List.mem_map.mp hb
    exact Item.noConfusion

theorem itemsOf_nodup (p : Parts) (owner : Option Nat) : (p.itemsOf owner).Nodup :=
  (itemsOf_perm p owner).nodup_iff.mpr ((items_nodup p).filter _)

theorem getElem?_primaries {i : Nat} (hi : Item.container i ∈ p.items) :
    p.primaries[i]? = some (p.primary i) := by
  simp only [items, List.mem_append, List.mem_map, List.mem_range, Item.container.injEq,
    exists_eq_right, reduceCtorEq, and_false, exists_const, or_false] at hi
  simp [primary, hi]

theorem getElem?_secondaries {k : Nat} (hk : Item.member k ∈ p.items) :
    p.secondaries[k]? = some (p.secondary k) := by
  simp only [items, List.mem_append, List.mem_map, List.mem_range, Item.member.injEq,
    exists_eq_right, reduceCtorEq, and_false, exists_const, false_or] at hk
  simp [secondary, hk]

theorem primary_mem {i : Nat} (hi : Item.container i ∈ p.items) : p.primary i ∈ p.primaries :=
  List.mem_of_getElem? (getElem?_primaries hi)

theorem secondary_mem {k : Nat} (hk : Item.member k ∈ p.items) : p.secondary k ∈ p.secondaries :=
  List.mem_of_getElem? (getElem?_secondaries hk)

theorem node_mem_all {item : Item} (h : item ∈ p.items) : p.node item ∈ p.all := by
  cases item with
  | container i => simp [all, node, primary_mem h]
  | member k => simp [all, node, secondary_mem h]

/-- An item inside a container has an owner no wider than that. -/
theorem ownerOf?_of_holds {i : Nat} {item : Item} (hi : Item.container i ∈ p.items)
    (hne : item ≠ .container i) (h : l.Holds (p.primary i) (p.node item)) :
    ∃ j o, p.ownerOf? item = some j ∧ p.primaries[j]? = some o ∧ o.width ≤ (p.primary i).width := by
  have hq := getElem?_primaries hi
  cases item with
  | container j =>
    refine owner?_of_encloses hq (fun he => hne ?_) h.around
    rw [Option.some.inj he]
  | member k => exact owner?_of_encloses hq (by simp) h.around

theorem ownerOf?_container {i j : Nat} (h : p.ownerOf? (.container i) = some j) :
    (p.primary i).width < (p.primary j).width :=
  (Language.encloses_iff.mp (encloses_of_owner? h)).2

namespace Sound

theorem node_nonempty (hp : p.Sound l) {item : Item} (h : item ∈ p.items) :
    (p.node item).first < (p.node item).last :=
  hp.nonempty _ (node_mem_all h)

theorem member_not_container (hp : p.Sound l) {k : Nat} (hk : Item.member k ∈ p.items) :
    l.containerNode (p.secondary k) = false := by
  have hm := hp.secondaries.2 _ (secondary_mem hk)
  simp only [Language.memberNode, Bool.and_eq_true] at hm
  simp [Language.containerNode, Language.opens, hm.2]

theorem node_inj (hp : p.Sound l) {a b : Item} (ha : a ∈ p.items) (hb : b ∈ p.items)
    (h : p.node a = p.node b) : a = b := by
  cases a with
  | container i =>
    have hi := getElem?_primaries ha
    cases b with
    | container j =>
      have hj := getElem?_primaries hb
      have hlt : i < p.primaries.length := (List.getElem?_eq_some_iff.mp hi).1
      exact congrArg Item.container
        ((List.getElem?_inj hlt hp.primaries.1).mp (hi.trans ((congrArg some h).trans hj.symm)))
    | member k =>
      have hc := hp.primaries.2 _ (primary_mem ha)
      have hm := hp.member_not_container hb
      rw [show p.primary i = p.secondary k from h, hm] at hc
      exact Bool.noConfusion hc
  | member k =>
    have hk := getElem?_secondaries ha
    cases b with
    | container j =>
      have hc := hp.primaries.2 _ (primary_mem hb)
      have hm := hp.member_not_container ha
      rw [← show p.secondary k = p.primary j from h, hm] at hc
      exact Bool.noConfusion hc
    | member m =>
      have hm := getElem?_secondaries hb
      have hlt : k < p.secondaries.length := (List.getElem?_eq_some_iff.mp hk).1
      exact congrArg Item.member
        ((List.getElem?_inj hlt hp.secondaries.1).mp (hk.trans ((congrArg some h).trans hm.symm)))

/-- The owner of an item in a container is not the owner of that container. -/
theorem ownerOf?_ne_of_holds (hp : p.Sound l) {a b : Item} (ha : a ∈ p.items) (hne : a ≠ b)
    (h : l.Holds (p.node a) (p.node b)) : p.ownerOf? a ≠ p.ownerOf? b := by
  cases a with
  | member k =>
    have hm := hp.member_not_container ha
    exact absurd h.container (by simp [node, hm])
  | container i =>
    obtain ⟨j, o, hj, ho, hle⟩ := ownerOf?_of_holds ha (Ne.symm hne) h
    intro he
    have hlt := ownerOf?_container (he.trans hj)
    have hoj : p.primary j = o := by rw [primary, ho, Option.getD_some]
    exact absurd hle (Nat.not_le_of_lt (hoj ▸ hlt))

theorem siblings_apart (hp : p.Sound l) {a b : Item} (ha : a ∈ p.items) (hb : b ∈ p.items)
    (hne : a ≠ b) (ho : p.ownerOf? a = p.ownerOf? b) : Apart (p.node a) (p.node b) := by
  have hnode : p.node a ≠ p.node b := fun h => hne (hp.node_inj ha hb h)
  rcases hp.compatible _ (node_mem_all ha) _ (node_mem_all hb) hnode with h | h | h
  · exact h
  · exact absurd ho (hp.ownerOf?_ne_of_holds ha hne h)
  · exact absurd ho.symm (hp.ownerOf?_ne_of_holds hb hne.symm h)

/-- The items of one owner stand one after the other. -/
theorem itemsOf_pairwise (hp : p.Sound l) (owner : Option Nat) :
    (p.itemsOf owner).Pairwise fun a b => Before (p.node a) (p.node b) := by
  have hsorted : (p.itemsOf owner).Pairwise
      fun a b => decide ((p.node a).first ≤ (p.node b).first) = true := by
    refine List.pairwise_mergeSort ?_ ?_ _
    · intro a b c hab hbc
      simp only [decide_eq_true_eq] at *
      exact Nat.le_trans hab hbc
    · intro a b
      simpa using Nat.le_total _ _
  refine (hsorted.and (itemsOf_nodup p owner)).imp_of_mem ?_
  rintro a b ha hb ⟨hle, hne⟩
  obtain ⟨ha, hoa⟩ := mem_itemsOf.mp ha
  obtain ⟨hb, hob⟩ := mem_itemsOf.mp hb
  have hb' := hp.node_nonempty hb
  have hle : (p.node a).first ≤ (p.node b).first := of_decide_eq_true hle
  rcases hp.siblings_apart ha hb hne (hoa.trans hob.symm) with h | h
  · exact h
  · unfold Before at h
    omega

end Sound

end Parts

namespace Block

/-- Blocks whose nodes are not empty, and whose children lie inside them, narrower, one after the
other. -/
inductive Laid : Block → Prop where
  | member {t : Tree} : t.first < t.last → Laid (.member t)
  | container {i : Nat} {t : Tree} {children : List Block} : t.first < t.last →
      (∀ b ∈ children, Laid b) → (∀ b ∈ children, encloses t b.node.first b.node.last = true) →
      children.Pairwise (fun a b => Before a.node b.node) → Laid (.container i t children)

theorem Laid.nonempty {b : Block} (h : Laid b) : b.node.first < b.node.last := by
  cases h <;> assumption

theorem node_ofItem (p : Parts) (item : Item) : (ofItem p item).node = p.node item := by
  cases item <;> (rw [ofItem]; rfl)

theorem ofItem_container (p : Parts) (i : Nat) :
    ofItem p (.container i) = container i (p.primary i) ((p.itemsOf (some i)).map (ofItem p)) := by
  rw [ofItem]
  simp

theorem laid_ofItem {l : Language} {p : Parts} (hp : p.Sound l) (item : Item) (h : item ∈ p.items) :
    Laid (ofItem p item) := by
  match item with
  | .member k =>
    rw [ofItem]
    exact .member (hp.node_nonempty h)
  | .container i =>
    rw [ofItem_container]
    refine .container (hp.node_nonempty h) ?_ ?_ ?_
    · intro b hb
      obtain ⟨item, hi, rfl⟩ := List.mem_map.mp hb
      exact laid_ofItem hp item (Parts.mem_itemsOf.mp hi).1
    · intro b hb
      obtain ⟨item, hi, rfl⟩ := List.mem_map.mp hb
      have ho := (Parts.mem_itemsOf.mp hi).2
      rw [node_ofItem]
      cases item with
      | container j => exact Parts.encloses_of_owner? ho
      | member k => exact Parts.encloses_of_owner? ho
    · rw [List.pairwise_map]
      simpa only [node_ofItem] using hp.itemsOf_pairwise (some i)
termination_by p.room item
decreasing_by exact Parts.room_lt_of_mem_itemsOf hi

theorem roots_laid {l : Language} {p : Parts} (hp : p.Sound l) : ∀ b ∈ roots p, Laid b := by
  intro b hb
  obtain ⟨item, hi, rfl⟩ := List.mem_map.mp hb
  exact laid_ofItem hp item (Parts.mem_itemsOf.mp hi).1

theorem roots_pairwise {l : Language} {p : Parts} (hp : p.Sound l) :
    (roots p).Pairwise fun a b => Before a.node b.node := by
  rw [roots, List.pairwise_map]
  simpa only [node_ofItem] using hp.itemsOf_pairwise none

end Block

end CodeAtlas.Source
