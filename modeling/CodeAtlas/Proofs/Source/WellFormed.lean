import Mathlib.Data.List.Pairwise
import Mathlib.Data.List.Perm.Basic
import CodeAtlas.Source.Block

/-!
Well-formed syntax trees. The spans of nested nodes are nested and those of siblings stand one after
the other, so that any two nodes that matter to the chunks of a file are apart, or one is a
container around the other.
-/

namespace CodeAtlas.Source

namespace Language

/-- Whether a node declares a package or imports. -/
def contextNode (l : Language) (t : Tree) : Bool := l.isContext t.kind

def memberNode (l : Language) (t : Tree) : Bool := !l.isContext t.kind && l.isSecondary t.kind

/-- Whether nodes below a node are looked at: those below an import or a member are not. -/
def opens (l : Language) (t : Tree) : Bool := !l.isContext t.kind && !l.isSecondary t.kind

def containerNode (l : Language) (t : Tree) : Bool := l.opens t && l.isPrimary t.kind

/-- Whether a node is named and of a context, primary or secondary kind. -/
def hasRole (l : Language) (t : Tree) : Bool :=
  t.info.named && (l.isContext t.kind || l.isPrimary t.kind || l.isSecondary t.kind)

def declaresPackage (l : Language) (t : Tree) : Bool :=
  t.info.named && l.packageKinds.contains t.kind

end Language

namespace Tree

/-- The nodes below the root, in pre-order. -/
def descendants (t : Tree) : List Tree := preorderAll t.children

/-- One node ends before another begins. -/
def Before (a b : Tree) : Prop := a.last ≤ b.first

def Inside (a b : Tree) : Prop := b.first ≤ a.first ∧ a.last ≤ b.last

/-- Two nodes have no byte in common. -/
def Apart (a b : Tree) : Prop := Before a b ∨ Before b a

/-- Two nodes span the same bytes. -/
def SameSpan (a b : Tree) : Prop := a.first = b.first ∧ a.last = b.last

instance (a b : Tree) : Decidable (Before a b) := inferInstanceAs (Decidable (_ ≤ _))

instance (a b : Tree) : Decidable (Inside a b) := inferInstanceAs (Decidable (_ ∧ _))

instance (a b : Tree) : Decidable (SameSpan a b) := inferInstanceAs (Decidable (_ ∧ _))

/-- Some nodes with their children have spans as those of a parsed file: children lie inside their
parents, in order and apart; nodes with a role are not empty and span different bytes; and no
package is declared inside a node of a primary kind. -/
structure Orderly (l : Language) (nodes : List Tree) : Prop where
  span : ∀ t ∈ nodes, t.first ≤ t.last
  nested : ∀ t ∈ nodes, ∀ c ∈ t.children, Inside c t
  ordered : ∀ t ∈ nodes, t.children.Pairwise Before
  nonempty : ∀ t ∈ nodes, l.hasRole t = true → t.first < t.last
  distinct : (nodes.filter l.hasRole).Pairwise fun a b => ¬ SameSpan a b
  packages : ∀ t ∈ nodes, l.isPrimary t.kind = true → ∀ b ∈ t.descendants,
    l.declaresPackage b = false

/-- The tree of a file of so many bytes: its nodes are orderly and lie in the file, and the root has
no role. -/
structure WellFormed (l : Language) (size : Nat) (root : Tree) : Prop
    extends Orderly l root.preorder where
  bounded : root.last ≤ size
  rootRole : l.hasRole root = false

theorem orderly_iff {l : Language} {nodes : List Tree} :
    Orderly l nodes ↔ (∀ t ∈ nodes, t.first ≤ t.last) ∧
      (∀ t ∈ nodes, ∀ c ∈ t.children, Inside c t) ∧
      (∀ t ∈ nodes, t.children.Pairwise Before) ∧
        (∀ t ∈ nodes, l.hasRole t = true → t.first < t.last) ∧
      ((nodes.filter l.hasRole).Pairwise fun a b => ¬ SameSpan a b) ∧
      ∀ t ∈ nodes, l.isPrimary t.kind = true → ∀ b ∈ t.descendants,
          l.declaresPackage b = false := by
  constructor
  · intro h
    exact ⟨h.span, h.nested, h.ordered, h.nonempty, h.distinct, h.packages⟩
  · rintro ⟨hspan, hnested, hordered, hnonempty, hdistinct, hpackages⟩
    exact ⟨hspan, hnested, hordered, hnonempty, hdistinct, hpackages⟩

theorem wellFormed_iff {l : Language} {size : Nat} {root : Tree} :
    WellFormed l size root ↔ Orderly l root.preorder ∧ root.last ≤ size ∧
      l.hasRole root = false := by
  constructor
  · intro h
    exact ⟨h.toOrderly, h.bounded, h.rootRole⟩
  · rintro ⟨horderly, hbounded, hrole⟩
    exact ⟨horderly, hbounded, hrole⟩

instance (l : Language) (nodes : List Tree) : Decidable (Orderly l nodes) :=
  decidable_of_iff _ orderly_iff.symm

instance (l : Language) (size : Nat) (root : Tree) : Decidable (WellFormed l size root) :=
  decidable_of_iff _ wellFormed_iff.symm

theorem preorder_eq (t : Tree) : t.preorder = t :: t.descendants := by
  cases t
  rfl

theorem mem_preorder_self (t : Tree) : t ∈ t.preorder := by
  rw [preorder_eq]
  exact List.mem_cons_self

theorem Orderly.sublist {l : Language} {nodes fewer : List Tree} (h : Orderly l nodes)
    (hs : fewer.Sublist nodes) : Orderly l fewer where
  span t ht := h.span t (hs.subset ht)
  nested t ht := h.nested t (hs.subset ht)
  ordered t ht := h.ordered t (hs.subset ht)
  nonempty t ht := h.nonempty t (hs.subset ht)
  distinct := h.distinct.sublist (hs.filter _)
  packages t ht := h.packages t (hs.subset ht)

theorem Orderly.descendants {l : Language} {t : Tree} (h : Orderly l t.preorder) :
    Orderly l t.descendants :=
  h.sublist (by rw [preorder_eq]; exact List.sublist_cons_self t t.descendants)

theorem Orderly.head {l : Language} {t : Tree} {ts : List Tree}
    (h : Orderly l (preorderAll (t :: ts))) : Orderly l t.preorder :=
  h.sublist (List.sublist_append_left t.preorder (preorderAll ts))

theorem Orderly.tail {l : Language} {t : Tree} {ts : List Tree}
    (h : Orderly l (preorderAll (t :: ts))) : Orderly l (preorderAll ts) :=
  h.sublist (List.sublist_append_right t.preorder (preorderAll ts))

theorem Inside.trans {a b c : Tree} (hab : Inside a b) (hbc : Inside b c) : Inside a c :=
  ⟨Nat.le_trans hbc.1 hab.1, Nat.le_trans hab.2 hbc.2⟩

mutual

theorem inside_of_mem_preorder {l : Language} : (t : Tree) → Orderly l t.preorder → {b : Tree} →
    b ∈ t.preorder → Inside b t
  | node info children, h, b, hb => by
    rcases List.mem_cons.mp hb with rfl | hb
    · exact ⟨Nat.le_refl _, Nat.le_refl _⟩
    · obtain ⟨c, hc, hi⟩ := inside_of_mem_preorderAll children h.descendants hb
      exact hi.trans (h.nested _ (mem_preorder_self _) c hc)

theorem inside_of_mem_preorderAll {l : Language} : (ts : List Tree) → Orderly l (preorderAll ts) →
    {b : Tree} → b ∈ preorderAll ts → ∃ t ∈ ts, Inside b t
  | [], _, _, hb => absurd hb List.not_mem_nil
  | t :: ts, h, b, hb => by
    rcases List.mem_append.mp hb with hb | hb
    · exact ⟨t, List.mem_cons_self, inside_of_mem_preorder t h.head hb⟩
    · obtain ⟨c, hc, hi⟩ := inside_of_mem_preorderAll ts h.tail hb
      exact ⟨c, List.mem_cons_of_mem t hc, hi⟩

end

theorem inside_of_mem_descendants {l : Language} {t b : Tree} (h : Orderly l t.preorder)
    (hb : b ∈ t.descendants) : Inside b t :=
  inside_of_mem_preorder t h (by rw [preorder_eq]; exact List.mem_cons_of_mem t hb)

mutual

theorem preorder_sublist : (root : Tree) → {t : Tree} → t ∈ root.preorder →
    t.preorder.Sublist root.preorder
  | node info children, t, ht => by
    rcases List.mem_cons.mp ht with rfl | ht
    · exact .refl _
    · exact (preorder_sublist_preorderAll children ht).cons _

theorem preorder_sublist_preorderAll : (ts : List Tree) → {t : Tree} → t ∈ preorderAll ts →
    t.preorder.Sublist (preorderAll ts)
  | [], _, ht => absurd ht List.not_mem_nil
  | u :: ts, t, ht => by
    rcases List.mem_append.mp ht with ht | ht
    · exact (preorder_sublist u ht).trans (List.sublist_append_left _ _)
    · exact (preorder_sublist_preorderAll ts ht).trans (List.sublist_append_right _ _)

end

end Tree

open CodeAtlas.Source.Tree

mutual

/-- The named nodes of a tree that are reached from above without passing through an import or a
member, in pre-order. -/
def Language.reached (l : Language) : Tree → List Tree
  | .node info children =>
    if !info.named then []
    else .node info children ::
      if l.opens (.node info children) then l.reachedAll children else []

def Language.reachedAll (l : Language) : List Tree → List Tree
  | [] => []
  | t :: ts => l.reached t ++ l.reachedAll ts

end

namespace Parts

def among (l : Language) (nodes : List Tree) : Parts where
  contexts := nodes.filter l.contextNode
  primaries := nodes.filter l.containerNode
  secondaries := nodes.filter l.memberNode

theorem among_append (l : Language) (as bs : List Tree) :
    among l (as ++ bs) = append (among l as) (among l bs) := by
  simp [among, append]

mutual

theorem ofTree_eq_among (l : Language) : (t : Tree) → ofTree l t = among l (l.reached t)
  | .node info children => by
    have ih := ofTrees_eq_among l children
    unfold ofTree Language.reached
    cases info.named <;> cases hc : l.isContext info.kind <;> cases hs : l.isSecondary info.kind <;>
      cases hp : l.isPrimary info.kind <;>
      simp [ih, among, append, Language.opens, Language.contextNode, Language.memberNode,
        Language.containerNode, Tree.kind, Tree.info, hc, hs, hp]

theorem ofTrees_eq_among (l : Language) : (ts : List Tree) →
    ofTrees l ts = among l (l.reachedAll ts)
  | [] => rfl
  | t :: ts => by
    rw [ofTrees, Language.reachedAll, among_append, ofTree_eq_among l t, ofTrees_eq_among l ts]

end

end Parts

end CodeAtlas.Source
