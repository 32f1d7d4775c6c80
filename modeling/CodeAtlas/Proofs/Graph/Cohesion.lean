import Mathlib.Data.List.NodupEquivFin
import Mathlib.Data.Setoid.Basic
import Mathlib.SetTheory.Cardinal.Finite
import CodeAtlas.Proofs.Graph.Measures
import CodeAtlas.Proofs.Graph.Triangle

/-!
The parts a graph falls into. Labels are merged along the steps, one after the other; after each of
them two nodes have one label exactly if the steps so far tie them together, in whatever direction.
So the parts are the classes of the equivalence that the dependencies generate, and how they are
drawn makes no difference.
-/

namespace CodeAtlas

open Metrics Traversal Relation

namespace Metrics

section Labels

variable {n : Nat} {labels : List Nat} {done : List (Nat × Nat)}

/-- Whether two nodes have one label exactly if the steps that are done tie them together. -/
structure Labelled (n : Nat) (done : List (Nat × Nat)) (labels : List Nat) : Prop where
  length : labels.length = n
  same : ∀ u v : Fin n, labels[u.val]? = labels[v.val]? ↔
    EqvGen (fun a b : Fin n => (a.val, b.val) ∈ done) u v

/-- Without steps no node is tied to another. -/
theorem labelled_range (n : Nat) : Labelled n [] (List.range n) where
  length := List.length_range
  same u v := by
    rw [List.getElem?_range u.isLt, List.getElem?_range v.isLt, Option.some.injEq, Fin.val_inj]
    constructor
    · rintro rfl
      exact EqvGen.refl u
    · intro h
      induction h with
      | rel _ _ h => exact absurd h List.not_mem_nil
      | refl => rfl
      | symm _ _ _ ih => exact ih.symm
      | trans _ _ _ _ _ ih ih' => exact ih.trans ih'

theorem Labelled.exists_label (h : Labelled n done labels) (u : Fin n) :
    ∃ l, labels[u.val]? = some l :=
  ⟨_, List.getElem?_eq_getElem (h.length ▸ u.isLt)⟩

theorem relabelled_iff (a b l m : Nat) : ((if l == b then a else l) = if m == b then a else m) ↔
    l = m ∨ (l = b ∧ m = a) ∨ (l = a ∧ m = b) := by
  grind

/-- One more step ties together what is tied to one of its ends. -/
theorem Labelled.join (h : Labelled n done labels) {v w : Fin n} {a b : Nat}
    (hv : labels[v.val]? = some a) (hw : labels[w.val]? = some b) :
    Labelled n (done ++ [(v.val, w.val)]) (labels.map fun l => if l == b then a else l) where
  length := by rw [List.length_map, h.length]
  same u x := by
    have hmono : ∀ {y z : Fin n}, labels[y.val]? = labels[z.val]? →
        EqvGen (fun a b : Fin n => (a.val, b.val) ∈ done ++ [(v.val, w.val)]) y z := fun hyz =>
      ((h.same _ _).mp hyz).mono fun _ _ hmem => List.mem_append_left _ hmem
    have hstep : EqvGen (fun a b : Fin n => (a.val, b.val) ∈ done ++ [(v.val, w.val)]) v w :=
      .rel v w (List.mem_append_right _ List.mem_cons_self)
    rw [List.getElem?_map, List.getElem?_map]
    constructor
    · obtain ⟨l, hl⟩ := h.exists_label u
      obtain ⟨m, hm⟩ := h.exists_label x
      rw [hl, hm, Option.map_some, Option.map_some, Option.some.injEq, relabelled_iff]
      -- labels that are equal now were equal before, or they were those of the two ends
      rintro (rfl | ⟨rfl, rfl⟩ | ⟨rfl, rfl⟩)
      · exact hmono (hl.trans hm.symm)
      · exact ((hmono (hl.trans hw.symm)).trans _ _ _ (hstep.symm _ _)).trans _ _ _
          (hmono (hv.trans hm.symm))
      · exact ((hmono (hl.trans hv.symm)).trans _ _ _ hstep).trans _ _ _ (hmono (hw.trans hm.symm))
    · intro htied
      induction htied with
      | rel y z hyz =>
        rcases List.mem_append.mp hyz with hyz | hyz
        · rw [(h.same y z).mpr (.rel y z hyz)]
        · obtain ⟨hy, hz⟩ := Prod.mk.inj (List.mem_singleton.mp hyz)
          rw [hy, hz, hv, hw, Option.map_some, Option.map_some, Option.some.injEq, relabelled_iff]
          exact Or.inr (Or.inr ⟨rfl, rfl⟩)
      | refl => rfl
      | symm _ _ _ ih => exact ih.symm
      | trans _ _ _ _ _ ih ih' => exact ih.trans ih'

/-- A step to or from what is no node ties nothing together. -/
theorem Labelled.skip (h : Labelled n done labels) {s : Nat × Nat}
    (hs : labels[s.1]? = none ∨ labels[s.2]? = none) : Labelled n (done ++ [s]) labels where
  length := h.length
  same u v := by
    have hrel : (fun a b : Fin n => (a.val, b.val) ∈ done ++ [s]) = fun a b : Fin n =>
        (a.val, b.val) ∈ done := by
      funext a b
      rw [List.mem_append, List.mem_singleton, eq_iff_iff, or_iff_left]
      rintro rfl
      obtain ⟨l, hl⟩ := h.exists_label a
      obtain ⟨m, hm⟩ := h.exists_label b
      rcases hs with hs | hs
      · exact absurd (hl.symm.trans hs) nofun
      · exact absurd (hm.symm.trans hs) nofun
    rw [hrel]
    exact h.same u v

theorem Labelled.merge (h : Labelled n done labels) (s : Nat × Nat) :
    Labelled n (done ++ [s]) (merge labels s.1 s.2) := by
  cases hv : labels[s.1]? with
  | none =>
    rw [Metrics.merge, hv]
    exact h.skip (Or.inl hv)
  | some a =>
    cases hw : labels[s.2]? with
    | none =>
      rw [Metrics.merge, hv, hw]
      exact h.skip (Or.inr hw)
    | some b =>
      have hvn : s.1 < n := h.length ▸ (List.getElem?_eq_some_iff.mp hv).1
      have hwn : s.2 < n := h.length ▸ (List.getElem?_eq_some_iff.mp hw).1
      rw [Metrics.merge, hv, hw]
      exact h.join (v := ⟨s.1, hvn⟩) (w := ⟨s.2, hwn⟩) hv hw

theorem Labelled.steps (h : Labelled n done labels) (todo : List (Nat × Nat)) :
    Labelled n (done ++ todo) (todo.foldl (fun labels s => Metrics.merge labels s.1 s.2)
      labels) := by
  induction todo generalizing done labels with
  | nil => rwa [List.append_nil]
  | cons s todo ih =>
    rw [List.append_cons, List.foldl_cons]
    exact ih (h.merge s)

end Labels

section Count

/-- The nodes of a graph by the steps that tie them together. -/
def ties (successors : List (List Nat)) : Setoid (Fin successors.length) :=
  EqvGen.setoid fun v w => Leads successors v w

/-- Whether a function counts the parts of every graph the steps of which lead to nodes. -/
def CountsParts (count : List (List Nat) → Nat) : Prop :=
  ∀ successors : List (List Nat), (∀ v w, Leads successors v w → w < successors.length) →
    count successors = Nat.card (Quotient (ties successors))

variable (successors : List (List Nat))

theorem labelled_partLabels :
    Labelled successors.length (steps successors) (partLabels successors) :=
  (labelled_range successors.length).steps (steps successors)

def label (v : Fin successors.length) : Nat :=
  (partLabels successors).get (v.cast (length_partLabels successors).symm)

theorem getElem?_label (v : Fin successors.length) :
    (partLabels successors)[v.val]? = some (label successors v) :=
  List.getElem?_eq_getElem _

/-- Nodes have one label exactly if steps tie them together. -/
theorem ker_label : Setoid.ker (label successors) = ties successors := by
  have hrel : (fun a b : Fin successors.length => (a.val, b.val) ∈ steps successors) =
      fun a b : Fin successors.length => Leads successors a b :=
    funext fun a => funext fun b => propext mem_steps
  ext u v
  have hsame := (labelled_partLabels successors).same u v
  rw [hrel, getElem?_label, getElem?_label, Option.some.injEq] at hsame
  exact hsame

theorem mem_partLabels {l : Nat} :
    l ∈ partLabels successors ↔ l ∈ Set.range (label successors) := by
  rw [List.mem_iff_getElem]
  constructor
  · rintro ⟨v, hv, rfl⟩
    exact ⟨⟨v, length_partLabels successors ▸ hv⟩, rfl⟩
  · rintro ⟨v, rfl⟩
    exact ⟨v.val, by rw [length_partLabels]; exact v.isLt, rfl⟩

/-- The labels are as many as there are classes of nodes that are tied together. -/
theorem partCount_eq : partCount successors = Nat.card (Quotient (ties successors)) := by
  have hlabels : ∀ l, l ∈ (partLabels successors).eraseDups.toFinset ↔
      l ∈ Set.range (label successors) := fun l => by
    rw [List.mem_toFinset, List.mem_eraseDups, mem_partLabels]
  calc partCount successors = (partLabels successors).eraseDups.toFinset.card :=
        (List.toFinset_card_of_nodup (nodup_eraseDups _)).symm
    _ = Nat.card (Set.range (label successors)) := (Nat.subtype_card _ hlabels).symm
    _ = Nat.card (Quotient (Setoid.ker (label successors))) :=
      (Nat.card_congr (Setoid.quotientKerEquivRange _)).symm
    _ = Nat.card (Quotient (ties successors)) := by rw [ker_label]

theorem countsParts_partCount : CountsParts partCount := fun successors _ => partCount_eq successors

end Count

end Metrics

namespace Graph

variable {g : Graph} {v w : Nat}

def ties (g : Graph) : Setoid {n // n ∈ g.nodes} :=
  EqvGen.setoid fun a b => g.Linked a.1.id b.1.id

/-- Steps lead to nodes. -/
theorem lt_of_leads (hids : (g.nodes.map Node.id).Nodup) (h : Leads g.successors v w) :
    w < g.successors.length := by
  obtain ⟨a, b, -, hb, -⟩ := (leads_successors hids).mp h
  rw [length_successors, ← List.length_map (f := Node.id)]
  exact (List.getElem?_eq_some_iff.mp hb).1

theorem eqvGen_map {α β : Type} {r : α → α → Prop} {s : β → β → Prop} (f : α → β)
    (h : ∀ a b, r a b → s (f a) (f b)) {a b : α} (hab : EqvGen r a b) : EqvGen s (f a) (f b) := by
  induction hab with
  | rel a b hab => exact .rel _ _ (h a b hab)
  | refl a => exact .refl _
  | symm a b _ ih => exact ih.symm
  | trans a b c _ _ ih ih' => exact ih.trans _ _ _ ih'

def nodeAt (hids : (g.nodes.map Node.id).Nodup) : Fin g.successors.length ≃ {n // n ∈ g.nodes} :=
  (finCongr g.length_successors).trans (List.Nodup.getEquiv g.nodes (List.Nodup.of_map _ hids))

theorem getElem?_nodeAt (hids : (g.nodes.map Node.id).Nodup) (v : Fin g.successors.length) :
    (g.nodes.map Node.id)[v.val]? = some (nodeAt hids v).1.id := by
  rw [List.getElem?_map, List.getElem?_eq_getElem (g.length_successors ▸ v.isLt), Option.map_some]
  rfl

theorem leads_iff_linked (hids : (g.nodes.map Node.id).Nodup) (v w : Fin g.successors.length) :
    Leads g.successors v w ↔ g.Linked (nodeAt hids v).1.id (nodeAt hids w).1.id := by
  rw [leads_successors hids, getElem?_nodeAt hids, getElem?_nodeAt hids]
  constructor
  · rintro ⟨a, b, ha, hb, hab⟩
    rwa [Option.some.inj ha, Option.some.inj hb]
  · exact fun h => ⟨_, _, rfl, rfl, h⟩

/-- The positions of the nodes fall into as many classes as the nodes. -/
theorem card_ties (hids : (g.nodes.map Node.id).Nodup) :
    Nat.card (Quotient (Metrics.ties g.successors)) = Nat.card (Quotient g.ties) := by
  have hback : ∀ a b : {n // n ∈ g.nodes}, g.Linked a.1.id b.1.id →
      Leads g.successors ((nodeAt hids).symm a).val ((nodeAt hids).symm b).val := by
    intro a b hab
    rwa [leads_iff_linked hids, Equiv.apply_symm_apply, Equiv.apply_symm_apply]
  refine Nat.card_congr (Quotient.congr (nodeAt hids) fun v w => ⟨fun h => ?_, fun h => ?_⟩)
  · exact eqvGen_map (nodeAt hids) (fun a b => (leads_iff_linked hids a b).mp) h
  · have hclasses : Metrics.ties g.successors ((nodeAt hids).symm (nodeAt hids v))
        ((nodeAt hids).symm (nodeAt hids w)) := eqvGen_map (nodeAt hids).symm hback h
    rwa [Equiv.symm_apply_apply, Equiv.symm_apply_apply] at hclasses

section Redrawn

variable {edges edges' : List Dependency} {e : Dependency} {a b : String}

/-- Lists of dependencies that differ in which way they are drawn, in their order, in their types,
in how often they are listed, and in dependencies of a node on itself. What is said of the first of
a list holds of any, by reordering. -/
inductive Redrawn : List Dependency → List Dependency → Prop where
  | reversed (e : Dependency) (rest : List Dependency) :
      Redrawn (e :: rest) ({ e with source := e.target, target := e.source } :: rest)
  | reordered {edges edges' : List Dependency} : edges.Perm edges' → Redrawn edges edges'
  | repeated {edges : List Dependency} {e : Dependency} : e ∈ edges → Redrawn edges (e :: edges)
  | retyped (e : Dependency) (rest : List Dependency) (r : Relationship) :
      Redrawn (e :: rest) ({ e with relationship := r } :: rest)
  | looped (edges : List Dependency) {e : Dependency} : e.source = e.target →
    Redrawn edges (e :: edges)
  | trans {edges edges' edges'' : List Dependency} :
      Redrawn edges edges' → Redrawn edges' edges'' → Redrawn edges edges''

/-- Whether two ids are one, or a dependency leads from one of them to the other. -/
def Tied (edges : List Dependency) (a b : String) : Prop :=
  a = b ∨ ∃ e ∈ edges, (e.source = a ∧ e.target = b) ∨ (e.source = b ∧ e.target = a)

theorem tied_cons : Tied (e :: edges) a b ↔
    ((e.source = a ∧ e.target = b) ∨ (e.source = b ∧ e.target = a)) ∨ Tied edges a b := by
  rw [Tied, List.exists_mem_cons_iff, or_left_comm, Tied]

theorem Redrawn.tied (h : Redrawn edges edges') : Tied edges a b ↔ Tied edges' a b := by
  induction h with
  | reversed e rest =>
    rw [tied_cons, tied_cons, or_comm (a := e.source = a ∧ e.target = b), and_comm,
      and_comm (a := e.source = a)]
  | reordered hperm =>
    unfold Tied
    simp only [hperm.mem_iff]
  | repeated he =>
    rw [tied_cons, or_iff_right_of_imp]
    exact fun hends => Or.inr ⟨_, he, hends⟩
  | retyped e rest r => rw [tied_cons, tied_cons]
  | looped edges he =>
    rw [tied_cons, or_iff_right_of_imp]
    rintro (⟨rfl, rfl⟩ | ⟨rfl, rfl⟩)
    · exact Or.inl he
    · exact Or.inl he.symm
  | trans _ _ ih ih' => exact ih.trans ih'

end Redrawn

theorem cohesionBy_eq (count : List (List Nat) → Nat) (hne : g.nodes ≠ []) :
    cohesionBy count g.successors = 1.0 / Float.ofNat (count g.successors) := by
  have hpos : 0 < g.successors.length := by
    rw [length_successors]
    exact List.length_pos_iff.mpr hne
  rw [cohesionBy, if_neg]
  simpa using List.length_pos_iff.mp hpos

/-- The cohesion tells the number of classes, whoever counts the parts. -/
theorem cohesionBy_ties (hids : (g.nodes.map Node.id).Nodup) (hne : g.nodes ≠ [])
    {count : List (List Nat) → Nat} (hcount : CountsParts count) :
    cohesionBy count g.successors = 1.0 / Float.ofNat (Nat.card (Quotient g.ties)) := by
  rw [cohesionBy_eq count hne, hcount g.successors fun _ _ => lt_of_leads hids, card_ties hids]

end Graph

namespace IndexedGraph

open CodeAtlas.Graph

variable {nodes : List Node} {edges edges' : List Dependency}

/-- Between nodes, what is kept of the dependencies ties as much together as all of them. -/
theorem tied_kept {a b : Node} (ha : a ∈ (Roll.ofNodes nodes).nodes)
    (hb : b ∈ (Roll.ofNodes nodes).nodes) :
    Tied (ofParts nodes edges).edges a.id b.id ↔ Tied edges a.id b.id := by
  have hends : ∀ e : Dependency, (e.source = a.id ∧ e.target = b.id) ∨
      (e.source = b.id ∧ e.target = a.id) → (e ∈ (ofParts nodes edges).edges ↔ e ∈ edges) := by
    intro e he
    have hkept : (Roll.ofNodes nodes).hasEnds e = true := by
      have ha := List.contains_iff_mem.mpr (List.mem_map_of_mem (f := Node.id) ha)
      have hb := List.contains_iff_mem.mpr (List.mem_map_of_mem (f := Node.id) hb)
      rw [Roll.hasEnds_eq (Roll.sound_ofNodes nodes)]
      rcases he with ⟨hs, ht⟩ | ⟨hs, ht⟩ <;> rw [hs, ht, ha, hb] <;> rfl
    exact List.mem_filter.trans (and_iff_left hkept)
  exact or_congr_right (exists_congr fun e => and_congr_left fun he => hends e he)

/-- The classes of nodes do not depend on which way the dependencies lead. -/
theorem ties_ofParts (nodes : List Node) (edges : List Dependency) :
    (ofParts nodes edges).toGraph.ties =
    EqvGen.setoid fun a b : {n // n ∈ (Roll.ofNodes nodes).nodes} => Tied edges a.1.id b.1.id := by
  apply le_antisymm
  · apply Setoid.eqvGen_mono
    rintro a b ⟨e, he, hs, ht⟩
    exact (tied_kept a.2 b.2).mp (Or.inr ⟨e, he, Or.inl ⟨hs, ht⟩⟩)
  · apply Setoid.eqvGen_le
    intro a b hab
    rcases (tied_kept a.2 b.2).mpr hab with hid | ⟨e, he, hends | ⟨hs, ht⟩⟩
    · have hab : a = b := Subtype.ext (List.inj_on_of_nodup_map (ids_nodup nodes) a.2 b.2 hid)
      exact hab ▸ EqvGen.refl a
    · exact .rel a b ⟨e, he, hends⟩
    · exact .symm b a (.rel b a ⟨e, he, hs, ht⟩)

/-- There are as many classes of nodes however the dependencies are drawn. -/
theorem card_ties_redrawn (nodes : List Node) (h : Redrawn edges edges') :
    Nat.card (Quotient (ofParts nodes edges').toGraph.ties) =
      Nat.card (Quotient (ofParts nodes edges).toGraph.ties) := by
  have hclasses : ∀ edges, Nat.card (Quotient (ofParts nodes edges).toGraph.ties) =
      Nat.card (Quotient (EqvGen.setoid fun a b : {n // n ∈ (Roll.ofNodes nodes).nodes} =>
          Tied edges a.1.id b.1.id)) :=
    fun edges => congrArg (fun s : Setoid {n // n ∈ (Roll.ofNodes nodes).nodes} =>
      Nat.card (Quotient s)) (ties_ofParts nodes edges)
  rw [hclasses, hclasses]
  simp only [h.tied]

theorem nodes_ne_nil (h : nodes ≠ []) : (ofParts nodes edges).toGraph.nodes ≠ [] := by
  obtain ⟨n, hn⟩ := List.exists_mem_of_ne_nil nodes h
  have hid : n.id ∈ (distinctBy Node.id [] nodes).map Node.id :=
    mem_map_distinctBy.mpr ⟨List.mem_map_of_mem hn, List.not_mem_nil⟩
  rw [← Roll.ofNodes_nodes] at hid
  exact fun hnil => List.ne_nil_of_mem hid (congrArg (List.map Node.id) hnil)

/-- The cohesion of a graph that is put together from any nodes is one over the number of classes
that the dependencies between them generate. So the way in which dependencies are drawn makes no
difference to it. -/
theorem cohesion_ofParts (nodes : List Node) (edges : List Dependency) (h : nodes ≠ []) :
    (ofParts nodes edges).metrics.cohesion =
        1.0 / Float.ofNat (Nat.card (Quotient (ofParts nodes edges).toGraph.ties)) ∧
      (∀ count, CountsParts count →
        cohesionBy count (ofParts nodes edges).toGraph.successors =
        (ofParts nodes edges).metrics.cohesion) ∧
      ∀ edges', Redrawn edges edges' →
        (ofParts nodes edges').metrics.cohesion = (ofParts nodes edges).metrics.cohesion := by
  have hcohesion : ∀ edges, ∀ {count}, CountsParts count →
      cohesionBy count (ofParts nodes edges).toGraph.successors =
      1.0 / Float.ofNat (Nat.card (Quotient (ofParts nodes edges).toGraph.ties)) :=
        fun edges _ hcount =>
    cohesionBy_ties (ids_nodup nodes) (nodes_ne_nil h) hcount
  have hmetrics : ∀ edges, (ofParts nodes edges).metrics.cohesion =
      cohesionBy partCount (ofParts nodes edges).toGraph.successors := fun _ => rfl
  refine ⟨?_, fun count hcount => ?_, fun edges' hredrawn => ?_⟩
  · rw [hmetrics, hcohesion edges countsParts_partCount]
  · rw [hmetrics, hcohesion edges hcount, hcohesion edges countsParts_partCount]
  · rw [hmetrics, hmetrics, hcohesion edges' countsParts_partCount,
      hcohesion edges countsParts_partCount, card_ties_redrawn nodes hredrawn]

def twoCalls : List Dependency := [call "A" "B", call "C" "D"]

/-- The calls of `twoCalls`, one of them the other way and the other twice, and a function that
calls itself. -/
def twoCallsRedrawn : List Dependency := [call "A" "A", call "C" "D", call "B" "A", call "C" "D"]

theorem redrawn_twoCalls : Redrawn twoCalls twoCallsRedrawn := by
  have hreversed : Redrawn twoCalls [call "B" "A", call "C" "D"] := .reversed (call "A" "B") _
  have hrepeated : Redrawn [call "B" "A", call "C" "D"]
      [call "C" "D", call "B" "A", call "C" "D"] :=
    .repeated (List.mem_cons_of_mem _ List.mem_cons_self)
  have hlooped : Redrawn [call "C" "D", call "B" "A", call "C" "D"] twoCallsRedrawn := .looped _ rfl
  exact (hreversed.trans hrepeated).trans hlooped

/-- Two pairs of functions cohere half, however the calls between them are drawn. -/
theorem cohesion_ofParts_twoCalls :
    fourFunctions ≠ [] ∧ CountsParts partCount ∧ Redrawn twoCalls twoCallsRedrawn ∧
      (ofParts fourFunctions twoCalls).metrics.cohesion = 1.0 / Float.ofNat 2 ∧
      (ofParts fourFunctions twoCallsRedrawn).metrics.cohesion = 1.0 / Float.ofNat 2 := by
  have hne : fourFunctions ≠ [] := List.cons_ne_nil _ _
  obtain ⟨-, hcount, hredrawn⟩ := cohesion_ofParts fourFunctions twoCalls hne
  have htwo : (ofParts fourFunctions twoCalls).metrics.cohesion = 1.0 / Float.ofNat 2 := by
    have hparts : partCount (ofParts fourFunctions twoCalls).toGraph.successors = 2 := by
      decide +kernel
    rw [← hcount partCount countsParts_partCount, cohesionBy_eq partCount (nodes_ne_nil hne),
      hparts]
  exact ⟨hne, countsParts_partCount, redrawn_twoCalls, htwo,
    (hredrawn twoCallsRedrawn redrawn_twoCalls).trans htwo⟩

end IndexedGraph

end CodeAtlas
