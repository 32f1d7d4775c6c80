import Mathlib.Algebra.Ring.Nat
import Mathlib.Data.List.Induction
import CodeAtlas.Graph.Indexed
import CodeAtlas.Proofs.Graph.WellFormed

/-!
The index and the tables of a graph agree with its nodes and its dependencies: the index gives the
position of the one node of an id, the row of a node lists the dependencies at the node in their
order, and all rows of a table together list every dependency once. A graph that is put together
again from its own parts, or from its export, is the same in everything.
-/

namespace CodeAtlas

namespace Roll

/-- The index gives a position exactly for the ids of nodes, and it is that of the node. -/
def Sound (r : Roll) : Prop :=
  ∀ id p, r.position? id = some p ↔ ∃ n, r.nodes[p]? = some n ∧ n.id = id

variable {r : Roll}

theorem sound_empty : ({} : Roll).Sound := by
  intro id p
  simp [position?]

theorem position?_isSome (h : r.Sound) (id : String) :
    (r.position? id).isSome = true ↔ id ∈ r.nodes.map Node.id := by
  rw [Option.isSome_iff_exists, List.mem_map]
  constructor
  · intro ⟨p, hp⟩
    obtain ⟨n, hn, hid⟩ := (h id p).mp hp
    exact ⟨n, List.mem_of_getElem? hn, hid⟩
  · intro ⟨n, hn, hid⟩
    obtain ⟨p, hp⟩ := List.getElem?_of_mem hn
    exact ⟨p, (h id p).mpr ⟨n, hp, hid⟩⟩

theorem position?_eq_none (h : r.Sound) (id : String) :
    r.position? id = none ↔ id ∉ r.nodes.map Node.id := by
  rw [← position?_isSome h]
  simp

theorem getElem?_concat_iff {nodes : List Node} {n m : Node} {p : Nat} :
    (nodes ++ [n])[p]? = some m ↔ nodes[p]? = some m ∨ p = nodes.length ∧ n = m := by
  rcases Nat.lt_trichotomy p nodes.length with hp | hp | hp
  · rw [List.getElem?_append_left hp]
    simp [Nat.ne_of_lt hp]
  · simp [hp]
  · rw [List.getElem?_eq_none (by simp; omega), List.getElem?_eq_none (by omega)]
    simp [Nat.ne_of_gt hp]

theorem exists_position? (h : r.Sound) {id : String} (hid : id ∈ r.nodes.map Node.id) :
    ∃ p, r.position? id = some p ∧ p < r.nodes.length := by
  obtain ⟨p, hp⟩ := Option.isSome_iff_exists.mp ((position?_isSome h id).mpr hid)
  obtain ⟨n, hn, _⟩ := (h id p).mp hp
  exact ⟨p, hp, (List.getElem?_eq_some_iff.mp hn).1⟩

theorem Sound.take (h : r.Sound) (n : Node) : (r.take n).Sound := by
  unfold Roll.take
  cases hl : r.index.lookup n.id with
  | some p => exact h
  | none =>
    have hnew : n.id ∉ r.nodes.map Node.id := (position?_eq_none h n.id).mp hl
    intro id p
    simp only [getElem?_concat_iff, or_and_right, exists_or, ← h id p]
    by_cases hid : id = n.id
    · subst hid
      simp [position?, hl]
      omega
    · have hb : (id == n.id) = false := by simpa using hid
      simp only [position?, List.lookup_cons, hb]
      have hne : ¬ ∃ m, (p = r.nodes.length ∧ n = m) ∧ m.id = id := by
        intro ⟨m, ⟨_, he⟩, hm⟩
        exact hid (hm ▸ he ▸ rfl)
      simp only [hne, or_false]

theorem Sound.foldl (h : r.Sound) (nodes : List Node) : (nodes.foldl Roll.take r).Sound := by
  induction nodes generalizing r with
  | nil => exact h
  | cons n rest ih => exact ih (h.take n)

theorem sound_ofNodes (nodes : List Node) : (ofNodes nodes).Sound :=
  sound_empty.foldl nodes

/-- What is taken in are the first nodes of their ids. -/
theorem foldl_take (h : r.Sound) (nodes : List Node) :
    (nodes.foldl Roll.take r).nodes =
      r.nodes ++ distinctBy Node.id (r.nodes.map Node.id).reverse nodes := by
  induction nodes generalizing r with
  | nil => simp [distinctBy]
  | cons n rest ih =>
    rw [List.foldl_cons, ih (h.take n)]
    unfold Roll.take
    cases hl : r.index.lookup n.id with
    | some p =>
      have hn : n.id ∈ r.nodes.map Node.id :=
        (position?_isSome h n.id).mp (Option.isSome_of_eq_some hl)
      rw [distinctBy_cons_of_mem (by simpa using hn)]
    | none =>
      have hn : n.id ∉ r.nodes.map Node.id := (position?_eq_none h n.id).mp hl
      rw [distinctBy_cons_of_not_mem (by simpa using hn)]
      simp

theorem ofNodes_nodes (nodes : List Node) :
    (ofNodes nodes).nodes = distinctBy Node.id [] nodes := by
  rw [ofNodes, foldl_take sound_empty]
  rfl

/-- Taking in the nodes of a roll gives the roll again. -/
theorem ofNodes_self (nodes : List Node) : ofNodes (ofNodes nodes).nodes = ofNodes nodes := by
  induction nodes using List.reverseRecOn with
  | nil => rfl
  | append_singleton nodes n ih =>
    have hstep : ofNodes (nodes ++ [n]) = (ofNodes nodes).take n := by
      simp [ofNodes]
    rw [hstep]
    unfold Roll.take
    cases hl : (ofNodes nodes).index.lookup n.id with
    | some p => exact ih
    | none =>
      have hagain : ofNodes ((ofNodes nodes).nodes ++ [n]) = (ofNodes nodes).take n := by
        rw [ofNodes, List.foldl_append, ← ofNodes, ih]
        rfl
      simp only [hagain, Roll.take, hl]

theorem hasEnds_eq (h : r.Sound) (e : Dependency) :
    r.hasEnds e =
      ((r.nodes.map Node.id).contains e.source && (r.nodes.map Node.id).contains e.target) := by
  rw [Bool.eq_iff_iff, hasEnds, Bool.and_eq_true, Bool.and_eq_true, position?_isSome h,
    position?_isSome h, List.contains_iff_mem, List.contains_iff_mem]

end Roll

section Tables

variable {row : Dependency → Option Nat} {rows : Nat} {edges : List Dependency}

theorem getElem?_enterAt (table : List (List Nat)) (place : Option Nat) (i p : Nat) :
    (enterAt table place i)[p]? =
      table[p]?.map fun entries => if place = some p then entries ++ [i] else entries := by
  cases place with
  | none => simp [enterAt]
  | some q =>
    rw [enterAt, List.getElem?_modify]
    simp

/-- The row of a position gets the entries that belong there, in order, after those it has. -/
theorem getElem?_foldl_enterAt (entries : List (Dependency × Nat)) (table : List (List Nat))
    (p : Nat) : (entries.foldl (fun table x => enterAt table (row x.1) x.2) table)[p]? =
      table[p]?.map (· ++ (entries.filter fun x => row x.1 == some p).map Prod.snd) := by
  induction entries generalizing table with
  | nil => simp
  | cons x rest ih =>
    rw [List.foldl_cons, ih, getElem?_enterAt, Option.map_map]
    congr 1
    funext entries
    by_cases hp : row x.1 = some p
    · simp [hp]
    · simp [hp]

theorem getElem?_tabulate {p : Nat} (hp : p < rows) :
    (tabulate row rows edges)[p]? =
      some ((edges.zipIdx.filter fun x => row x.1 == some p).map Prod.snd) := by
  rw [tabulate, getElem?_foldl_enterAt, List.getElem?_replicate, if_pos hp]
  rfl

theorem map_fst_filter_zipIdx (p : Dependency → Bool) :
    (edges.zipIdx.filter fun x => p x.1).map Prod.fst = edges.filter p := by
  have hmap := List.filter_map (f := Prod.fst) (p := p) (l := edges.zipIdx)
  rw [List.zipIdx_map_fst] at hmap
  exact hmap.symm

/-- The dependencies whose positions stand in a row are those that belong there, in their order. -/
theorem filterMap_tabulate {p : Nat} (hp : p < rows) :
    ((tabulate row rows edges)[p]?.getD []).filterMap (fun i => edges[i]?) =
      edges.filter fun e => row e == some p := by
  have hread : ∀ x ∈ edges.zipIdx.filter fun x => row x.1 == some p,
      ((fun i => edges[i]?) ∘ Prod.snd) x = (some ∘ Prod.fst) x := by
    intro x hx
    exact List.mem_zipIdx_iff_getElem?.mp (List.mem_of_mem_filter hx)
  rw [getElem?_tabulate hp, Option.getD_some, List.filterMap_map, List.filterMap_congr hread,
    List.filterMap_eq_map]
  exact map_fst_filter_zipIdx fun e => row e == some p

theorem length_row {p : Nat} (hp : p < rows) :
    ((tabulate row rows edges)[p]?.getD []).length =
      (edges.filter fun e => row e == some p).length := by
  rw [getElem?_tabulate hp, Option.getD_some, List.length_map,
    ← map_fst_filter_zipIdx fun e => row e == some p, List.length_map]

theorem length_enterAt (table : List (List Nat)) (place : Option Nat) (i : Nat) :
    (enterAt table place i).length = table.length := by
  cases place with
  | none => rfl
  | some p => exact List.length_modify ..

theorem length_tabulate : (tabulate row rows edges).length = rows := by
  have hlen : ∀ (entries : List (Dependency × Nat)) (table : List (List Nat)),
      (entries.foldl (fun table x => enterAt table (row x.1) x.2) table).length = table.length := by
    intro entries
    induction entries with
    | nil => exact fun _ => rfl
    | cons x rest ih => exact fun table => (ih _).trans (length_enterAt table _ _)
  rw [tabulate, hlen, List.length_replicate]

theorem sum_enterAt {table : List (List Nat)} {p : Nat} (hp : p < table.length) (i : Nat) :
    ((enterAt table (some p) i).map List.length).sum = (table.map List.length).sum + 1 := by
  induction table generalizing p with
  | nil => exact absurd hp (Nat.not_lt_zero p)
  | cons entries rest ih =>
    cases p with
    | zero => simp [enterAt]; omega
    | succ p =>
      have hrest := ih (Nat.lt_of_succ_lt_succ hp)
      simp only [enterAt] at hrest
      simp [enterAt, hrest]
      omega

/-- Every entry adds one to the lengths of the rows together. -/
theorem sum_foldl_enterAt {entries : List (Dependency × Nat)} {table : List (List Nat)}
    (h : ∀ x ∈ entries, ∃ p, row x.1 = some p ∧ p < table.length) :
    ((entries.foldl (fun table x => enterAt table (row x.1) x.2) table).map List.length).sum =
      (table.map List.length).sum + entries.length := by
  induction entries generalizing table with
  | nil => simp
  | cons x rest ih =>
    obtain ⟨p, hrow, hp⟩ := h x List.mem_cons_self
    rw [List.foldl_cons, ih, hrow, sum_enterAt hp, List.length_cons]
    · omega
    · intro y hy
      rw [length_enterAt]
      exact h y (List.mem_cons_of_mem x hy)

/-- When every dependency belongs in some row, the rows list as many entries as there are
dependencies. -/
theorem sum_tabulate (h : ∀ e ∈ edges, ∃ p, row e = some p ∧ p < rows) :
    ((tabulate row rows edges).map List.length).sum = edges.length := by
  rw [tabulate, sum_foldl_enterAt]
  · simp
  · intro x hx
    rw [List.length_replicate]
    exact h x.1 (List.mem_of_getElem? (List.mem_zipIdx_iff_getElem?.mp hx))

end Tables

namespace Graph

/-- The nodes of a graph are the ids that were given, each once, with the first node of each. -/
theorem ofParts_nodes (nodes : List Node) (edges : List Dependency) :
    (ofParts nodes edges).nodes =
      (nodes.map Node.id).eraseDups.filterMap fun id => nodes.find? fun n => n.id == id :=
  distinctBy_eq_firsts nodes

end Graph

namespace IndexedGraph

theorem toGraph_ofParts (nodes : List Node) (edges : List Dependency) :
    (ofParts nodes edges).toGraph = Graph.ofParts nodes edges := by
  have hends : (Roll.ofNodes nodes).hasEnds = fun e =>
      ((distinctBy Node.id [] nodes).map Node.id).contains e.source &&
        ((distinctBy Node.id [] nodes).map Node.id).contains e.target := by
    funext e
    rw [Roll.hasEnds_eq (Roll.sound_ofNodes nodes), Roll.ofNodes_nodes]
  rw [toGraph, ofParts, Graph.ofParts, hends, Roll.ofNodes_nodes]

theorem metrics_ofParts (nodes : List Node) (edges : List Dependency) :
    (ofParts nodes edges).metrics = (Graph.ofParts nodes edges).metrics := by
  rw [← toGraph_ofParts]
  rfl

variable {g : IndexedGraph}

/-- The row of an id lists the dependencies that have it on a side, whichever side the table is
for. -/
theorem listed_tabulate (hr : g.roll.Sound) {side : Dependency → String}
    (hside : ∀ e ∈ g.edges, side e ∈ g.roll.nodes.map Node.id) (id : String) :
    g.listed (tabulate (fun e => g.roll.position? (side e)) g.roll.nodes.length g.edges) id =
      g.edges.filter fun e => side e == id := by
  unfold listed
  cases hp : g.roll.position? id with
  | none =>
    have hid : id ∉ g.roll.nodes.map Node.id := (Roll.position?_eq_none hr id).mp hp
    symm
    apply List.filter_eq_nil_iff.mpr
    intro e he hs
    exact hid (eq_of_beq hs ▸ hside e he)
  | some p =>
    obtain ⟨n, hn, hid⟩ := (hr id p).mp hp
    have hlt : p < g.roll.nodes.length := (List.getElem?_eq_some_iff.mp hn).1
    simp only [filterMap_tabulate hlt]
    apply List.filter_congr
    intro e _
    rw [Bool.eq_iff_iff, beq_iff_eq, beq_iff_eq]
    constructor
    · intro hs
      obtain ⟨m, hm, hmid⟩ := (hr (side e) p).mp hs
      rw [hn, Option.some.injEq] at hm
      exact hmid.symm.trans (hm ▸ hid)
    · intro hs
      rw [hs, hp]

theorem length_listed (hr : g.roll.Sound) {row : Dependency → Option Nat} {id : String} {p : Nat}
    (hp : g.roll.position? id = some p) :
    (g.listed (tabulate row g.roll.nodes.length g.edges) id).length =
      ((tabulate row g.roll.nodes.length g.edges)[p]?.getD []).length := by
  obtain ⟨n, hn, _⟩ := (hr id p).mp hp
  have hlt : p < g.roll.nodes.length := (List.getElem?_eq_some_iff.mp hn).1
  simp only [listed, hp, filterMap_tabulate hlt, length_row hlt]

variable (nodes : List Node) (edges : List Dependency)

theorem outgoing_ofParts :
    (ofParts nodes edges).outgoing =
      tabulate (fun e => (ofParts nodes edges).roll.position? e.source)
          (ofParts nodes edges).roll.nodes.length (ofParts nodes edges).edges :=
  rfl

theorem incoming_ofParts :
    (ofParts nodes edges).incoming =
      tabulate (fun e => (ofParts nodes edges).roll.position? e.target)
          (ofParts nodes edges).roll.nodes.length (ofParts nodes edges).edges :=
  rfl

theorem mem_ofParts_edges {nodes : List Node} {edges : List Dependency} {e : Dependency}
    (he : e ∈ (ofParts nodes edges).edges) :
    e.source ∈ (Roll.ofNodes nodes).nodes.map Node.id ∧
      e.target ∈ (Roll.ofNodes nodes).nodes.map Node.id := by
  have hends := (List.mem_filter.mp he).2
  rw [Roll.hasEnds_eq (Roll.sound_ofNodes nodes)] at hends
  simpa [-List.mem_map] using hends

theorem outgoingOf_ofParts (id : String) :
    (ofParts nodes edges).outgoingOf id = (ofParts nodes edges).edges.filter fun e =>
      e.source == id :=
  listed_tabulate (Roll.sound_ofNodes nodes) (fun _ he => (mem_ofParts_edges he).1) id

theorem incomingOf_ofParts (id : String) :
    (ofParts nodes edges).incomingOf id = (ofParts nodes edges).edges.filter fun e =>
      e.target == id :=
  listed_tabulate (Roll.sound_ofNodes nodes) (fun _ he => (mem_ofParts_edges he).2) id

theorem length_listed_ofParts {nodes : List Node} {edges : List Dependency} {id : String} {p : Nat}
    (hp : (ofParts nodes edges).roll.position? id = some p) :
    ((ofParts nodes edges).outgoing[p]?.getD []).length =
      ((ofParts nodes edges).outgoingOf id).length ∧
      ((ofParts nodes edges).incoming[p]?.getD []).length =
          ((ofParts nodes edges).incomingOf id).length := by
  have hr := Roll.sound_ofNodes nodes
  rw [outgoingOf, incomingOf, outgoing_ofParts, incoming_ofParts]
  exact ⟨(length_listed hr hp).symm, (length_listed hr hp).symm⟩

/-- The measures of a node come from the numbers of dependencies at it. -/
theorem nodeMetrics_ofParts :
    (ofParts nodes edges).nodeMetrics = (ofParts nodes edges).roll.nodes.map fun n =>
      Metrics.ofFans ((ofParts nodes edges).incomingOf n.id).length
        ((ofParts nodes edges).outgoingOf n.id).length n.isInterface := by
  apply List.ext_getElem?
  intro p
  have hmeasured : (ofParts nodes edges).nodeMetrics[p]? =
      (ofParts nodes edges).roll.nodes[p]?.map fun n =>
        Metrics.ofFans ((ofParts nodes edges).incoming[p]?.getD []).length
          ((ofParts nodes edges).outgoing[p]?.getD []).length n.isInterface :=
    List.getElem?_mapIdx
  rw [hmeasured, List.getElem?_map]
  cases hn : (ofParts nodes edges).roll.nodes[p]? with
  | none => rfl
  | some n =>
    obtain ⟨hout, hin⟩ := length_listed_ofParts ((Roll.sound_ofNodes nodes n.id p).mpr ⟨n, hn, rfl⟩)
    rw [Option.map_some, Option.map_some, hout, hin]

theorem find?_of_position? {id : String} {p : Nat} (hr : g.roll.Sound)
    (hp : g.roll.position? id = some p) :
    g.roll.nodes.find? (fun n => n.id == id) = g.roll.nodes[p]? := by
  obtain ⟨n, hn, hid⟩ := (hr id p).mp hp
  cases hf : g.roll.nodes.find? fun n => n.id == id with
  | none => exact absurd (List.find?_eq_none.mp hf n (List.mem_of_getElem? hn)) (by simp [hid])
  | some m =>
    obtain ⟨q, hq⟩ := List.getElem?_of_mem (List.mem_of_find?_eq_some hf)
    have hmid : m.id = id := by simpa using List.find?_some hf
    have hqp := (hr id q).mpr ⟨m, hq, hmid⟩
    rw [hp, Option.some.injEq] at hqp
    rw [hqp, hq]

theorem nodeMetrics?_ofParts (id : String) :
    (ofParts nodes edges).nodeMetrics? id = (Graph.ofParts nodes edges).nodeMetrics? id := by
  have hr := Roll.sound_ofNodes nodes
  rw [← toGraph_ofParts]
  unfold nodeMetrics? Graph.nodeMetrics?
  cases hp : (ofParts nodes edges).roll.position? id with
  | none =>
    have hid : id ∉ (ofParts nodes edges).roll.nodes.map Node.id :=
      (Roll.position?_eq_none hr id).mp hp
    have hnone : (ofParts nodes edges).roll.nodes.find? (fun n => n.id == id) = none := by
      apply List.find?_eq_none.mpr
      intro n hn he
      exact hid (eq_of_beq he ▸ List.mem_map_of_mem hn)
    simp only [toGraph, hnone, Option.bind_none, Option.map_none]
  | some p =>
    have hfind := find?_of_position? (g := ofParts nodes edges) hr hp
    obtain ⟨n, hn, hid⟩ := (hr id p).mp hp
    simp only [Option.bind_some, nodeMetrics_ofParts, List.getElem?_map, toGraph, hfind]
    have hn' : (ofParts nodes edges).roll.nodes[p]? = some n := hn
    rw [hn', Option.map_some, Option.map_some, hid, incomingOf_ofParts, outgoingOf_ofParts]
    rfl

theorem map_fans_measureNodes {nodes : List Node} {outgoing incoming : List (List Nat)}
    (ho : outgoing.length = nodes.length) (hi : incoming.length = nodes.length) :
    (measureNodes nodes outgoing incoming).map Metrics.NodeMetrics.fanOut =
      outgoing.map List.length ∧
      (measureNodes nodes outgoing incoming).map Metrics.NodeMetrics.fanIn =
          incoming.map List.length := by
  constructor
  · apply List.ext_getElem
    · simp [measureNodes, ho]
    · intro p h₁ h₂
      have hp : p < outgoing.length := by simpa using h₂
      simp [measureNodes, Metrics.ofFans, hp]
  · apply List.ext_getElem
    · simp [measureNodes, hi]
    · intro p h₁ h₂
      have hp : p < incoming.length := by simpa using h₂
      simp [measureNodes, Metrics.ofFans, hp]

/-- Each dependency is counted once among those that start, and once among those that end, at a
node. -/
theorem sum_fans :
    ((ofParts nodes edges).nodeMetrics.map Metrics.NodeMetrics.fanOut).sum =
        (ofParts nodes edges).edges.length ∧
      ((ofParts nodes edges).nodeMetrics.map Metrics.NodeMetrics.fanIn).sum =
        (ofParts nodes edges).edges.length := by
  have hr := Roll.sound_ofNodes nodes
  have hout : (ofParts nodes edges).outgoing.length = (ofParts nodes edges).roll.nodes.length := by
    rw [outgoing_ofParts, length_tabulate]
  have hin : (ofParts nodes edges).incoming.length = (ofParts nodes edges).roll.nodes.length := by
    rw [incoming_ofParts, length_tabulate]
  obtain ⟨hfanOut, hfanIn⟩ := map_fans_measureNodes hout hin
  constructor
  · apply (congrArg List.sum hfanOut).trans
    rw [outgoing_ofParts, sum_tabulate]
    exact fun e he => Roll.exists_position? hr (mem_ofParts_edges he).1
  · apply (congrArg List.sum hfanIn).trans
    rw [incoming_ofParts, sum_tabulate]
    exact fun e he => Roll.exists_position? hr (mem_ofParts_edges he).2

/-- A graph is put together again from its nodes and its dependencies. -/
theorem ofParts_self :
    ofParts (ofParts nodes edges).roll.nodes (ofParts nodes edges).edges = ofParts nodes edges := by
  have hroll : Roll.ofNodes (ofParts nodes edges).roll.nodes = Roll.ofNodes nodes :=
    Roll.ofNodes_self nodes
  have hedges : (ofParts nodes edges).edges.filter (Roll.ofNodes nodes).hasEnds =
      (ofParts nodes edges).edges := by
    rw [ofParts, List.filter_filter]
    simp
  rw [ofParts, hroll, hedges]
  rfl

theorem ofNodeLink_toNodeLink :
    Graph.ofNodeLink (Graph.ofParts nodes edges).toNodeLink = Graph.ofParts nodes edges := by
  have hself : Graph.ofParts (ofParts nodes edges).toGraph.nodes
      (ofParts nodes edges).toGraph.edges = (ofParts nodes edges).toGraph := by
    rw [← toGraph_ofParts]
    exact congrArg toGraph (ofParts_self nodes edges)
  rw [toGraph_ofParts] at hself
  exact hself

/-- What is asked of the indexed graph of nodes and dependencies. -/
structure Holds (ns : List Node) (es : List Dependency) (g : IndexedGraph) : Prop where
  nodes : g.roll.nodes = (ns.map Node.id).eraseDups.filterMap fun id => ns.find? fun n => n.id == id
  edges : g.edges =
    es.filter fun e => decide (e.source ∈ ns.map Node.id ∧ e.target ∈ ns.map Node.id)
  outgoing : ∀ id, g.outgoingOf id = g.edges.filter fun e => e.source == id
  incoming : ∀ id, g.incomingOf id = g.edges.filter fun e => e.target == id
  nodeMetrics : g.nodeMetrics = g.roll.nodes.map fun n =>
    Metrics.ofFans (g.incomingOf n.id).length (g.outgoingOf n.id).length n.isInterface
  fanOuts : (g.nodeMetrics.map Metrics.NodeMetrics.fanOut).sum = g.edges.length
  fanIns : (g.nodeMetrics.map Metrics.NodeMetrics.fanIn).sum = g.edges.length
  /-- Put together again, from its parts or from its export, the graph is the same in everything. -/
  rebuilt : ofParts g.roll.nodes g.edges = g
  reread : ofNodeLink g.toNodeLink = g
  /-- It is the graph of the same parts, with its measures. -/
  graph : g.toGraph = Graph.ofParts ns es
  graphMetrics : g.metrics = (Graph.ofParts ns es).metrics
  nodeMetrics? : ∀ id, g.nodeMetrics? id = (Graph.ofParts ns es).nodeMetrics? id
  graphReread : Graph.ofNodeLink (Graph.ofParts ns es).toNodeLink = Graph.ofParts ns es

/-- Whatever the nodes and the dependencies are, the index, the tables and the measures fit
together. -/
theorem ofParts_holds (nodes : List Node) (edges : List Dependency) :
    (ofParts nodes edges).Holds nodes edges := by
  have hgraph := toGraph_ofParts nodes edges
  have hnodes := congrArg Graph.nodes hgraph
  have hedges := congrArg Graph.edges hgraph
  obtain ⟨hfanOuts, hfanIns⟩ := sum_fans nodes edges
  exact {
    nodes := hnodes.trans (Graph.ofParts_nodes nodes edges)
    edges := hedges.trans (Graph.ofParts_edges nodes edges)
    outgoing := outgoingOf_ofParts nodes edges
    incoming := incomingOf_ofParts nodes edges
    nodeMetrics := nodeMetrics_ofParts nodes edges
    fanOuts := hfanOuts
    fanIns := hfanIns
    rebuilt := ofParts_self nodes edges
    reread := ofParts_self nodes edges
    graph := hgraph
    graphMetrics := metrics_ofParts nodes edges
    nodeMetrics? := nodeMetrics?_ofParts nodes edges
    graphReread := ofNodeLink_toNodeLink nodes edges }

end IndexedGraph

end CodeAtlas
