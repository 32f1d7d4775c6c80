import Mathlib.Algebra.BigOperators.Group.List.Basic
import Mathlib.Algebra.Ring.Nat
import Mathlib.Data.List.Chain
import Mathlib.Data.List.TakeWhile
import CodeAtlas.Graph.Traversal

/-!
A traversal turn by turn. A turn either enters a node, or leaves one, or is done with one step of
the graph; what every turn keeps holds from the first to the last. The nodes being visited stand
along a path of the graph, a node is left only when all its steps are done with, and a traversal
cannot go on for more turns than the nodes and the steps of the graph allow.
-/

namespace CodeAtlas.Traversal

/-- Where a traversal stands: the nodes not yet met and the nodes being visited. -/
structure Point where
  fresh : List Nat
  stack : Stack

/-- The nodes that are being visited or were not met yet; all others were left, or are no nodes. -/
def Point.unsettled (p : Point) : List Nat :=
  p.fresh ++ p.stack.map Prod.fst

/-- One turn of a traversal, with what happens in it. -/
inductive Turn (successors : Nat → List Nat) : Point → Event → Point → Prop where
  | start (v : Nat) (fresh : List Nat) :
    Turn successors ⟨v :: fresh, []⟩ (.enter v) ⟨fresh, [(v, successors v)]⟩
  | leave (fresh : List Nat) (v : Nat) (below : Stack) :
    Turn successors ⟨fresh, (v, []) :: below⟩ (.leave v (below.head?.map Prod.fst)) ⟨fresh, below⟩
  | enter {fresh : List Nat} {w : Nat} (v : Nat) (ws : List Nat) (below : Stack) (hw : w ∈ fresh) :
    Turn successors ⟨fresh, (v, w :: ws) :: below⟩ (.enter w)
      ⟨fresh.erase w, (w, successors w) :: (v, ws) :: below⟩
  | close {fresh : List Nat} {v w : Nat} {ws : List Nat} {below : Stack} (hw : w ∉ fresh)
    (hpath : w ∈ Stack.path ((v, ws) :: below)) :
    Turn successors ⟨fresh, (v, w :: ws) :: below⟩
      (.close ((Stack.path ((v, ws) :: below)).dropWhile (· != w))) ⟨fresh, (v, ws) :: below⟩
  | again {fresh : List Nat} {v w : Nat} {ws : List Nat} {below : Stack} (hw : w ∉ fresh)
    (hpath : w ∉ Stack.path ((v, ws) :: below)) :
    Turn successors ⟨fresh, (v, w :: ws) :: below⟩ (.again v w) ⟨fresh, (v, ws) :: below⟩

/-- Turns one after the other, with what happens in them. -/
inductive Turns (successors : Nat → List Nat) : Point → List Event → Point → Prop where
  | none (p : Point) : Turns successors p [] p
  | cons {p q r : Point} {e : Event} {es : List Event} (turn : Turn successors p e q)
    (rest : Turns successors q es r) : Turns successors p (e :: es) r

section Turns

variable {successors : Nat → List Nat} {p q : Point} {e : Event} {es : List Event}

/-- The events of a traversal are those of its turns, until nothing is left to visit. -/
theorem turns_run (successors : Nat → List Nat) (fresh : List Nat) (stack : Stack) :
    Turns successors ⟨fresh, stack⟩ (run successors fresh stack) ⟨[], []⟩ := by
  fun_induction run successors fresh stack with
  | case1 => exact .none _
  | case2 v rest ih => exact .cons (.start v rest) ih
  | case3 fresh v below ih => exact .cons (.leave fresh v below) ih
  | case4 fresh v w ws below hw ih => exact .cons (.enter v ws below hw) ih
  | case5 fresh v w ws below hw path hpath => exact .cons (.close hw hpath) ‹_›
  | case6 fresh v w ws below hw path hpath => exact .cons (.again hw hpath) ‹_›

/-- What every turn keeps, of the events so far and the point reached, holds at the end of any
number of turns. -/
theorem Turns.keep {P : List Event → Point → Prop}
    (turn : ∀ past p e q, P past p → Turn successors p e q → P (past ++ [e]) q) {past : List Event}
    (hp : P past p) (h : Turns successors p es q) : P (past ++ es) q := by
  induction h generalizing past with
  | none p => rwa [List.append_nil]
  | cons h _ ih =>
    rw [List.append_cons]
    exact ih (turn _ _ _ _ hp h)

/-- The turns that are left at most: two for each node not yet met, one for each node and each step
still open. -/
def Point.size (successors : Nat → List Nat) (p : Point) : Nat :=
  (p.fresh.map fun v => (successors v).length + 2).sum + p.stack.size

theorem Turn.size_lt (h : Turn successors p e q) : q.size successors < p.size successors := by
  cases h with
  | start v fresh => simp [Point.size, Stack.size]; omega
  | leave fresh v below => simp [Point.size, Stack.size]
  | enter v ws below hw =>
    have hsum := List.sum_map_erase (fun v => (successors v).length + 2) hw
    simp only [Point.size, Stack.size, List.foldr_cons, List.length_cons]
    omega
  | close hw hpath => simp [Point.size, Stack.size]
  | again hw hpath => simp [Point.size, Stack.size]

/-- A traversal ends: from no point on can it take more turns than the size of the point. -/
theorem Turns.length_le (h : Turns successors p es q) : es.length ≤ p.size successors := by
  induction h with
  | none p => exact Nat.zero_le _
  | cons turn _ ih => exact Nat.lt_of_le_of_lt ih turn.size_lt

end Turns

section Path

variable {successors : Nat → List Nat} {p q : Point} {e : Event}

/-- A node that is left is settled; in any other turn the same nodes stay unsettled. -/
theorem Turn.unsettled (h : Turn successors p e q) :
    p.unsettled.Perm q.unsettled ∨ ∃ v above, e = .leave v above ∧
      p.unsettled.Perm (v :: q.unsettled) := by
  cases h with
  | start v fresh =>
    rw [Point.unsettled, List.map_nil, List.append_nil]
    exact .inl (List.perm_append_singleton v fresh).symm
  | leave fresh v below => exact .inr ⟨v, _, rfl, List.perm_middle⟩
  | enter v ws below hw =>
    refine .inl (((List.perm_cons_erase hw).append_right _).trans ?_)
    exact List.perm_middle.symm
  | close hw hpath => exact .inl (.refl _)
  | again hw hpath => exact .inl (.refl _)

theorem Turn.unsettled_subset (h : Turn successors p e q) : q.unsettled ⊆ p.unsettled := by
  rcases h.unsettled with hperm | ⟨v, _, _, hperm⟩
  · exact hperm.symm.subset
  · exact fun u hu => hperm.symm.subset (List.mem_cons_of_mem v hu)

/-- What holds of a point at any time: the nodes being visited, from the last entered on, stand
along a path. -/
structure Walking (successors : Nat → List Nat) (p : Point) : Prop where
  nodup : p.unsettled.Nodup
  chain : (p.stack.map Prod.fst).IsChain fun w v => w ∈ successors v
  pending : ∀ f ∈ p.stack, f.2 ⊆ successors f.1

/-- The steps still to come from the nodes being visited, when the next one has been taken off. -/
theorem pending_tail {v w : Nat} {ws : List Nat} {below : Stack}
    (h : ∀ f ∈ (v, w :: ws) :: below, f.2 ⊆ successors f.1) :
    ∀ f ∈ (v, ws) :: below, f.2 ⊆ successors f.1 := by
  obtain ⟨hv, hbelow⟩ := List.forall_mem_cons.mp h
  exact List.forall_mem_cons.mpr ⟨(List.cons_subset.mp hv).2, hbelow⟩

theorem Walking.turn (h : Walking successors p) (ht : Turn successors p e q) :
    Walking successors q where
  nodup := by
    rcases ht.unsettled with hperm | ⟨v, _, _, hperm⟩
    · exact hperm.nodup_iff.mp h.nodup
    · exact (List.nodup_cons.mp (hperm.nodup_iff.mp h.nodup)).2
  chain := by
    have hchain := h.chain
    have hpending := h.pending
    cases ht with
    | start v fresh => exact .singleton v
    | leave fresh v below => exact hchain.tail
    | enter v ws below hw =>
      exact .cons_cons (hpending _ List.mem_cons_self List.mem_cons_self) hchain
    | close hw hpath => exact hchain
    | again hw hpath => exact hchain
  pending := by
    have hpending := h.pending
    cases ht with
    | start v fresh => exact List.forall_mem_singleton.mpr (List.Subset.refl _)
    | leave fresh v below => exact fun f hf => hpending f (List.mem_cons_of_mem _ hf)
    | enter v ws below hw =>
      exact List.forall_mem_cons.mpr ⟨List.Subset.refl _, pending_tail hpending⟩
    | close hw hpath => exact pending_tail hpending
    | again hw hpath => exact pending_tail hpending

/-- The path being visited leads back to a node on it through the part from that node on. -/
theorem closes_path {v w : Nat} {ws : List Nat} {below : Stack}
    (hw : w ∈ Stack.path ((v, ws) :: below)) :
    ((Stack.path ((v, ws) :: below)).dropWhile (· != w)).getLast? = some v ∧
      ((Stack.path ((v, ws) :: below)).dropWhile (· != w)).head? = some w := by
  generalize hpath : Stack.path ((v, ws) :: below) = path at hw
  have hlast : path.getLast? = some v := by
    rw [← hpath, Stack.path, List.getLast?_reverse]
    rfl
  have hne : path.dropWhile (· != w) ≠ [] := by
    intro hnil
    simpa using List.dropWhile_eq_nil_iff.mp hnil w hw
  constructor
  · obtain ⟨front, hfront⟩ := List.dropWhile_suffix (l := path) (· != w)
    rw [← hfront, List.getLast?_append_of_ne_nil _ hne] at hlast
    exact hlast
  · obtain ⟨u, hu⟩ := Option.ne_none_iff_exists'.mp (mt List.head?_eq_none_iff.mp hne)
    have hfirst := List.head?_dropWhile_not (· != w) path
    rw [hu] at hfirst ⊢
    simpa using hfirst

end Path

section Looked

/-- The step that leads back in a cycle, from its last node to its first. -/
def closingStep? {α : Type*} (cycle : List α) : Option (α × α) :=
  cycle.getLast?.bind fun v => cycle.head?.map fun w => (v, w)

theorem closingStep?_eq_some {α : Type*} {cycle : List α} {v w : α} :
    closingStep? cycle = some (v, w) ↔ cycle.getLast? = some v ∧ cycle.head? = some w := by
  simp [closingStep?, Option.bind_eq_some_iff]

/-- The step of the graph that is done with in an event: it leads back, or it leads to a node that
was left. -/
def Event.step? : Event → Option (Nat × Nat)
  | .enter _ => none
  | .close cycle => closingStep? cycle
  | .again v w => some (v, w)
  | .leave w above => above.map fun v => (v, w)

variable {successors : Nat → List Nat} {p q : Point} {e : Event} {past : List Event}

/--
Of each step from a node on a stack either its turn is still to come, or it leads to the node
entered next, or some event of the past was done with it. The node above the stack is the one
entered last from it.
-/
def Looked (successors : Nat → List Nat) (past : List Event) : Option Nat → Stack → Prop
  | _, [] => True
  | above, (v, ws) :: below =>
    (∀ w ∈ successors v, w ∈ ws ∨ above = some w ∨ ∃ e ∈ past, e.step? = some (v, w)) ∧
      Looked successors past (some v) below

theorem Looked.concat {above : Option Nat} {stack : Stack} (h : Looked successors past above stack)
    (e : Event) : Looked successors (past ++ [e]) above stack := by
  induction stack generalizing above with
  | nil => trivial
  | cons f below ih =>
    refine ⟨fun w hw => ?_, ih h.2⟩
    rcases h.1 w hw with hws | habove | ⟨d, hd, hstep⟩
    · exact .inl hws
    · exact .inr (.inl habove)
    · exact .inr (.inr ⟨d, List.mem_append_left _ hd, hstep⟩)

/-- A step from the top node that was open is open still, if the next event is not done with it. -/
theorem Looked.next {above above' : Option Nat} {v : Nat} {ws ws' : List Nat} {below : Stack}
    (h : Looked successors past above ((v, ws) :: below))
    (hnext : ∀ w, w ∈ ws ∨ above = some w → w ∈ ws' ∨ above' = some w ∨ e.step? = some (v, w)) :
    Looked successors (past ++ [e]) above' ((v, ws') :: below) := by
  obtain ⟨htop, hbelow⟩ := h.concat e
  refine ⟨fun w hw => ?_, hbelow⟩
  rcases or_assoc.mpr (htop w hw) with hopen | hdone
  · rcases hnext w hopen with hws | habove | hstep
    · exact .inl hws
    · exact .inr (.inl habove)
    · exact .inr (.inr ⟨e, List.mem_append_right _ List.mem_cons_self, hstep⟩)
  · exact .inr (.inr hdone)

/-- An event that is done with the next step of the top node takes it off the steps still to
come. -/
theorem Looked.look {v w : Nat} {ws : List Nat} {below : Stack}
    (h : Looked successors past none ((v, w :: ws) :: below)) (he : e.step? = some (v, w)) :
    Looked successors (past ++ [e]) none ((v, ws) :: below) := by
  refine h.next fun u hu => ?_
  rcases hu with hus | hnone
  · rcases List.mem_cons.mp hus with rfl | hus
    · exact .inr (.inr he)
    · exact .inl hus
  · cases hnone

theorem step?_close {v w : Nat} {ws : List Nat} {below : Stack}
    (hw : w ∈ Stack.path ((v, ws) :: below)) :
    (Event.close ((Stack.path ((v, ws) :: below)).dropWhile (· != w))).step? = some (v, w) :=
  closingStep?_eq_some.mpr (closes_path hw)

theorem Looked.turn (h : Looked successors past none p.stack) (ht : Turn successors p e q) :
    Looked successors (past ++ [e]) none q.stack := by
  cases ht with
  | start v fresh => exact ⟨fun w hw => .inl hw, trivial⟩
  | leave fresh v below =>
    cases below with
    | nil => trivial
    | cons f below =>
      -- The node above was the one left, and with that its step from `f` is done with.
      refine h.2.next fun w hw => ?_
      rcases hw with hws | habove
      · exact .inl hws
      · cases habove
        exact .inr (.inr rfl)
  | enter v ws below hw =>
    refine ⟨fun u hu => .inl hu, h.next fun u hu => ?_⟩
    rcases hu with hus | hnone
    · rcases List.mem_cons.mp hus with rfl | hus
      · exact .inr (.inl rfl)
      · exact .inl hus
    · cases hnone
  | close hw hpath => exact h.look (step?_close hpath)
  | again hw hpath => exact h.look rfl

/-- The step that an event is done with starts at a node being visited, and leads back or to a
settled node. -/
theorem Turn.step?_spec (hp : Walking successors p) (ht : Turn successors p e q) {v w : Nat}
    (he : e.step? = some (v, w)) :
    w ∈ successors v ∧ v ∈ q.stack.map Prod.fst ∧
      ((∃ cycle, e = .close cycle) ∨ w ∉ q.unsettled) := by
  cases ht with
  | start u fresh => cases he
  | leave fresh u below =>
    cases below with
    | nil => cases he
    | cons f below =>
      cases he
      refine ⟨(List.isChain_cons_cons.mp hp.chain).1, List.mem_cons_self, .inr ?_⟩
      exact (List.nodup_cons.mp (List.perm_middle.nodup_iff.mp hp.nodup)).1
  | enter u us below hw => cases he
  | close hw hpath =>
    rw [step?_close hpath] at he
    cases he
    exact ⟨hp.pending _ List.mem_cons_self List.mem_cons_self, List.mem_cons_self, .inl ⟨_, rfl⟩⟩
  | again hw hpath =>
    cases he
    refine ⟨hp.pending _ List.mem_cons_self List.mem_cons_self, List.mem_cons_self, .inr ?_⟩
    intro hm
    rcases List.mem_append.mp hm with hm | hm
    · exact hw hm
    · exact hpath (List.mem_reverse.mpr hm)

end Looked

section Events

variable {successors : List (List Nat)}

def Leads (successors : List (List Nat)) (v w : Nat) : Prop :=
  w ∈ successors[v]?.getD []

def start (successors : List (List Nat)) : Point :=
  ⟨List.range successors.length, []⟩

/-- What holds during the traversal of a whole graph: all steps from a settled node are done
with. -/
structure Searched (successors : List (List Nat)) (past : List Event) (p : Point) : Prop where
  walking : Walking (fun v => successors[v]?.getD []) p
  looked : Looked (fun v => successors[v]?.getD []) past none p.stack
  settled : ∀ v w, v ∉ p.unsettled → Leads successors v w → ∃ e ∈ past, e.step? = some (v, w)

theorem Leads.lt {v w : Nat} (h : Leads successors v w) : v < successors.length := by
  by_contra hv
  rw [Leads, List.getElem?_eq_none (Nat.le_of_not_lt hv)] at h
  exact List.not_mem_nil h

theorem searched_start (successors : List (List Nat)) :
    Searched successors [] (start successors) where
  walking := by
    refine ⟨?_, .nil, fun f hf => absurd hf List.not_mem_nil⟩
    rw [Point.unsettled, start, List.map_nil, List.append_nil]
    exact List.nodup_range
  looked := trivial
  settled v w hv h := absurd (List.mem_append_left _ (List.mem_range.mpr h.lt)) hv

section Turn

variable {past : List Event} {p q : Point} {e : Event}

/-- When a node gets settled, its steps were done with before: it is the node left, and none was
still to come. -/
theorem Searched.done (h : Searched successors past p)
    (ht : Turn (fun v => successors[v]?.getD []) p e q) {v w : Nat} (hv : v ∉ q.unsettled)
    (hw : Leads successors v w) : ∃ e ∈ past, e.step? = some (v, w) := by
  by_cases hold : v ∈ p.unsettled
  · obtain hperm | ⟨u, above, rfl, hperm⟩ := ht.unsettled
    · exact absurd (hperm.subset hold) hv
    · rcases List.mem_cons.mp (hperm.subset hold) with rfl | hmem
      · cases ht with
        | leave fresh v below =>
          rcases h.looked.1 w hw with hnil | hnone | hdone
          · cases hnil
          · cases hnone
          · exact hdone
      · exact absurd hmem hv
  · exact h.settled v w hold hw

theorem Searched.turn (h : Searched successors past p)
    (ht : Turn (fun v => successors[v]?.getD []) p e q) : Searched successors (past ++ [e]) q where
  walking := h.walking.turn ht
  looked := h.looked.turn ht
  settled v w hv hw := by
    obtain ⟨d, hd, hstep⟩ := h.done ht hv hw
    exact ⟨d, List.mem_append_left _ hd, hstep⟩

end Turn

/-- What holds at the start of the traversal of a graph and is kept by every turn holds of all its
events. -/
theorem events_keep (successors : List (List Nat)) {P : List Event → Point → Prop}
    (hstart : P [] (start successors)) (turn : ∀ past p e q, Searched successors past p → P past p →
      Turn (fun v => successors[v]?.getD []) p e q → P (past ++ [e]) q) :
    P (events successors) ⟨[], []⟩ := by
  have hkeep := Turns.keep (P := fun past p => Searched successors past p ∧ P past p)
    (fun past p e q hp ht => ⟨hp.1.turn ht, turn past p e q hp.1 hp.2 ht⟩)
    ⟨searched_start successors, hstart⟩ (turns_run _ (List.range successors.length) [])
  exact hkeep.2

/-- Every step of a graph is done with in some event of its traversal. -/
theorem exists_event {v w : Nat} (h : Leads successors v w) :
    ∃ e ∈ events successors, e.step? = some (v, w) := by
  have hsearched := events_keep successors (P := Searched successors) (searched_start successors)
    fun past p e q hp _ ht => hp.turn ht
  exact hsearched.settled v w List.not_mem_nil h

end Events

end CodeAtlas.Traversal
