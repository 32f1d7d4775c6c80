import Mathlib.Data.List.Nodup
import Mathlib.Order.WellFounded
import CodeAtlas.Graph.Metrics
import CodeAtlas.Proofs.Graph.Traversal

/-!
The cycles that a traversal reports. Each is a simple directed cycle, and together they account for
everything that goes round in a graph: when the last step of each is taken out, what is left has no
cycle at all.
-/

namespace CodeAtlas.Metrics

open Relation Traversal

section Cycle

variable {α : Type*} {leads : α → α → Prop} {cycle : List α} {v w : α}

/-- Whether steps lead along a list of nodes, each of them once, and from the last back to the
first. -/
structure IsCycle (leads : α → α → Prop) (cycle : List α) : Prop where
  nonempty : cycle ≠ []
  nodup : cycle.Nodup
  along : cycle.IsChain leads
  back : ∀ v w, cycle.getLast? = some v → cycle.head? = some w → leads v w

/-- Every node of a chain is reached from the first, and the last is reached from it. -/
theorem reach_of_isChain (h : cycle.IsChain leads) (hends : closingStep? cycle = some (v, w)) :
    ∀ u ∈ cycle, ReflTransGen leads w u ∧ ReflTransGen leads u v := by
  obtain ⟨hlast, hhead⟩ := closingStep?_eq_some.mp hends
  have hpairs : cycle.Pairwise (ReflTransGen leads) :=
    List.isChain_iff_pairwise.mp (h.imp fun _ _ => ReflTransGen.single)
  intro u hu
  constructor
  · obtain ⟨rest, rfl⟩ := List.head?_eq_some_iff.mp hhead
    rcases List.mem_cons.mp hu with rfl | hu
    · exact .refl
    · exact (List.pairwise_cons.mp hpairs).1 u hu
  · obtain ⟨front, rfl⟩ := List.getLast?_eq_some_iff.mp hlast
    rcases List.mem_append.mp hu with hu | hu
    · exact (List.pairwise_append.mp hpairs).2.2 u hu v List.mem_cons_self
    · rw [List.mem_singleton.mp hu]

theorem exists_closingStep? (h : cycle ≠ []) : ∃ v w, closingStep? cycle = some (v, w) :=
  ⟨cycle.getLast h, cycle.head h,
    closingStep?_eq_some.mpr ⟨List.getLast?_eq_some_getLast h, List.head?_eq_some_head h⟩⟩

/-- From every node of a cycle a walk along it leads back to that node. -/
theorem IsCycle.round (h : IsCycle leads cycle) : ∀ u ∈ cycle, TransGen leads u u := by
  intro u hu
  obtain ⟨v, w, hends⟩ := exists_closingStep? h.nonempty
  obtain ⟨hlast, hhead⟩ := closingStep?_eq_some.mp hends
  obtain ⟨hwu, huv⟩ := reach_of_isChain h.along hends u hu
  exact .trans_right huv (.head' (h.back v w hlast hhead) hwu)

theorem IsCycle.exists_round (h : IsCycle leads cycle) : ∃ v, TransGen leads v v := by
  obtain ⟨v, hv⟩ := List.exists_mem_of_ne_nil cycle h.nonempty
  exact ⟨v, h.round v hv⟩

/-- From every node of a cycle a step leads to a node of it. -/
theorem IsCycle.exists_next (h : IsCycle leads cycle) {u : α} (hu : u ∈ cycle) :
    ∃ x ∈ cycle, leads u x := by
  obtain ⟨front, back, rfl⟩ := List.append_of_mem hu
  cases back with
  | nil =>
    obtain ⟨v, w, hends⟩ := exists_closingStep? h.nonempty
    obtain ⟨hlast, hhead⟩ := closingStep?_eq_some.mp hends
    rw [List.getLast?_concat, Option.some.injEq] at hlast
    subst hlast
    exact ⟨w, List.mem_of_mem_head? hhead, h.back u w List.getLast?_concat hhead⟩
  | cons x back =>
    have hnext := (List.isChain_append.mp h.along).2.1
    exact ⟨x, by simp, (List.isChain_cons_cons.mp hnext).1⟩

/-- What is said of nodes under their positions is said of them under their names. -/
theorem IsCycle.map {β : Type*} {other : β → β → Prop} (h : IsCycle leads cycle) {f : α → β}
    (hf : ∀ u ∈ cycle, ∀ x ∈ cycle, f u = f x → u = x)
    (hleads : ∀ u x, leads u x → other (f u) (f x)) : IsCycle other (cycle.map f) where
  nonempty := by simpa using h.nonempty
  nodup := h.nodup.map_on hf
  along := (List.isChain_map f).mpr (h.along.imp hleads)
  back v w hv hw := by
    rw [List.getLast?_map, Option.map_eq_some_iff] at hv
    rw [List.head?_map, Option.map_eq_some_iff] at hw
    obtain ⟨u, hu, rfl⟩ := hv
    obtain ⟨x, hx, rfl⟩ := hw
    exact hleads u x (h.back u x hu hx)

/-- A walk from a node back to itself takes a step that another relation lacks, if there is no such
walk there. -/
theorem exists_missing_step {other : α → α → Prop} (h : TransGen leads v w)
    (hother : ¬ TransGen other v w) :
    ∃ a b, ReflTransGen leads v a ∧ leads a b ∧ ¬ other a b ∧ ReflTransGen leads b w := by
  induction h with
  | @single w hw => exact ⟨v, w, .refl, hw, fun ho => hother (.single ho), .refl⟩
  | @tail u w hu hw ih =>
    by_cases hprev : TransGen other v u
    · exact ⟨u, w, hu.to_reflTransGen, hw, fun ho => hother (hprev.tail ho), .refl⟩
    · obtain ⟨a, b, ha, hab, hno, hb⟩ := ih hprev
      exact ⟨a, b, ha, hab, hno, hb.tail hw⟩

end Cycle

section Graph

variable {successors : List (List Nat)} {v w : Nat}

theorem mem_steps : (v, w) ∈ steps successors ↔ Leads successors v w := by
  rw [steps, List.mem_flatMap, Leads]
  constructor
  · rintro ⟨⟨ws, u⟩, hu, hmem⟩
    obtain ⟨x, hx, he⟩ := List.mem_map.mp hmem
    cases he
    rw [List.mem_zipIdx_iff_getElem?.mp hu]
    exact hx
  · intro hw
    cases hv : successors[v]? with
    | none => simp [hv] at hw
    | some ws =>
      rw [hv, Option.getD_some] at hw
      exact ⟨(ws, v), List.mem_zipIdx_iff_getElem?.mpr hv, List.mem_map_of_mem hw⟩

/-- Whether no walk along steps of the graph comes back to where it started. -/
def Acyclic (successors : List (List Nat)) : Prop :=
  ∀ v, ¬ TransGen (Leads successors) v v

/-- Whether two nodes are strongly connected. -/
def Joined (successors : List (List Nat)) (v w : Nat) : Prop :=
  ReflTransGen (Leads successors) v w ∧ ReflTransGen (Leads successors) w v

theorem IsCycle.joined {cycle : List Nat} (h : IsCycle (Leads successors) cycle) (hv : v ∈ cycle)
    (hw : w ∈ cycle) : Joined successors v w := by
  obtain ⟨a, b, hends⟩ := exists_closingStep? h.nonempty
  obtain ⟨hlast, hhead⟩ := closingStep?_eq_some.mp hends
  obtain ⟨hbv, hva⟩ := reach_of_isChain h.along hends v hv
  obtain ⟨hbw, hwa⟩ := reach_of_isChain h.along hends w hw
  have hback := h.back a b hlast hhead
  exact ⟨(hva.tail hback).trans hbw, (hwa.tail hback).trans hbv⟩

def without (successors : List (List Nat)) (gone : List (Nat × Nat)) : List (List Nat) :=
  successors.mapIdx fun v ws => ws.filter fun w => decide ((v, w) ∉ gone)

theorem leads_without {gone : List (Nat × Nat)} :
    Leads (without successors gone) v w ↔ Leads successors v w ∧ (v, w) ∉ gone := by
  rw [Leads, Leads, without, List.getElem?_mapIdx]
  cases successors[v]? with
  | none => simp
  | some ws => simp

theorem without_nil : without successors [] = successors := by
  apply List.ext_getElem?
  intro v
  rw [without, List.getElem?_mapIdx]
  cases successors[v]? with
  | none => rfl
  | some ws => simp

/-- A graph is acyclic when from every node on all walks end. -/
theorem acyclic_of_acc (h : ∀ v, Acc (fun w v => Leads successors v w) v) : Acyclic successors := by
  intro v hv
  have hwf : WellFounded fun w v => Leads successors v w := ⟨h⟩
  exact hwf.transGen.irrefl.irrefl v (transGen_swap.mpr hv)

def closingSteps (cycles : List (List Nat)) : List (Nat × Nat) :=
  cycles.filterMap closingStep?

theorem mem_closingSteps {cycles : List (List Nat)} :
    (v, w) ∈ closingSteps cycles ↔ ∃ cycle ∈ cycles, closingStep? cycle = some (v, w) :=
  List.mem_filterMap

theorem mem_cycles {cycle : List Nat} :
    cycle ∈ cycles successors ↔ .close cycle ∈ events successors := by
  rw [cycles, List.mem_filterMap]
  constructor
  · rintro ⟨e, he, hc⟩
    cases e with
    | close c =>
      cases hc
      exact he
    | enter v => cases hc
    | again v w => cases hc
    | leave v above => cases hc
  · exact fun h => ⟨_, h, rfl⟩

end Graph

section Reported

variable {successors : List (List Nat)} {past : List Event} {p q : Point} {e : Event}
  {cycle : List Nat}

/-- What a turn closes is a piece of the path being visited, from the node that the last step leads
back to. -/
theorem isCycle_of_turn {next : Nat → List Nat} (hp : Walking next p)
    (ht : Turn next p (.close cycle) q) : IsCycle (fun v w => w ∈ next v) cycle := by
  cases ht with
  | @close fresh v w ws below hw hpath =>
    have hpiece := List.dropWhile_suffix (l := Stack.path ((v, ws) :: below)) (· != w)
    have hends := step?_close hpath
    refine ⟨?_, ?_, ?_, fun a b ha hb => ?_⟩
    · intro hnil
      rw [hnil] at hends
      cases hends
    · refine List.Sublist.nodup hpiece.sublist (List.nodup_reverse.mpr ?_)
      exact (List.nodup_append.mp hp.nodup).2.1
    · exact (List.isChain_reverse.mpr hp.chain).suffix hpiece
    · cases hends.symm.trans (closingStep?_eq_some.mpr ⟨ha, hb⟩)
      exact hp.pending _ List.mem_cons_self List.mem_cons_self

theorem isCycle_of_close (h : .close cycle ∈ events successors) :
    IsCycle (Leads successors) cycle := by
  have hkeep := events_keep successors
    (P := fun past _ => ∀ c, .close c ∈ past → IsCycle (Leads successors) c)
    (fun c hc => absurd hc List.not_mem_nil)
  refine hkeep ?_ cycle h
  intro past p e q hp hpast ht c hc
  rcases List.mem_append.mp hc with hc | hc
  · exact hpast c hc
  · cases List.mem_singleton.mp hc
    exact isCycle_of_turn hp.walking ht

/-- Whether a step of the graph is there and does not lead back in a cycle closed so far. -/
def Remains (successors : List (List Nat)) (past : List Event) (w v : Nat) : Prop :=
  Leads successors v w ∧ ∀ c, .close c ∈ past → closingStep? c ≠ some (v, w)

theorem Remains.of_concat {v w : Nat} (h : Remains successors (past ++ [e]) w v) :
    Remains successors past w v :=
  ⟨h.1, fun c hc => h.2 c (List.mem_append_left _ hc)⟩

/--
What the search has found out: steps it is done with lead back or to settled nodes, and from a
settled node all walks end that take none of the steps leading back.
-/
structure Finished (successors : List (List Nat)) (past : List Event) (p : Point) : Prop where
  done : ∀ e ∈ past, ∀ v w, e.step? = some (v, w) → (∃ c, e = .close c) ∨ w ∉ p.unsettled
  ends : ∀ v, v ∉ p.unsettled → Acc (Remains successors past) v

theorem Finished.turn (h : Finished successors past p) (hp : Searched successors past p)
    (ht : Turn (fun v => successors[v]?.getD []) p e q) : Finished successors (past ++ [e]) q where
  done d hd v w hstep := by
    rcases List.mem_append.mp hd with hd | hd
    · exact (h.done d hd v w hstep).imp_right fun hw hm => hw (ht.unsettled_subset hm)
    · cases List.mem_singleton.mp hd
      exact (ht.step?_spec hp.walking hstep).2.2
  ends v hv := by
    refine Acc.intro v fun w hw => ?_
    obtain ⟨d, hd, hstep⟩ := hp.done ht hv hw.1
    rcases h.done d hd v w hstep with ⟨c, rfl⟩ | hsettled
    · exact absurd hstep (hw.2 c (List.mem_append_left _ hd))
    · exact Subrelation.accessible (fun hr => hr.of_concat) (h.ends w hsettled)

theorem acc_remains (successors : List (List Nat)) (v : Nat) :
    Acc (Remains successors (events successors)) v := by
  have hfinished := events_keep successors (P := Finished successors)
    ⟨fun d hd => absurd hd List.not_mem_nil, fun v hv => Acc.intro v fun w hw => ?_⟩
    fun past p e q hp hfinished ht => hfinished.turn hp ht
  · exact hfinished.ends v List.not_mem_nil
  · exact absurd (List.mem_append_left _ (List.mem_range.mpr hw.1.lt)) hv

/-- Without the last step of each reported cycle a graph is acyclic. -/
theorem acyclic_without (successors : List (List Nat)) :
    Acyclic (without successors (closingSteps (cycles successors))) := by
  refine acyclic_of_acc fun v => Subrelation.accessible (fun {w v} hw => ?_)
    (acc_remains successors v)
  obtain ⟨hleads, hgone⟩ := leads_without.mp hw
  refine ⟨hleads, fun c hc hstep => hgone (mem_closingSteps.mpr ⟨c, mem_cycles.mpr hc, hstep⟩)⟩

/-- Every walk back to its start takes the last step of some reported cycle. -/
theorem exists_closing_step {v : Nat} (h : TransGen (Leads successors) v v) :
    ∃ cycle ∈ cycles successors, ∃ a b, closingStep? cycle = some (a, b) ∧
      ReflTransGen (Leads successors) v a ∧ Leads successors a b ∧
          ReflTransGen (Leads successors) b v := by
  obtain ⟨a, b, ha, hab, hgone, hb⟩ := exists_missing_step h (acyclic_without successors v)
  have hclosing : (a, b) ∈ closingSteps (cycles successors) := by
    by_contra hno
    exact hgone (leads_without.mpr ⟨hab, hno⟩)
  obtain ⟨c, hc, hstep⟩ := mem_closingSteps.mp hclosing
  exact ⟨c, hc, a, b, hstep, ha, hab, hb⟩

theorem cycles_eq_nil_iff : cycles successors = [] ↔ Acyclic successors := by
  constructor
  · intro hnil
    have hacyclic := acyclic_without successors
    rwa [hnil, closingSteps, List.filterMap_nil, without_nil] at hacyclic
  · intro hacyclic
    apply List.eq_nil_iff_forall_not_mem.mpr
    intro c hc
    obtain ⟨v, hround⟩ := (isCycle_of_close (mem_cycles.mp hc)).exists_round
    exact hacyclic v hround

/-- The walk goes through the component of its start, and so does the reported cycle whose last step
it takes. -/
theorem exists_cycle_joined {v : Nat} (h : TransGen (Leads successors) v v) :
    ∃ cycle ∈ cycles successors, ∀ u ∈ cycle, Joined successors v u := by
  obtain ⟨c, hc, a, b, hends, ha, hab, hb⟩ := exists_closing_step h
  refine ⟨c, hc, fun u hu => ?_⟩
  obtain ⟨hbu, hua⟩ := reach_of_isChain (isCycle_of_close (mem_cycles.mp hc)).along hends u hu
  exact ⟨(ha.tail hab).trans hbu, (hua.tail hab).trans hb⟩

/-- Every reported cycle is a simple directed cycle of the graph. -/
theorem cycles_isCycle (successors : List (List Nat)) :
    ∀ cycle ∈ cycles successors, IsCycle (Leads successors) cycle :=
  fun _ hc => isCycle_of_close (mem_cycles.mp hc)

/-- Three nodes in a circle, and a fourth that the circle leads out to. -/
def circleAndTail : List (List Nat) :=
  [[1], [2], [0, 3], []]

theorem cycles_isCycle_circleAndTail :
    cycles circleAndTail = [[0, 1, 2]] ∧ IsCycle (Leads circleAndTail) [0, 1, 2] := by
  have hcycles : cycles circleAndTail = [[0, 1, 2]] := by cbv
  exact ⟨hcycles, cycles_isCycle circleAndTail _ (hcycles ▸ List.mem_singleton_self _)⟩

/--
Without the last step of each reported cycle a graph is acyclic. So no cycle is reported exactly
when there is none, and a strongly connected component with a cycle has a reported one.
-/
theorem cycles_cover (successors : List (List Nat)) :
    Acyclic (without successors (closingSteps (cycles successors))) ∧
      (cycles successors = [] ↔ Acyclic successors) ∧
      ∀ v, (∃ c, IsCycle (Leads successors) c ∧ ∀ u ∈ c, Joined successors v u) →
        ∃ c ∈ cycles successors, IsCycle (Leads successors) c ∧ ∀ u ∈ c, Joined successors v u := by
  refine ⟨acyclic_without successors, cycles_eq_nil_iff, fun v => ?_⟩
  rintro ⟨c, hc, hjoined⟩
  obtain ⟨u, hu⟩ := List.exists_mem_of_ne_nil c hc.nonempty
  obtain ⟨hvu, huv⟩ := hjoined u hu
  obtain ⟨d, hd, hwithin⟩ :=
    exists_cycle_joined (TransGen.trans_right hvu ((hc.round u hu).trans_left huv))
  exact ⟨d, hd, isCycle_of_close (mem_cycles.mp hd), hwithin⟩

theorem cycles_cover_circleAndTail :
    IsCycle (Leads circleAndTail) [1, 2, 0] ∧
      ∃ c ∈ cycles circleAndTail, IsCycle (Leads circleAndTail) c ∧
          ∀ u ∈ c, Joined circleAndTail 1 u := by
  have hcycle : IsCycle (Leads circleAndTail) [1, 2, 0] := by
    refine ⟨by simp, by simp, by simp [Leads, circleAndTail], fun v w hv hw => ?_⟩
    cases hv
    cases hw
    simp [Leads, circleAndTail]
  exact ⟨hcycle, (cycles_cover circleAndTail).2.2 1
    ⟨_, hcycle, fun u hu => hcycle.joined (by simp) hu⟩⟩

end Reported

end CodeAtlas.Metrics
