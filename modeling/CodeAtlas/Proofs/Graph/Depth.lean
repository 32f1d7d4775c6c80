import Mathlib.Order.Bounds.Defs
import CodeAtlas.Proofs.Graph.Cycles
import CodeAtlas.Proofs.Graph.Measures

/-!
The depth of a graph is that of its longest path, as long as no path comes back to itself. While the
graph is traversed, each step that is done with raises what was found for the node it starts from
above what was found for the node it leads to, and what was found for a settled node does not change
any more.
-/

namespace CodeAtlas.Metrics

open Relation Traversal

section Raise

variable {depths : List Nat} {v w n : Nat} {e : Event}

theorem getD_raise_self (hv : v < depths.length) :
    (raise depths v n)[v]?.getD 0 = max n (depths[v]?.getD 0) := by
  rw [raise, List.getElem?_modify, List.getElem?_eq_getElem hv]
  simp

theorem getD_raise_of_ne (h : w ≠ v) : (raise depths v n)[w]?.getD 0 = depths[w]?.getD 0 := by
  rw [raise, List.getElem?_modify]
  simp [h.symm]

theorem le_getD_raise (depths : List Nat) (v n w : Nat) :
    depths[w]?.getD 0 ≤ (raise depths v n)[w]?.getD 0 := by
  by_cases h : w = v
  · subst h
    by_cases hw : w < depths.length
    · rw [getD_raise_self hw]
      exact Nat.le_max_right _ _
    · rw [List.getElem?_eq_none (Nat.le_of_not_lt hw)]
      exact Nat.zero_le _
  · exact (getD_raise_of_ne h).ge

/-- An event raises what was found for the node of the step it is done with, and nothing else. -/
theorem exists_raise (depths : List Nat) (he : e.step? = some (v, w)) :
    ∃ n, deepen depths e = raise depths v n ∧
      ((∃ c, e = .close c) ∧ n = 1 ∨ n = depths[w]?.getD 0 + 1) := by
  cases e with
  | enter u => cases he
  | close cycle =>
    obtain ⟨hlast, -⟩ := closingStep?_eq_some.mp he
    refine ⟨1, ?_, .inl ⟨⟨cycle, rfl⟩, rfl⟩⟩
    rw [deepen, hlast]
  | again u x =>
    cases he
    exact ⟨_, rfl, .inr rfl⟩
  | leave u above =>
    obtain ⟨x, rfl, hx⟩ := Option.map_eq_some_iff.mp he
    cases hx
    exact ⟨_, rfl, .inr rfl⟩

theorem deepen_eq_self (he : e.step? = none) : deepen depths e = depths := by
  cases e with
  | enter u => rfl
  | close cycle =>
    cases cycle with
    | nil => rfl
    | cons x rest =>
      obtain ⟨v, w, hends⟩ := exists_closingStep? (List.cons_ne_nil x rest)
      cases he.symm.trans hends
  | again u x => cases he
  | leave u above =>
    cases above with
    | none => rfl
    | some x => cases he

end Raise

section Found

variable {successors : List (List Nat)} {past : List Event} {p q : Point} {e : Event} {v w : Nat}

def found (successors : List (List Nat)) (past : List Event) : List Nat :=
  past.foldl deepen (List.replicate successors.length 0)

/-- The length of the longest path that was found so far to start at a node. -/
def depthOf (successors : List (List Nat)) (past : List Event) (v : Nat) : Nat :=
  (found successors past)[v]?.getD 0

theorem found_concat : found successors (past ++ [e]) = deepen (found successors past) e := by
  rw [found, List.foldl_append]
  rfl

theorem length_deepen (depths : List Nat) (e : Event) :
    (deepen depths e).length = depths.length := by
  cases he : e.step? with
  | none => rw [deepen_eq_self he]
  | some s =>
    obtain ⟨n, hraise, -⟩ := exists_raise _ he
    rw [hraise, raise, List.length_modify]

theorem length_found : (found successors past).length = successors.length := by
  rw [found]
  induction past using List.reverseRecOn with
  | nil => exact List.length_replicate
  | append_singleton past e ih =>
    rwa [List.foldl_append, List.foldl_cons, List.foldl_nil, length_deepen]

theorem depthOf_start : depthOf successors [] v = 0 := by
  rw [depthOf, found, List.foldl_nil, List.getElem?_replicate]
  split <;> rfl

theorem depthOf_le_concat : depthOf successors past v ≤ depthOf successors (past ++ [e]) v := by
  rw [depthOf, depthOf, found_concat]
  cases he : e.step? with
  | none => rw [deepen_eq_self he]
  | some s =>
    obtain ⟨n, hraise, -⟩ := exists_raise _ he
    rw [hraise]
    exact le_getD_raise _ _ _ _

/-- What was found for a node changes only with an event that is done with a step from it. -/
theorem depthOf_concat_of_ne (h : ∀ u, e.step? ≠ some (v, u)) :
    depthOf successors (past ++ [e]) v = depthOf successors past v := by
  rw [depthOf, depthOf, found_concat]
  cases he : e.step? with
  | none => rw [deepen_eq_self he]
  | some s =>
    obtain ⟨n, hraise, -⟩ := exists_raise _ he
    rw [hraise]
    refine getD_raise_of_ne fun hv => h s.2 ?_
    rw [hv, he]

/-- An event that is done with a step leaves the greater of what it counts and of what was found
before. -/
theorem depthOf_concat (past : List Event) (hv : v < successors.length)
    (he : e.step? = some (v, w)) :
    ∃ n, depthOf successors (past ++ [e]) v = max n (depthOf successors past v) ∧
      ((∃ c, e = .close c) ∧ n = 1 ∨ n = depthOf successors past w + 1) := by
  obtain ⟨n, hraise, hn⟩ := exists_raise (found successors past) he
  refine ⟨n, ?_, hn⟩
  rw [depthOf, found_concat, hraise, getD_raise_self (by rwa [length_found])]
  rfl

/-- What a traversal has found so far: steps it is done with count at their source, with what
follows a settled node. -/
structure Measured (successors : List (List Nat)) (past : List Event) (p : Point) : Prop where
  leads : ∀ v, 0 < depthOf successors past v → ∃ w, Leads successors v w
  counts : ∀ e ∈ past, ∀ v w, e.step? = some (v, w) →
    (∃ c, e = .close c) ∧ 0 < depthOf successors past v ∨
      w ∉ p.unsettled ∧ depthOf successors past w < depthOf successors past v

theorem measured_start : Measured successors [] (start successors) where
  leads v hv := absurd hv (by rw [depthOf_start]; exact Nat.lt_irrefl 0)
  counts e he := absurd he List.not_mem_nil

theorem Measured.turn (h : Measured successors past p) (hp : Searched successors past p)
    (ht : Turn (fun v => successors[v]?.getD []) p e q) : Measured successors (past ++ [e]) q where
  leads v hv := by
    by_cases hsource : ∃ w, e.step? = some (v, w)
    · obtain ⟨w, hstep⟩ := hsource
      exact ⟨w, (ht.step?_spec hp.walking hstep).1⟩
    · rw [depthOf_concat_of_ne fun w hw => hsource ⟨w, hw⟩] at hv
      exact h.leads v hv
  counts d hd v w hstep := by
    -- A settled node is not the source of the step the event is done with, so its depth is final.
    have hfinal : ∀ u, u ∉ q.unsettled →
        depthOf successors (past ++ [e]) u = depthOf successors past u :=
      fun u hu => depthOf_concat_of_ne fun x hx =>
        hu (List.mem_append_right _ (ht.step?_spec hp.walking hx).2.1)
    rcases List.mem_append.mp hd with hd | hd
    · have hmono : depthOf successors past v ≤ depthOf successors (past ++ [e]) v :=
        depthOf_le_concat
      rcases h.counts d hd v w hstep with ⟨hclose, hpos⟩ | ⟨hw, hlt⟩
      · exact .inl ⟨hclose, Nat.lt_of_lt_of_le hpos hmono⟩
      · have hw' : w ∉ q.unsettled := fun hm => hw (ht.unsettled_subset hm)
        rw [hfinal w hw']
        exact .inr ⟨hw', Nat.lt_of_lt_of_le hlt hmono⟩
    · cases List.mem_singleton.mp hd
      obtain ⟨hleads, -, hend⟩ := ht.step?_spec hp.walking hstep
      obtain ⟨n, hmax, hn⟩ := depthOf_concat past (Leads.lt hleads) hstep
      rw [hmax]
      rcases hn with ⟨hclose, rfl⟩ | rfl
      · exact .inl ⟨hclose, Nat.lt_of_lt_of_le Nat.zero_lt_one (Nat.le_max_left _ _)⟩
      · rcases hend with hclose | hw
        · exact .inl ⟨hclose, Nat.lt_of_lt_of_le (Nat.succ_pos _) (Nat.le_max_left _ _)⟩
        · rw [hfinal w hw]
          exact .inr ⟨hw, Nat.lt_of_lt_of_le (Nat.lt_succ_self _) (Nat.le_max_left _ _)⟩

theorem measured_events (successors : List (List Nat)) :
    Measured successors (events successors) ⟨[], []⟩ :=
  events_keep successors measured_start fun _ _ _ _ hp h ht => h.turn hp ht

theorem dependencyDepth_eq (successors : List (List Nat)) :
    dependencyDepth successors = (found successors (events successors)).max?.getD 0 := by
  rw [dependencyDepth, ← found, List.foldl_max, Nat.zero_max]

theorem depthOf_le (v : Nat) :
    depthOf successors (events successors) v ≤ dependencyDepth successors := by
  rw [depthOf, dependencyDepth_eq]
  cases hm : (found successors (events successors)).max? with
  | none =>
    rw [List.max?_eq_none_iff.mp hm]
    exact Nat.le_refl 0
  | some m =>
    cases hv : (found successors (events successors))[v]? with
    | none => exact Nat.zero_le m
    | some d => exact (List.max?_eq_some_iff.mp hm).2 d (List.mem_of_getElem? hv)

theorem exists_depthOf (successors : List (List Nat)) :
    ∃ v, depthOf successors (events successors) v = dependencyDepth successors := by
  simp only [depthOf, dependencyDepth_eq]
  cases hm : (found successors (events successors)).max? with
  | none =>
    rw [List.max?_eq_none_iff.mp hm]
    exact ⟨0, rfl⟩
  | some m =>
    obtain ⟨v, hv⟩ := List.getElem?_of_mem (List.max?_eq_some_iff.mp hm).1
    exact ⟨v, by rw [hv]⟩

/-- Nothing is found exactly where there are no steps. -/
theorem dependencyDepth_eq_zero_iff : dependencyDepth successors = 0 ↔ steps successors = [] := by
  have hmeasured := measured_events successors
  constructor
  · intro hzero
    apply List.eq_nil_iff_forall_not_mem.mpr
    rintro ⟨v, w⟩ hs
    obtain ⟨e, he, hstep⟩ := exists_event (mem_steps.mp hs)
    have hle : depthOf successors (events successors) v ≤ dependencyDepth successors := depthOf_le v
    rcases hmeasured.counts e he v w hstep with ⟨-, hpos⟩ | ⟨-, hlt⟩
    · omega
    · omega
  · intro hnone
    obtain ⟨v, hv⟩ := exists_depthOf successors
    rw [← hv]
    by_contra hpos
    obtain ⟨w, hw⟩ := hmeasured.leads v (Nat.pos_of_ne_zero hpos)
    exact absurd (mem_steps.mpr hw) (hnone ▸ List.not_mem_nil)

end Found

section Longest

variable {successors : List (List Nat)}

/-- Whether some path through the graph has so many steps; a node alone is a path without steps. -/
def HasPath (successors : List (List Nat)) (n : Nat) : Prop :=
  ∃ path : List Nat, path.Nodup ∧ path.IsChain (Leads successors) ∧ path.length = n + 1

theorem nodup_of_acyclic (h : Acyclic successors) {path : List Nat}
    (hp : path.IsChain (Leads successors)) : path.Nodup := by
  have hpairs : path.Pairwise (TransGen (Leads successors)) :=
    List.isChain_iff_pairwise.mp (hp.imp fun _ _ => TransGen.single)
  refine hpairs.imp (S := (· ≠ ·)) fun {v w} hvw he => ?_
  subst he
  exact h v hvw

theorem not_close (h : Acyclic successors) {past : List Event} {p q : Point} {c : List Nat}
    (hp : Searched successors past p) :
    ¬ Turn (fun v => successors[v]?.getD []) p (.close c) q := by
  intro ht
  obtain ⟨v, hround⟩ := (isCycle_of_turn hp.walking ht).exists_round
  exact h v hround

/-- What is found for a node is the length of some path from it. -/
theorem exists_path_of_depth (h : Acyclic successors) (v : Nat) :
    ∃ rest, (v :: rest).IsChain (Leads successors) ∧
      rest.length = depthOf successors (events successors) v := by
  refine events_keep successors
    (P := fun past _ => ∀ v, ∃ rest,
      (v :: rest).IsChain (Leads successors) ∧ rest.length = depthOf successors past v) ?_ ?_ v
  · exact fun v => ⟨[], .singleton v, depthOf_start.symm⟩
  · intro past p e q hp hpast ht v
    by_cases hsource : ∃ w, e.step? = some (v, w)
    · obtain ⟨w, hstep⟩ := hsource
      have hleads := (ht.step?_spec hp.walking hstep).1
      obtain ⟨n, hmax, ⟨⟨c, rfl⟩, -⟩ | rfl⟩ := depthOf_concat past (Leads.lt hleads) hstep
      · exact absurd ht (not_close h hp)
      · rcases Nat.le_total (depthOf successors past w + 1)
          (depthOf successors past v) with hle | hle
        · rw [hmax, Nat.max_eq_right hle]
          exact hpast v
        · obtain ⟨rest, hchain, hlength⟩ := hpast w
          rw [hmax, Nat.max_eq_left hle, ← hlength]
          exact ⟨w :: rest, .cons_cons hleads hchain, rfl⟩
    · rw [depthOf_concat_of_ne fun w hw => hsource ⟨w, hw⟩]
      exact hpast v

theorem depthOf_lt (h : Acyclic successors) {v w : Nat} (hleads : Leads successors v w) :
    depthOf successors (events successors) w < depthOf successors (events successors) v := by
  obtain ⟨e, he, hstep⟩ := exists_event hleads
  rcases (measured_events successors).counts e he v w hstep with ⟨⟨c, rfl⟩, -⟩ | ⟨-, hlt⟩
  · obtain ⟨u, hround⟩ := (isCycle_of_close he).exists_round
    exact absurd hround (h u)
  · exact hlt

theorem length_le_depthOf (h : Acyclic successors) {v : Nat} {rest : List Nat}
    (hp : (v :: rest).IsChain (Leads successors)) :
    rest.length ≤ depthOf successors (events successors) v := by
  induction rest generalizing v with
  | nil => exact Nat.zero_le _
  | cons w rest ih =>
    obtain ⟨hleads, hrest⟩ := List.isChain_cons_cons.mp hp
    exact Nat.lt_of_le_of_lt (ih hrest) (depthOf_lt h hleads)

theorem isGreatest_dependencyDepth (h : Acyclic successors) :
    IsGreatest {n | HasPath successors n} (dependencyDepth successors) := by
  constructor
  · obtain ⟨v, hv⟩ := exists_depthOf successors
    obtain ⟨rest, hchain, hlength⟩ := exists_path_of_depth h v
    refine ⟨v :: rest, nodup_of_acyclic h hchain, hchain, ?_⟩
    rw [List.length_cons, hlength, hv]
  · rintro n ⟨path, -, hchain, hlength⟩
    cases path with
    | nil => cases hlength
    | cons v rest =>
      cases hlength
      exact (length_le_depthOf h hchain).trans (depthOf_le v)

end Longest

section Ends

variable {successors : List (List Nat)}

theorem length_steps (successors : List (List Nat)) :
    (steps successors).length = (successors.map List.length).sum := by
  have hlengths : successors.zipIdx.map (fun x => x.1.length) = successors.map List.length := by
    have hfst := congrArg (List.map List.length) (List.zipIdx_map_fst 0 successors)
    rwa [List.map_map] at hfst
  rw [steps, List.length_flatMap, ← hlengths]
  simp

/-- A traversal starts with two turns to go for each node and one for each step. -/
theorem size_start (successors : List (List Nat)) :
    (start successors).size (fun v => successors[v]?.getD []) =
      2 * successors.length + (steps successors).length := by
  have hread : (List.range successors.length).map (fun v => (successors[v]?.getD []).length + 2) =
      successors.map fun ws => ws.length + 2 := by
    apply List.ext_getElem
    · simp
    · intro v hv hv'
      have hlt : v < successors.length := by simpa using hv'
      simp [hlt]
  rw [Point.size, start, hread, length_steps]
  simp [Stack.size, List.sum_map_add, Nat.mul_comm, Nat.add_comm]

/--
The depth is found after at most two turns for each node and one for each step, whatever the graph
is. In an acyclic graph it is the length of the longest path; in any graph it is zero only without
steps, and at most the number of nodes.
-/
theorem dependencyDepth_longest (successors : List (List Nat)) :
    (Turns (fun v => successors[v]?.getD []) (start successors) (events successors) ⟨[], []⟩ ∧
        ∀ es p, Turns (fun v => successors[v]?.getD []) (start successors) es p →
          es.length ≤ 2 * successors.length + (steps successors).length) ∧
      (Acyclic successors → IsGreatest {n | HasPath successors n} (dependencyDepth successors)) ∧
      (dependencyDepth successors = 0 ↔ steps successors = []) ∧
      dependencyDepth successors ≤ successors.length := by
  refine ⟨⟨turns_run _ _ _, fun es p h => ?_⟩, isGreatest_dependencyDepth,
    dependencyDepth_eq_zero_iff, dependencyDepth_le successors⟩
  rw [← size_start]
  exact h.length_le

/-- Two ways from the first node to the last, the longer one over the second step of the first
node. -/
def twoWays : List (List Nat) :=
  [[1, 2], [3], [1], []]

theorem dependencyDepth_longest_twoWays :
    Acyclic twoWays ∧ IsGreatest {n | HasPath twoWays n} 3 := by
  have hacyclic : Acyclic twoWays := cycles_eq_nil_iff.mp (by cbv)
  have hdepth : dependencyDepth twoWays = 3 := by cbv
  have hlongest := (dependencyDepth_longest twoWays).2.1 hacyclic
  rw [hdepth] at hlongest
  exact ⟨hacyclic, hlongest⟩

end Ends

end CodeAtlas.Metrics
