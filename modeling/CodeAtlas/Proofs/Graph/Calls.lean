import CodeAtlas.Proofs.Graph.Passes
import CodeAtlas.Proofs.StableSort

/-!
Calls between members, by a scan of all pairs. The pass over the members finds callees by the names
that are called; here every pair of members is looked at by itself, with the same dependencies in
the same order.
-/

namespace CodeAtlas.Inference

open Resolution

/-- Whether a call in `a` may mean `b`. On the first line the name of both is the declaration of
`a`. -/
def mayMean (a b : Chunk) (s : Text.CallSite) : Bool :=
  b.name == some s.name && !(s.lineOffset == 0 && b.name == a.name)

/-- The calls in `a` that may mean `b`. -/
def sitesOf (a b : Chunk) : List Text.CallSite :=
  (Text.callSites a.content).filter (mayMean a b)

def firstSite (a b : Chunk) : Nat :=
  (Text.callSites a.content).findIdx (mayMean a b)

/-- Whether `b` is a named member other than `a` and called in `a`. -/
def isCalled (a b : Chunk) : Bool :=
  b.kind.isMemberLike && b.isNamed && b.id != a.id && !(sitesOf a b).isEmpty

def callOf (a b : Chunk) : Dependency where
  source := a.id
  target := b.id
  relationship := .calls
  strength := 0.8
  direct := true
  required := false
  description := s!"calls {b.displayName}"
  locations := (sitesOf a b).map (locationOf a)

/-- The members called in `a`, by their first calls. -/
def scanned (chunks : List Chunk) (a : Chunk) : List Chunk :=
  (chunks.filter (isCalled a)).mergeSort fun b c => firstSite a b ≤ firstSite a c

def pairwiseCalls (chunks : List Chunk) : List Dependency :=
  (chunks.filter fun a => a.kind.isMemberLike).flatMap fun a => (scanned chunks a).map (callOf a)

section Scan

variable {chunks : List Chunk} {a b : Chunk}

def callable (chunks : List Chunk) (a : Chunk) : List Chunk :=
  chunks.filter fun b => b.kind.isMemberLike && b.isNamed && b.id != a.id

theorem callees_eq (chunks : List Chunk) (a : Chunk) (s : Text.CallSite) :
    callees chunks a s = (callable chunks a).filter fun b => b.name == some s.name := by
  rw [callees, membersNamed, callable, List.filter_filter, List.filter_filter]
  apply List.filter_congr
  intro b _
  rw [Bool.eq_iff_iff]
  simp only [Bool.and_eq_true]
  tauto

def isOwn (a : Chunk) (s : Text.CallSite) : Bool := s.lineOffset == 0 && a.name == some s.name

theorem mayMean_eq (a b : Chunk) (s : Text.CallSite) :
    mayMean a b s = (!isOwn a s && b.name == some s.name) := by
  unfold mayMean isOwn
  by_cases hb : b.name = some s.name
  · rw [hb, BEq.comm (a := a.name)]
    simp only [BEq.rfl, Bool.true_and, Bool.and_true]
  · rw [beq_false_of_ne hb, Bool.false_and, Bool.and_false]

theorem filter_callsIn (a b : Chunk) :
    (callsIn a).filter (fun s => b.name == some s.name) = sitesOf a b := by
  rw [callsIn, List.filter_filter, sitesOf]
  apply List.filter_congr
  intro s _
  rw [mayMean_eq, Bool.and_comm, isOwn]

def meant (a : Chunk) (among : List Chunk) (sites : List Text.CallSite) : List Chunk :=
  (sites.filter fun s => !isOwn a s).flatMap fun s => among.filter fun b => b.name == some s.name

theorem mem_meant {among : List Chunk} {sites : List Text.CallSite} :
    b ∈ meant a among sites ↔ b ∈ among ∧ ∃ s ∈ sites, mayMean a b s = true := by
  simp only [meant, List.mem_flatMap, List.mem_filter, mayMean_eq, Bool.and_eq_true]
  constructor
  · rintro ⟨s, ⟨hs, ho⟩, hb, hn⟩
    exact ⟨hb, s, hs, ho, hn⟩
  · rintro ⟨hb, s, hs, ho, hn⟩
    exact ⟨s, ⟨hs, ho⟩, hb, hn⟩

/-- Each chunk is kept where it is first meant, and those meant first by one call in their order. -/
theorem meant_pairwise {among : List Chunk} {R : Chunk → Chunk → Prop} (hR : among.Pairwise R)
    (sites : List Text.CallSite) (seen : List String) :
    (distinctBy Chunk.id seen (meant a among sites)).Pairwise fun b c =>
      sites.findIdx (mayMean a b) < sites.findIdx (mayMean a c) ∨
        (sites.findIdx (mayMean a b) = sites.findIdx (mayMean a c) ∧ R b c) := by
  induction sites generalizing seen with
  | nil => exact List.Pairwise.nil
  | cons s rest ih =>
    by_cases ho : isOwn a s
    -- the name of a declaration itself is no call, so all positions move by one
    · have hskip : meant a among (s :: rest) = meant a among rest := by
        simp [meant, ho]
      rw [hskip]
      apply (ih seen).imp
      intro b c hbc
      have hno : ∀ d, mayMean a d s = false := fun d => by simp [mayMean_eq, ho]
      rw [List.findIdx_cons, List.findIdx_cons, hno b, hno c]
      exact hbc.imp Nat.succ_lt_succ (And.imp_left (congrArg Nat.succ))
    -- what the first call means stands in front, and nothing of it comes again
    · have hhead : meant a among (s :: rest) =
          (among.filter fun b => b.name == some s.name) ++ meant a among rest := by
        simp [meant, ho]
      obtain ⟨later, he, hlater⟩ :=
        distinctBy_append (among.filter fun b => b.name == some s.name) (meant a among rest) seen
      have hfirst : ∀ b ∈ distinctBy Chunk.id seen (among.filter fun b => b.name == some s.name),
          (s :: rest).findIdx (mayMean a b) = 0 := by
        intro b hb
        have hn := (List.mem_filter.mp ((distinctBy_sublist _ seen).subset hb)).2
        rw [List.findIdx_cons, mayMean_eq, hn]
        simp [ho]
      have hrest : ∀ b ∈ distinctBy Chunk.id later (meant a among rest),
          (s :: rest).findIdx (mayMean a b) = rest.findIdx (mayMean a b) + 1 := by
        intro b hb
        have hm := mem_meant.mp ((distinctBy_sublist _ later).subset hb)
        have hn : (b.name == some s.name) = false := by
          by_contra hn
          have hb' : b ∈ among.filter fun b => b.name == some s.name :=
            List.mem_filter.mpr ⟨hm.1, by simpa using hn⟩
          exact not_seen_of_mem_distinctBy hb ((hlater b.id).mpr (Or.inr (List.mem_map_of_mem hb')))
        rw [List.findIdx_cons, mayMean_eq, hn, Bool.and_false]
        rfl
      rw [hhead, he, List.pairwise_append]
      refine ⟨?_, (ih later).imp_of_mem ?_, ?_⟩
      · apply ((hR.filter _).sublist (distinctBy_sublist _ seen)).imp_of_mem
        intro b c hb hc hbc
        exact Or.inr ⟨(hfirst b hb).trans (hfirst c hc).symm, hbc⟩
      · intro b c hb hc hbc
        rw [hrest b hb, hrest c hc]
        exact hbc.imp Nat.succ_lt_succ (And.imp_left (congrArg Nat.succ))
      · intro b hb c hc
        rw [hfirst b hb, hrest c hc]
        exact Or.inl (Nat.succ_pos _)

def position (chunks : List Chunk) (c : Chunk) : Nat := (chunks.map Chunk.id).idxOf c.id

theorem pairwise_position (h : (chunks.map Chunk.id).Nodup) :
    chunks.Pairwise fun b c => position chunks b < position chunks c := by
  rw [List.pairwise_iff_getElem]
  intro i j hi hj hij
  have hpos : ∀ k (hk : k < chunks.length), position chunks chunks[k] = k := by
    intro k hk
    have := h.idxOf_getElem k (by simpa using hk)
    simpa [position] using this
  rw [hpos i hi, hpos j hj]
  exact hij

theorem not_sublist_swap (hn : (chunks.map Chunk.id).Nodup) (h : [a, b].Sublist chunks) :
    ¬ [b, a].Sublist chunks := by
  intro h'
  have hpos := fun a b => (List.pairwise_iff_forall_sublist.mp (pairwise_position hn) :
    [a, b].Sublist chunks → _)
  exact Nat.lt_asymm (hpos a b h) (hpos b a h')

theorem mem_scanned : b ∈ scanned chunks a ↔ b ∈ chunks ∧ isCalled a b = true := by
  rw [scanned, List.mem_mergeSort, List.mem_filter]

theorem sitesOf_isEmpty_eq_false :
    (sitesOf a b).isEmpty = false ↔ ∃ s ∈ Text.callSites a.content, mayMean a b s = true := by
  rw [List.isEmpty_eq_false_iff_exists_mem]
  simp only [sitesOf, List.mem_filter]

/-- Looking callees up by name finds what the scan finds, in the same order. -/
theorem distinct_callees (h : (chunks.map Chunk.id).Nodup) (a : Chunk) :
    Chunk.distinct ((callsIn a).flatMap (callees chunks a)) = scanned chunks a := by
  have hmeant : (callsIn a).flatMap (callees chunks a) =
      meant a (callable chunks a) (Text.callSites a.content) := by
    unfold meant callsIn isOwn
    rw [show callees chunks a = _ from funext fun s => callees_eq chunks a s]
  rw [hmeant]
  have hpos := pairwise_position h
  have hsorted := meant_pairwise (a := a) (hpos.filter _ : (callable chunks a).Pairwise _)
    (Text.callSites a.content) []
  have hscan := StableSort.pairwise_stable (firstSite a) (hpos.filter (isCalled a))
  have hids : ((Chunk.distinct (meant a (callable chunks a) (Text.callSites a.content))).map
      Chunk.id).Nodup := nodup_distinctBy _ []
  have hmem : ∀ b, b ∈ Chunk.distinct (meant a (callable chunks a) (Text.callSites a.content)) ↔
      b ∈ scanned chunks a := by
    intro b
    have hsub : meant a (callable chunks a) (Text.callSites a.content) ⊆ chunks :=
      fun c hc => List.mem_of_mem_filter (mem_meant.mp hc).1
    rw [Chunk.mem_distinct h hsub, mem_meant, mem_scanned, callable, List.mem_filter, isCalled,
      Bool.and_eq_true _ (!_), Bool.not_eq_true', sitesOf_isEmpty_eq_false, and_assoc]
  have hperm := (List.perm_ext_iff_of_nodup (List.Nodup.of_map _ hids)
    (((List.Nodup.of_map _ h).filter _).perm (List.mergeSort_perm _ _).symm)).mpr hmem
  apply hperm.eq_of_pairwise _ hsorted hscan
  intro b c _ _ hbc hcb
  exfalso
  omega

theorem calls_eq (h : (chunks.map Chunk.id).Nodup) (a : Chunk) :
    calls chunks a = if a.kind.isMemberLike then (scanned chunks a).map (callOf a) else [] := by
  unfold calls
  split
  · dsimp only
    rw [distinct_callees h]
    apply List.map_congr_left
    intro b _
    rw [filter_callsIn, callOf]
  · rfl

theorem flatMap_calls_eq (h : (chunks.map Chunk.id).Nodup) :
    chunks.flatMap (calls chunks) = pairwiseCalls chunks := by
  have hif : ∀ cs : List Chunk, cs.flatMap (calls chunks) =
      (cs.filter fun a => a.kind.isMemberLike).flatMap fun a =>
          (scanned chunks a).map (callOf a) := by
    intro cs
    induction cs with
    | nil => rfl
    | cons c rest ih =>
      rw [List.flatMap_cons, calls_eq h, ih, List.filter_cons]
      split
      · rfl
      · rfl
  exact hif chunks

theorem mem_pairwiseCalls {d : Dependency} (hd : d ∈ pairwiseCalls chunks) :
    ∃ a ∈ chunks, ∃ b ∈ chunks, isCalled a b = true ∧ callOf a b = d := by
  obtain ⟨a, ha, hd⟩ := List.mem_flatMap.mp hd
  obtain ⟨b, hb, rfl⟩ := List.mem_map.mp hd
  obtain ⟨hbc, hab⟩ := mem_scanned.mp hb
  exact ⟨a, List.mem_of_mem_filter ha, b, hbc, hab, rfl⟩

theorem scanned_ids_nodup (h : (chunks.map Chunk.id).Nodup) (a : Chunk) :
    ((scanned chunks a).map Chunk.id).Nodup := by
  have hperm := (List.mergeSort_perm (chunks.filter (isCalled a))
    fun b c => firstSite a b ≤ firstSite a c).map Chunk.id
  exact hperm.nodup_iff.mpr (h.sublist (List.filter_sublist.map Chunk.id))

theorem pairwiseCalls_keys_nodup (h : (chunks.map Chunk.id).Nodup) :
    ((pairwiseCalls chunks).map Dependency.key).Nodup := by
  apply List.pairwise_map.mpr
  apply List.pairwise_flatMap.mpr
  constructor
  · intro a _
    apply List.pairwise_map.mpr
    apply (List.pairwise_map.mp (scanned_ids_nodup h a)).imp
    intro b c hbc hk
    exact hbc (congrArg (fun k => k.2.1) hk)
  · apply ((List.pairwise_map.mp h).filter _).imp
    intro a b hab d hd e he hk
    obtain ⟨c, -, rfl⟩ := List.mem_map.mp hd
    obtain ⟨c', -, rfl⟩ := List.mem_map.mp he
    exact hab (congrArg Prod.fst hk)

theorem edgesOf_calls (h : (chunks.map Chunk.id).Nodup) :
    (Graph.ofChunks chunks).edgesOf .calls = chunks.flatMap (calls chunks) := by
  apply edgesOf_eq h (filter_found_calls chunks)
  · intro d hd
    rw [flatMap_calls_eq h] at hd
    obtain ⟨a, ha, b, hb, hab, rfl⟩ := mem_pairwiseCalls hd
    have hne : b.id ≠ a.id := by
      simp only [isCalled, Bool.and_eq_true, bne_iff_ne] at hab
      exact hab.1.2
    exact ⟨hne.symm, List.mem_map_of_mem ha, List.mem_map_of_mem hb⟩
  · rw [flatMap_calls_eq h]
    exact pairwiseCalls_keys_nodup h

/-- The calls of the graph of chunks with distinct ids are those of the scan of all pairs, in its
order. -/
theorem edgesOf_calls_ofChunks (h : (chunks.map Chunk.id).Nodup) :
    (Graph.ofChunks chunks).edgesOf .calls = pairwiseCalls chunks := by
  rw [edgesOf_calls h, flatMap_calls_eq h]

end Scan

section Calls

variable {chunks : List Chunk} {a b : Chunk} {e : Dependency}

theorem mem_edgesOf_calls (hn : (chunks.map Chunk.id).Nodup) :
    e ∈ (Graph.ofChunks chunks).edgesOf .calls ↔ e ∈ pairwiseCalls chunks := by
  rw [edgesOf_calls hn, flatMap_calls_eq hn]

theorem exists_caller (hn : (chunks.map Chunk.id).Nodup) (he : e ∈ (Graph.ofChunks chunks).edges)
    (hr : e.relationship = .calls) :
    ∃ a ∈ chunks, a.kind.isMemberLike = true ∧ ∃ b ∈ chunks, isCalled a b = true ∧
      callOf a b = e := by
  have hcall : e ∈ (Graph.ofChunks chunks).edgesOf .calls := List.mem_filter.mpr ⟨he, by simp [hr]⟩
  obtain ⟨a, ha, hd⟩ := List.mem_flatMap.mp ((mem_edgesOf_calls hn).mp hcall)
  obtain ⟨b, hb, rfl⟩ := List.mem_map.mp hd
  obtain ⟨hbc, hab⟩ := mem_scanned.mp hb
  obtain ⟨ha, hk⟩ := List.mem_filter.mp ha
  exact ⟨a, ha, hk, b, hbc, hab, rfl⟩

theorem exists_callOf (hn : (chunks.map Chunk.id).Nodup) (he : e ∈ (Graph.ofChunks chunks).edges)
    (hr : e.relationship = .calls) :
    ∃ a ∈ chunks, ∃ b ∈ chunks, isCalled a b = true ∧ callOf a b = e := by
  obtain ⟨a, ha, -, hcall⟩ := exists_caller hn he hr
  exact ⟨a, ha, hcall⟩

theorem callOf_mem_edges (hn : (chunks.map Chunk.id).Nodup) (ha : a ∈ chunks)
    (hk : a.kind.isMemberLike = true) (hb : b ∈ chunks) (hab : isCalled a b = true) :
    callOf a b ∈ (Graph.ofChunks chunks).edges := by
  have hscan : callOf a b ∈ pairwiseCalls chunks :=
    List.mem_flatMap.mpr ⟨a, List.mem_filter.mpr ⟨ha, hk⟩,
    List.mem_map_of_mem (mem_scanned.mpr ⟨hb, hab⟩)⟩
  exact List.mem_of_mem_filter ((mem_edgesOf_calls hn).mpr hscan)

theorem exists_site {place : Location} (h : place ∈ (callOf a b).locations) :
    ∃ s ∈ Text.callSites a.content, b.name = some s.name ∧ place = locationOf a s := by
  obtain ⟨s, hs, rfl⟩ := List.mem_map.mp h
  obtain ⟨hs, hmeans⟩ := List.mem_filter.mp hs
  rw [mayMean, Bool.and_eq_true, beq_iff_eq] at hmeans
  exact ⟨s, hs, hmeans.1, rfl⟩

end Calls

def callingMembers : List Chunk :=
  [{ id := "a", kind := .member, name := some "run", path := "a.py", language := "python"
     startLine := 3, endLine := 5, content := "def run():\n  load()\n  run(load())" },
   { id := "b", kind := .orphanedMember, name := some "run", path := "b.py", language := "python"
     startLine := 1, endLine := 1, content := "def run(): pass" },
   { id := "c", kind := .member, name := some "load", path := "a.py", language := "python"
     startLine := 7, endLine := 7, content := "def load(): run()" }]

theorem edgesOf_calls_callingMembers :
    (callingMembers.map Chunk.id).Nodup ∧
      (Graph.ofChunks callingMembers).edgesOf .calls = pairwiseCalls callingMembers := by
  have h : (callingMembers.map Chunk.id).Nodup := by decide
  exact ⟨h, edgesOf_calls_ofChunks h⟩

end CodeAtlas.Inference
