import CodeAtlas.Retrieval.Outcome
import CodeAtlas.Proofs.Retrieval.Growth
import CodeAtlas.Proofs.Retrieval.Packing
import CodeAtlas.Proofs.Retrieval.Ranking

/-!
What a retrieval answers. Every node of the expansion is ranked; the best that have a chunk are
offered, and packing parts them into those included and those excluded. Where the expansion has no
steps the answer is that of the search.
-/

namespace CodeAtlas.Retrieval

open Expanded

section Bodies

variable {h : Holdings} {hits : List Hit} {ids : List String}

def Holdings.stored? (h : Holdings) (id : String) : Option Chunk :=
  (h.chunk? id).toOption.join

def hitIds (hits : List Hit) : List String :=
  hits.map fun hit => hit.chunk.id

def Holdings.hasChunk (h : Holdings) (hits : List Hit) (id : String) : Bool :=
  (hitIds hits).contains id || (h.stored? id).isSome

theorem mapM_chunk? {others : List (Option (String × Chunk))} :
    (ids.mapM fun id => do return (← h.chunk? id).map fun c => (id, c)) = .ok others ↔
      (∀ id ∈ ids, ∃ c, h.chunk? id = .ok c) ∧ others = ids.map fun id => (h.stored? id).map
          fun c => (id, c) := by
  induction ids generalizing others with
  | nil => simp [pure, Except.pure, eq_comm]
  | cons id rest ih =>
    rw [List.mapM_cons]
    cases hc : h.chunk? id with
    | error e => simp [hc, bind, Except.bind]
    | ok c =>
      have hstored : h.stored? id = c := by
        rw [Holdings.stored?, hc]
        rfl
      simp only [List.forall_mem_cons, List.map_cons, hc, hstored, Except.ok.injEq,
        exists_eq', true_and]
      cases hr : rest.mapM fun id => do return (← h.chunk? id).map fun c => (id, c) with
      | error e =>
        have hnone : ¬ ∀ id ∈ rest, ∃ c, h.chunk? id = .ok c := by
          intro hall
          have hok := ih.mpr ⟨hall, rfl⟩
          rw [hr] at hok
          exact absurd hok nofun
        simp only [hnone, false_and, iff_false]
        exact nofun
      | ok bs =>
        obtain ⟨hall, rfl⟩ := ih.mp hr
        constructor
        · intro he
          exact ⟨hall, (Except.ok.inj he).symm⟩
        · intro he
          rw [he.2]
          rfl

/-- The chunks of nodes can be told as soon as the store answers for those that were not found. -/
theorem bodies_eq_ok {bs : List (String × Chunk)} : bodies h hits ids = .ok bs ↔
    (∀ id ∈ ids, (foundChunks hits).lookup id = none → ∃ c, h.chunk? id = .ok c) ∧
      bs = foundChunks hits ++
        (ids.filter fun id => ((foundChunks hits).lookup id).isNone).filterMap
        fun id => (h.stored? id).map fun c => (id, c) := by
  have hasked : (∀ id ∈ ids.filter fun id => ((foundChunks hits).lookup id).isNone,
        ∃ c, h.chunk? id = .ok c) ↔
      ∀ id ∈ ids, (foundChunks hits).lookup id = none → ∃ c, h.chunk? id = .ok c := by
    simp only [List.mem_filter, Option.isNone_iff_eq_none, and_imp]
  rw [← hasked, bodies]
  cases hr : (ids.filter fun id => ((foundChunks hits).lookup id).isNone).mapM
      fun id => do return (← h.chunk? id).map fun c => (id, c) with
  | error e =>
    constructor
    · exact nofun
    · intro hall
      have hok := mapM_chunk?.mpr ⟨hall.1, rfl⟩
      rw [hr] at hok
      exact absurd hok nofun
  | ok others =>
    obtain ⟨hall, rfl⟩ := mapM_chunk?.mp hr
    have hbs : ∀ l : List String,
        (l.map fun id => (h.stored? id).map fun c => (id, c)).filterMap id =
          l.filterMap fun id => (h.stored? id).map fun c => (id, c) := by
      intro l
      rw [List.filterMap_map]
      rfl
    constructor
    · intro he
      refine ⟨hall, ?_⟩
      rw [← hbs]
      exact (Except.ok.inj he).symm
    · intro he
      rw [he.2, ← hbs]
      rfl

theorem lookup_filterMap (f : String → Option Chunk) (ids : List String) (id : String) :
    (ids.filterMap fun id => (f id).map fun c => (id, c)).lookup id = if id ∈ ids then f id
      else none := by
  induction ids with
  | nil => rfl
  | cons i rest ih =>
    by_cases hi : id = i
    · subst hi
      cases hf : f id with
      | some c => simp [hf]
      | none => simp [hf, ih]
    · have hb : (id == i) = false := by simpa using hi
      cases hf : f i with
      | some c => simp [hf, ih, hi, List.lookup_cons, hb]
      | none => simp [hf, ih, hi]

theorem lookup_foundChunks (hits : List Hit) (id : String) :
    ((foundChunks hits).lookup id).isSome = true ↔ id ∈ hitIds hits := by
  simp only [List.lookup_isSome_iff, foundChunks, List.mem_reverse, List.mem_map,
    exists_exists_and_eq_and, beq_iff_eq, hitIds, @eq_comm _ id]

theorem id_of_lookup_foundChunks {id : String} {c : Chunk}
    (hc : (foundChunks hits).lookup id = some c) : c.id = id := by
  obtain ⟨before, after, he, -⟩ := List.lookup_eq_some_iff.mp hc
  have hm : (id, c) ∈ foundChunks hits := he ▸ List.mem_append_right before List.mem_cons_self
  obtain ⟨hit, -, heq⟩ := List.mem_map.mp (List.mem_reverse.mp hm)
  obtain ⟨rfl, rfl⟩ := Prod.mk.inj heq
  rfl

/-- The chunk that is taken for a node: one that was found, or else that of the store. -/
theorem lookup_bodies {bs : List (String × Chunk)} (hb : bodies h hits ids = .ok bs) {id : String}
    (hid : id ∈ ids) : bs.lookup id = ((foundChunks hits).lookup id).or (h.stored? id) := by
  rw [(bodies_eq_ok.mp hb).2, List.lookup_append, lookup_filterMap]
  cases hf : (foundChunks hits).lookup id with
  | some c => rfl
  | none => simp [hid, hf]

/-- Whether what a store answers for an id belongs to it. -/
structure Holdings.Lawful (h : Holdings) : Prop where
  chunk_id : ∀ id c, h.chunk? id = .ok (some c) → c.id = id
  touching : ∀ limit, Touching (h.neighbors · limit)

theorem Holdings.Lawful.stored?_id (hl : h.Lawful) {id : String} {c : Chunk}
    (hc : h.stored? id = some c) : c.id = id := by
  unfold Holdings.stored? at hc
  cases ha : h.chunk? id with
  | error e =>
    rw [ha] at hc
    exact absurd hc nofun
  | ok found =>
    rw [ha] at hc
    exact hl.chunk_id id c (ha.trans (congrArg Except.ok hc))

theorem id_of_lookup_bodies (hl : h.Lawful) {bs : List (String × Chunk)}
    (hb : bodies h hits ids = .ok bs) {id : String} (hid : id ∈ ids) {c : Chunk}
    (hc : bs.lookup id = some c) : c.id = id := by
  rw [lookup_bodies hb hid, Option.or_eq_some_iff] at hc
  rcases hc with hc | ⟨-, hc⟩
  · exact id_of_lookup_foundChunks hc
  · exact hl.stored?_id hc

theorem isSome_lookup_bodies {bs : List (String × Chunk)} (hb : bodies h hits ids = .ok bs)
    {id : String} (hid : id ∈ ids) : (bs.lookup id).isSome = h.hasChunk hits id := by
  rw [lookup_bodies hb hid, Option.isSome_or, Holdings.hasChunk, Bool.eq_iff_iff, Bool.or_eq_true,
    Bool.or_eq_true, lookup_foundChunks, List.contains_iff_mem]

/-- What is offered for packing are the first of the ranked nodes that have a chunk. -/
theorem map_id_selected (hl : h.Lawful) {bs : List (String × Chunk)}
    (hb : bodies h hits ids = .ok bs) {nodes : List RankedNode} (hn : ∀ n ∈ nodes, n.id ∈ ids)
    (topK : Nat) : (selected bs nodes topK).map Chunk.id =
      ((nodes.map RankedNode.id).filter (h.hasChunk hits)).take topK := by
  have hids : (nodes.filterMap fun n => bs.lookup n.id).map Chunk.id =
      (nodes.map RankedNode.id).filter (h.hasChunk hits) := by
    induction nodes with
    | nil => rfl
    | cons n rest ih =>
      have hrest := ih fun m hm => hn m (List.mem_cons_of_mem n hm)
      have hid := hn n List.mem_cons_self
      have hsome := isSome_lookup_bodies hb hid
      cases hc : bs.lookup n.id with
      | none =>
        rw [hc] at hsome
        rw [List.filterMap_cons_none (f := fun n : RankedNode => bs.lookup n.id) hc, List.map_cons,
          List.filter_cons_of_neg (by simp [← hsome]), hrest]
      | some c =>
        rw [hc] at hsome
        rw [List.filterMap_cons_some (f := fun n : RankedNode => bs.lookup n.id) hc, List.map_cons,
          List.map_cons, List.filter_cons_of_pos (by simp [← hsome]), hrest,
          id_of_lookup_bodies hl hb hid hc]
  rw [selected, List.map_take, hids]

end Bodies

section Answer

variable {h : Holdings} {embed : Embedder} {t : Tuning} {query : String} {v : Embedding}
  {hits : List Hit}

def offered (h : Holdings) (t : Tuning) (hits : List Hit) (o : Outcome) : List String :=
  ((o.nodes.map RankedNode.id).filter (h.hasChunk hits)).take t.topK

/-- What is asked of the answer to a search with some hits, when so much was met from them. -/
structure Answers (h : Holdings) (t : Tuning) (hits : List Hit) (x : Expanded) (o : Outcome) :
    Prop where
  nodes : (o.nodes.map RankedNode.id).Perm x.nodes
  distinct : x.nodes.Nodup
  ranked : o.nodes.Pairwise fun a b =>
    orderKey b.score < orderKey a.score ∨
      orderKey a.score = orderKey b.score ∧ x.nodes.idxOf a.id < x.nodes.idxOf b.id
  included : o.packed.included.Sublist (offered h t hits o)
  excluded : o.packed.excluded.Sublist (offered h t hits o)
  parted : (o.packed.included ++ o.packed.excluded).Perm (offered h t hits o)
  tokens : o.packed.tokens ≤ t.tokenBudget
  /-- Without steps the answer is that of the search, if it found distinct chunks in order of
  similarity. -/
  alone : x.steps = [] → (hitIds hits).Nodup →
    (hits.Pairwise fun a b => orderKey b.similarity ≤ orderKey a.similarity) →
      o.nodes.map RankedNode.id = hitIds hits ∧ o.paths = []

theorem lookup_foundSimilarities (hn : (hitIds hits).Nodup) {hit : Hit} (hm : hit ∈ hits) :
    (foundSimilarities hits).lookup hit.chunk.id = some hit.similarity := by
  cases hf : (foundSimilarities hits).lookup hit.chunk.id with
  | none =>
    have hmem : (hit.chunk.id, hit.similarity) ∈ foundSimilarities hits :=
      List.mem_reverse.mpr (List.mem_map_of_mem hm)
    exact absurd (List.lookup_eq_none_iff.mp hf _ hmem) (by simp)
  | some s =>
    obtain ⟨before, after, he, -⟩ := List.lookup_eq_some_iff.mp hf
    have hmem : (hit.chunk.id, s) ∈ foundSimilarities hits :=
      he ▸ List.mem_append_right before List.mem_cons_self
    obtain ⟨other, ho, heq⟩ := List.mem_map.mp (List.mem_reverse.mp hmem)
    obtain ⟨hid, rfl⟩ := Prod.mk.inj heq
    rw [List.inj_on_of_nodup_map hn ho hm hid]

theorem pairwise_foundSimilarities (hn : (hitIds hits).Nodup)
    (hsorted : hits.Pairwise fun a b => orderKey b.similarity ≤ orderKey a.similarity) :
    (hitIds hits).Pairwise fun a b =>
      orderKey (((foundSimilarities hits).lookup b).getD 0.0) ≤
        orderKey (((foundSimilarities hits).lookup a).getD 0.0) := by
  apply List.pairwise_map.mpr
  apply hsorted.imp_of_mem
  intro a b ha hb hab
  rw [lookup_foundSimilarities hn ha, lookup_foundSimilarities hn hb]
  exact hab

theorem retrieve_eq (he : embed query = .ok v) (hs : h.search v t.seedCount = .ok hits)
    (hne : hits ≠ []) : retrieve h embed t query = fromHits h t query hits := by
  unfold retrieve
  simp only [he, hs, bind, Except.bind]

/-- What is answered when so much was met and these chunks were taken for it. -/
def answerOf (t : Tuning) (query : String) (hits : List Hit) (x : Expanded)
    (bs : List (String × Chunk)) : Outcome :=
  let ranking :=
    rank x (fun id => bs.lookup id) (fun id => (foundSimilarities hits).lookup id) query t
  { packed := pack t.tokenBudget (selected bs ranking.nodes t.topK)
    nodeCount := x.nodes.length
    edgeCount := x.steps.length
    paths := ranking.paths
    nodes := ranking.nodes }

theorem fromHits_eq_ok {o : Outcome} : fromHits h t query hits = .ok o ↔
    ∃ x, expand (h.neighbors · t.maxNeighbors) (hitIds hits) t.maxHops = .ok x ∧
      ∃ bs, bodies h hits x.nodes = .ok bs ∧ answerOf t query hits x bs = o := by
  unfold fromHits
  show expand (h.neighbors · t.maxNeighbors) (hitIds hits) t.maxHops >>= _ = _ ↔ _
  cases expand (h.neighbors · t.maxNeighbors) (hitIds hits) t.maxHops with
  | error e => simp [bind, Except.bind]
  | ok x =>
    cases hb : bodies h hits x.nodes with
    | error e => simp [bind, Except.bind, hb]
    | ok bs => simp [bind, Except.bind, hb, answerOf, pure, Except.pure]

/-- A retrieval that has found something succeeds as soon as the store answers. -/
theorem fromHits_ok_iff : (∃ o, fromHits h t query hits = .ok o) ↔
    ∃ x, expand (h.neighbors · t.maxNeighbors) (hitIds hits) t.maxHops = .ok x ∧
      ∀ id ∈ x.nodes, id ∉ hitIds hits → ∃ c, h.chunk? id = .ok c := by
  have hasked : ∀ id, (foundChunks hits).lookup id = none ↔ id ∉ hitIds hits := by
    intro id
    rw [← lookup_foundChunks, Bool.not_eq_true, Option.isSome_eq_false_iff,
      Option.isNone_iff_eq_none]
  constructor
  · intro ⟨o, ho⟩
    obtain ⟨x, hx, bs, hb, -⟩ := fromHits_eq_ok.mp ho
    refine ⟨x, hx, fun id hid hnew => ?_⟩
    exact (bodies_eq_ok.mp hb).1 id hid ((hasked id).mpr hnew)
  · intro ⟨x, hx, hall⟩
    exact ⟨_, fromHits_eq_ok.mpr ⟨x, hx, _, bodies_eq_ok.mpr
      ⟨fun id hid hnone => hall id hid ((hasked id).mp hnone), rfl⟩, rfl⟩⟩

theorem answerOf_answers (hl : h.Lawful) {x : Expanded} {bs : List (String × Chunk)}
    (hx : Grown (hitIds hits) x) (hb : bodies h hits x.nodes = .ok bs) :
    Answers h t hits x (answerOf t query hits x bs) := by
  have hnodes :=
    rank_ids_perm x (fun id => bs.lookup id) (fun id => (foundSimilarities hits).lookup id) query t
  have hmem : ∀ n ∈ (answerOf t query hits x bs).nodes, n.id ∈ x.nodes :=
    fun n hn => hnodes.mem_iff.mp (List.mem_map_of_mem hn)
  have hoffered := map_id_selected hl hb hmem t.topK
  obtain ⟨hpacked, htokens⟩ :=
    pack_holds t.tokenBudget (selected bs (answerOf t query hits x bs).nodes t.topK)
  have hincluded : (answerOf t query hits x bs).packed.included =
      (taken t.tokenBudget 0 (selected bs (answerOf t query hits x bs).nodes t.topK)).map
      Chunk.id := hpacked.included
  have hexcluded : (answerOf t query hits x bs).packed.excluded =
      (passedOver t.tokenBudget 0 (selected bs (answerOf t query hits x bs).nodes t.topK)).map
          Chunk.id :=
    pack_excluded t.tokenBudget _
  constructor
  · exact hnodes
  · exact hx.nodup
  · exact rank_pairwise x _ _ query t hx.nodup
  · rw [hincluded, offered, ← hoffered]
    exact (taken_sublist _ _ _).map Chunk.id
  · rw [hexcluded, offered, ← hoffered]
    exact (passedOver_sublist _ _ _).map Chunk.id
  · rw [hincluded, hexcluded, offered, ← hoffered, ← List.map_append]
    exact (taken_perm _ _ _).map Chunk.id
  · exact htokens
  · intro hs hn hsorted
    have hids : x.nodes = hitIds hits := (hx.alone hs).trans (eraseDups_eq_self hn)
    obtain ⟨hranked, hpaths⟩ := rank_alone x (fun id => bs.lookup id)
      (fun id => (foundSimilarities hits).lookup id) query t hs
      (hids ▸ pairwise_foundSimilarities hn hsorted)
    exact ⟨hranked.trans hids, hpaths⟩

/--
A retrieval for which the search has found something ranks every node of the expansion once, best
first, and parts what it offers of them into what is packed within the budget and what is not. It
fails only where the store does. Without a step, as without a round or when the seeds have no
dependencies, it gives back what the search has found.
-/
theorem retrieve_answers (hl : h.Lawful) (he : embed query = .ok v)
    (hs : h.search v t.seedCount = .ok hits) (hne : hits ≠ []) :
    ((∃ o, retrieve h embed t query = .ok o) ↔
      ∃ x, expand (h.neighbors · t.maxNeighbors) (hitIds hits) t.maxHops = .ok x ∧
        ∀ id ∈ x.nodes, id ∉ hitIds hits → ∃ c, h.chunk? id = .ok c) ∧
    (∀ o, retrieve h embed t query = .ok o →
      ∃ x, expand (h.neighbors · t.maxNeighbors) (hitIds hits) t.maxHops = .ok x ∧
      Answers h t hits x o) ∧
    ((t.maxHops = 0 ∨ ∀ id ∈ hitIds hits, h.neighbors id t.maxNeighbors = .ok []) →
      ∃ o x, retrieve h embed t query = .ok o ∧
        expand (h.neighbors · t.maxNeighbors) (hitIds hits) t.maxHops = .ok x ∧ x.steps = [] ∧
          Answers h t hits x o) := by
  rw [retrieve_eq he hs hne]
  have hanswers : ∀ o, fromHits h t query hits = .ok o →
      ∃ x, expand (h.neighbors · t.maxNeighbors) (hitIds hits) t.maxHops = .ok x ∧
          Answers h t hits x o := by
    intro o ho
    obtain ⟨x, hx, bs, hb, rfl⟩ := fromHits_eq_ok.mp ho
    exact ⟨x, hx, answerOf_answers hl (grown_expand (hl.touching t.maxNeighbors) hx) hb⟩
  refine ⟨fromHits_ok_iff, hanswers, fun halone => ?_⟩
  have hx := expand_alone halone
  have hfound : ∀ id ∈ (ofSeeds (hitIds hits)).nodes, id ∉ hitIds hits → ∃ c, h.chunk? id = .ok c :=
    fun id hid hnew => absurd (List.mem_eraseDups.mp hid) hnew
  obtain ⟨o, ho⟩ := fromHits_ok_iff.mpr ⟨_, hx, hfound⟩
  obtain ⟨x, hx', ha⟩ := hanswers o ho
  obtain rfl := Except.ok.inj (hx.symm.trans hx')
  exact ⟨o, _, ho, hx, rfl, ha⟩

def functionHits : List Hit :=
  [{ chunk := oneLiner "parse" "fn parse() { tokenize() }" 1, profile := {}, similarity := 1.0 },
    { chunk := oneLiner "render" "fn render() {}" 3, profile := {}, similarity := 0.8 }]

def callingFunctions : Holdings where
  search _ limit := .ok (functionHits.take limit)
  chunk? id := .ok (if id = "tokenize" then some (oneLiner "tokenize" "fn tokenize() {}" 2)
    else none)
  neighbors id limit := .ok (List.take limit (List.filter (fun d => d.touches id)
    [{ source := "parse", target := "tokenize", relationship := .calls, strength := 0.8
       direct := true, required := false }]))

theorem callingFunctions_lawful : callingFunctions.Lawful where
  chunk_id id c hc := by
    simp only [callingFunctions, Except.ok.injEq, Option.ite_none_right_eq_some, Option.some.injEq]
      at hc
    obtain ⟨rfl, rfl⟩ := hc
    rfl
  touching limit id ds hds d hd := by
    obtain rfl := Except.ok.inj hds
    exact (List.mem_filter.mp (List.mem_of_mem_take hd)).2

theorem expand_callingFunctions : expand (callingFunctions.neighbors · 16) ["parse", "render"] 2 =
    .ok ⟨["parse", "render", "tokenize"], ["parse", "render"],
      [⟨"parse", "tokenize", .calls⟩]⟩ := by
  rfl

theorem retrieve_answers_callingFunctions :
    callingFunctions.Lawful ∧ callingFunctions.search [1.0] 5 = .ok functionHits ∧
      functionHits ≠ [] ∧ ∃ o x, retrieve callingFunctions (fun _ => .ok [1.0]) {} "parse" = .ok o ∧
        Answers callingFunctions {} functionHits x o := by
  have hs : callingFunctions.search [1.0] 5 = .ok functionHits := rfl
  have hne : functionHits ≠ [] := List.cons_ne_nil _ _
  obtain ⟨hok, hanswers, -⟩ :=
    @retrieve_answers callingFunctions (fun _ => .ok [1.0]) {} "parse" [1.0] functionHits
      callingFunctions_lawful rfl hs hne
  obtain ⟨o, ho⟩ := hok.mpr ⟨_, expand_callingFunctions, fun id _ _ => ⟨_, rfl⟩⟩
  obtain ⟨x, -, ha⟩ := hanswers o ho
  exact ⟨callingFunctions_lawful, hs, hne, o, x, ho, ha⟩

end Answer

end CodeAtlas.Retrieval
