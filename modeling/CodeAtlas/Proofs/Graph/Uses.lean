import CodeAtlas.Proofs.Graph.Heritage
import CodeAtlas.Proofs.Graph.Kept

/-!
What chunks use. A member uses the types that its words name, unless they stand around it, and a
container those of its fields. A word names a type by all of it, the type of a field may be named by
its last part too.
-/

namespace CodeAtlas.Inference

open Resolution

/-- The names in a chunk that may be types: the words of a member, and the types of the fields of a
container. -/
def namesIn (c : Chunk) : List String :=
  if c.kind.isMemberLike then Text.identifiers c.content
  else if c.kind == .container then c.metadata.texts "field_types"
  else []

/-- Whether a chunk uses the type `t` by a name. -/
inductive Uses (chunks : List Chunk) (c t : Chunk) (name : String) : Prop where
  | body (hk : c.kind.isMemberLike = true) (hw : name ∈ Text.identifiers c.content)
      (ht : Foremost chunks t name) (habove : ¬ Relation.TransGen (IsParent chunks) t.id c.id)
  | field (hk : c.kind = .container) (hf : name ∈ c.metadata.texts "field_types")
      (ht : IsMeant chunks t name) (hne : t.id ≠ c.id)

def useOf (c t : Chunk) (name : String) : Dependency where
  source := c.id
  target := t.id
  relationship := .uses
  strength := if c.kind.isMemberLike then 0.7 else 0.8
  direct := true
  required := !c.kind.isMemberLike
  description := if c.kind.isMemberLike then s!"references type {name}"
    else s!"field of type {name}"

def used? (chunks : List Chunk) (c : Chunk) (name : String) : Option Chunk :=
  if c.kind.isMemberLike then (typeNamed? chunks name).filter fun t =>
    !isAbove chunks (parents chunks) t c
  else resolveType? chunks name

section Uses

variable {chunks : List Chunk} {c t : Chunk} {name source target : String}

theorem isAbove_iff_transGen (hn : (chunks.map Chunk.id).Nodup) (ha : Acyclic chunks)
    (ht : t ∈ chunks) (hc : c ∈ chunks) :
    isAbove chunks (parents chunks) t c = true ↔ Relation.TransGen (IsParent chunks) t.id c.id := by
  obtain ⟨htat, htfind⟩ := getElem?_indexOf (byId?_eq_some hn ht)
  obtain ⟨hcat, hcfind⟩ := getElem?_indexOf (byId?_eq_some hn hc)
  rw [isAbove, htfind, hcfind]
  exact isAncestor_parents hn ha htat hcat

theorem uses_eq (c : Chunk) :
    uses chunks (parents chunks) c =
      (namesIn c).filterMap fun name => (used? chunks c name).map fun t => useOf c t name := by
  unfold uses namesIn used? useOf
  by_cases hm : c.kind.isMemberLike
  · simp only [hm, if_true, Bool.not_true]
    apply List.filterMap_congr
    intro word _
    cases typeNamed? chunks word with
    | none => rfl
    | some t =>
      rw [Option.filter_some, Option.bind_eq_bind, Option.bind_some]
      cases isAbove chunks (parents chunks) t c with
      | true => rfl
      | false => rfl
  · simp only [hm, Bool.false_eq_true, if_false, Bool.not_false]
    split
    · rfl
    · rfl

theorem mem_of_used? (h : used? chunks c name = some t) : t ∈ chunks := by
  unfold used? at h
  split at h
  · exact List.mem_of_find?_eq_some (Option.filter_eq_some_iff.mp h).1
  · exact mem_of_resolveType? h

theorem mem_namesIn (h : Uses chunks c t name) : name ∈ namesIn c := by
  unfold namesIn
  cases h with
  | body hk hw => rwa [if_pos hk]
  | field hk hf =>
    have hm : ¬ c.kind.isMemberLike = true := by rw [hk]; decide
    rwa [if_neg hm, if_pos (by rw [hk]; rfl)]

/-- A name in a chunk means another chunk exactly if the chunk uses this by the name. -/
theorem used?_eq_some_iff (hn : (chunks.map Chunk.id).Nodup) (ha : Acyclic chunks) (hc : c ∈ chunks)
    (ht : t ∈ chunks) (hname : name ∈ namesIn c) : used? chunks c name = some t ∧ t.id ≠ c.id ↔
      Uses chunks c t name := by
  unfold used?
  by_cases hm : c.kind.isMemberLike = true
  · rw [if_pos hm, Option.filter_eq_some_iff, typeNamed?_eq_some_iff hn ht, Bool.not_eq_true',
      ← Bool.not_eq_true, isAbove_iff_transGen hn ha ht hc]
    rw [namesIn, if_pos hm] at hname
    constructor
    · rintro ⟨⟨hfirst, habove⟩, -⟩
      exact .body hm hname hfirst habove
    · rintro (⟨-, -, hfirst, habove⟩ | ⟨hk⟩)
      · refine ⟨⟨hfirst, habove⟩, ?_⟩
        -- a type is a container and so is not the member itself
        intro hid
        rw [Chunk.eq_of_id_eq hn ht hc hid] at hfirst
        have hkind := hfirst.1
        simp only [isTypeNamed, Bool.and_eq_true, beq_iff_eq] at hkind
        rw [hkind.1.1] at hm
        exact absurd hm (by decide)
      · rw [hk] at hm
        exact absurd hm (by decide)
  · rw [if_neg hm, resolveType?_eq_some_iff hn ht]
    rw [namesIn, if_neg hm] at hname
    split at hname
    · rename_i hk
      constructor
      · rintro ⟨hmeans, hne⟩
        exact .field (beq_iff_eq.mp hk) hname hmeans hne
      · rintro (⟨hk'⟩ | ⟨-, -, hmeans, hne⟩)
        · exact absurd hk' hm
        · exact ⟨hmeans, hne⟩
    · exact absurd hname List.not_mem_nil

/-- The uses of a graph are those of one chunk by another, each by the first name that the one has
for the other. -/
theorem mem_edgesOf_uses (hn : (chunks.map Chunk.id).Nodup) (ha : Acyclic chunks) {e : Dependency} :
    e ∈ (Graph.ofChunks chunks).edgesOf .uses ↔ ∃ c ∈ chunks, ∃ t ∈ chunks,
      ∃ name, First (namesIn c) (Uses chunks c t) name ∧ e = useOf c t name := by
  have hkey : ∀ c ∈ chunks, ∀ t ∈ chunks, t.id ≠ c.id → ∀ name ∈ namesIn c,
      (∃ d, ((used? chunks c name).map fun t => useOf c t name) = some d ∧
        d.key = (c.id, t.id, .uses)) ↔ Uses chunks c t name := by
    intro c hc t ht hne name hname
    rw [← used?_eq_some_iff hn ha hc ht hname]
    constructor
    · rintro ⟨d, hd, hk⟩
      obtain ⟨t', ht', rfl⟩ := Option.map_eq_some_iff.mp hd
      have hid : t'.id = t.id := congrArg (fun k => k.2.1) hk
      rw [← Chunk.eq_of_id_eq hn (mem_of_used? ht') ht hid] at hne ⊢
      exact ⟨ht', hne⟩
    · rintro ⟨ht', -⟩
      exact ⟨_, by rw [ht', Option.map_some], rfl⟩
  rw [mem_edgesOf_iff hn rfl]
  constructor
  · rintro ⟨-, hne, -, c, hc, -, hfirst⟩
    rw [uses_eq, First.filterMap_iff] at hfirst
    obtain ⟨name, hfirst, he⟩ := hfirst
    obtain ⟨t, ht, rfl⟩ := Option.map_eq_some_iff.mp he
    have htm := mem_of_used? ht
    exact ⟨c, hc, t, htm, name, (First.congr (hkey c hc t htm (Ne.symm hne))).mp hfirst, rfl⟩
  · rintro ⟨c, hc, t, ht, name, hfirst, rfl⟩
    obtain ⟨hused, hne⟩ := (used?_eq_some_iff hn ha hc ht hfirst.mem).mpr hfirst.holds
    refine ⟨rfl, Ne.symm hne, List.mem_map_of_mem ht, c, hc, rfl, ?_⟩
    rw [uses_eq, First.filterMap_iff]
    exact ⟨name, (First.congr (hkey c hc t ht hne)).mpr hfirst, by rw [hused, Option.map_some]⟩

/-- One chunk depends on another as a use exactly if it uses this by one of its names, and the
dependency is that of the first such name. -/
theorem edges_uses (hn : (chunks.map Chunk.id).Nodup) (ha : Acyclic chunks) :
    (∀ source target, (source, target, .uses) ∈ (Graph.ofChunks chunks).edges.map Dependency.key ↔
      ∃ c ∈ chunks, ∃ t ∈ chunks, c.id = source ∧ t.id = target ∧ ∃ name, Uses chunks c t name) ∧
    ∀ e ∈ (Graph.ofChunks chunks).edges, e.relationship = .uses → ∃ c ∈ chunks, ∃ t ∈ chunks,
      ∃ name, First (namesIn c) (Uses chunks c t) name ∧ e = useOf c t name := by
  have hof : ∀ e ∈ (Graph.ofChunks chunks).edges, e.relationship = .uses → ∃ c ∈ chunks,
      ∃ t ∈ chunks, ∃ name, First (namesIn c) (Uses chunks c t) name ∧ e = useOf c t name := by
    intro e he hr
    exact (mem_edgesOf_uses hn ha).mp (List.mem_filter.mpr ⟨he, beq_iff_eq.mpr hr⟩)
  refine ⟨?_, hof⟩
  intro source target
  constructor
  · intro h
    obtain ⟨e, he, hk⟩ := List.mem_map.mp h
    obtain ⟨c, hc, t, ht, name, hfirst, rfl⟩ := hof e he (congrArg (fun k => k.2.2) hk)
    obtain ⟨hs, hk⟩ := Prod.mk.inj hk
    exact ⟨c, hc, t, ht, hs, (Prod.mk.inj hk).1, name, hfirst.holds⟩
  · rintro ⟨c, hc, t, ht, rfl, rfl, name, huses⟩
    obtain ⟨first, hfirst⟩ := First.exists_iff.mpr ⟨name, mem_namesIn huses, huses⟩
    have he := (mem_edgesOf_uses hn ha).mpr ⟨c, hc, t, ht, first, hfirst, rfl⟩
    exact List.mem_map.mpr ⟨_, List.mem_of_mem_filter he, rfl⟩

end Uses

/-- A class with a field of another class, and a method of it that names both. -/
def cartOfItems : List Chunk :=
  let cart : Chunk :=
    { id := "a", kind := .container, name := some "Cart", qualifiedName := some "shop.Cart"
      path := "shop.rs", language := "rust", startLine := 1, endLine := 3
      content := "struct Cart { first: crate::stock::Item }"
      metadata := [("field_types", .list [.text "crate::stock::Item"])] }
  let method : Chunk :=
    { id := "b", kind := .member, name := some "add", path := "shop.rs", language := "rust",
      startLine := 2
      endLine := 3, content := "fn add(cart: Cart, item: Item)", parent := some "a" }
  let item : Chunk :=
    { id := "c", kind := .container, name := some "Item", qualifiedName := some "stock.Item"
      path := "stock.rs", language := "rust", startLine := 1, endLine := 1
      content := "struct Item;" }
  [cart, method, item]

/-- The method uses the other class, and not the one around it, though it names both. The class uses
the other class too, by the last part of the type of its field. -/
theorem edges_uses_cartOfItems :
    ("b", "c", .uses) ∈ (Graph.ofChunks cartOfItems).edges.map Dependency.key ∧
      ("b", "a", .uses) ∉ (Graph.ofChunks cartOfItems).edges.map Dependency.key ∧
        ("a", "c", .uses) ∈ (Graph.ofChunks cartOfItems).edges.map Dependency.key := by
  have hn : (cartOfItems.map Chunk.id).Nodup := by decide
  have ha : Acyclic cartOfItems := acyclic_of_rank (["a", "b", "c"].idxOf ·) (by decide)
  have hcart : cartOfItems[0] ∈ cartOfItems := List.getElem_mem (by decide)
  have hmethod : cartOfItems[1] ∈ cartOfItems := List.getElem_mem (by decide)
  have hitem : cartOfItems[2] ∈ cartOfItems := List.getElem_mem (by decide)
  have h := (edges_uses hn ha).1
  refine ⟨(h "b" "c").mpr ⟨_, hmethod, _, hitem, rfl, rfl, "Item", ?_⟩, ?_,
    (h "a" "c").mpr ⟨_, hcart, _, hitem, rfl, rfl, "crate::stock::Item", ?_⟩⟩
  · exact .body rfl (by decide +kernel) ((typeNamed?_eq_some_iff hn hitem).mp rfl)
      ((isAbove_iff_transGen hn ha hitem hmethod).not.mp (by decide))
  · intro hb
    obtain ⟨c, hc, t, ht, hcid, htid, name, huses⟩ := (h "b" "a").mp hb
    obtain rfl := Chunk.eq_of_id_eq hn hc hmethod hcid
    obtain rfl := Chunk.eq_of_id_eq hn ht hcart htid
    cases huses with
    | body hk hw hfirst habove => exact habove (.single ⟨rfl, _, rfl, rfl⟩)
    | field hk => exact absurd hk (by decide)
  · exact .field rfl (by decide) ((resolveType?_eq_some_iff hn hitem).mp rfl) (by decide)

end CodeAtlas.Inference
