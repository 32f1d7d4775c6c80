import CodeAtlas.Proofs.Graph.Calls
import CodeAtlas.Proofs.Graph.Kept

/-!
What containers extend and implement. A written type means the first container that answers to it,
and this may be the container it is written in. Then it means nothing: no other container is looked
for.
-/

namespace CodeAtlas

namespace Resolution

/-- The first container other than `c` that answers to a name. -/
def otherTypeNamed? (chunks : List Chunk) (c : Chunk) (name : String) : Option Chunk :=
  chunks.find? fun d => d.id != c.id && isTypeNamed name d

/-- The container other than `c` that a written type means: one that answers to all of it, or else
to its last part. -/
def otherType? (chunks : List Chunk) (c : Chunk) (written : String) : Option Chunk :=
  (otherTypeNamed? chunks c written).or (otherTypeNamed? chunks c (Name.simple written))

/-- Whether a chunk answers to a name and stands before all others that do. -/
def Foremost (chunks : List Chunk) (c : Chunk) (name : String) : Prop :=
  isTypeNamed name c = true ∧ ∀ d ∈ chunks, d.id ≠ c.id → isTypeNamed name d = true →
  [c, d].Sublist chunks

/-- Whether a written type means a chunk: the chunk is foremost for all of it, or for its last part
where nothing answers to all of it. -/
def IsMeant (chunks : List Chunk) (c : Chunk) (written : String) : Prop :=
  Foremost chunks c written ∨
    ((∀ d ∈ chunks, isTypeNamed written d = false) ∧ Foremost chunks c (Name.simple written))

section Types

variable {chunks : List Chunk} {c d : Chunk} {name written : String}

theorem mem_of_resolveType? (h : resolveType? chunks name = some c) : c ∈ chunks := by
  cases Option.or_eq_some_iff.mp h with
  | inl h => exact List.mem_of_find?_eq_some h
  | inr h => exact List.mem_of_find?_eq_some h.2

theorem resolveType?_append {more : List Chunk} (h : typeNamed? chunks name = some c) :
    resolveType? (chunks ++ more) name = some c := by
  rw [resolveType?, typeNamed?, List.find?_append, ← typeNamed?, h]
  rfl

/-- What is found stands before all else that answers to the name. -/
theorem sublist_of_typeNamed? (h : typeNamed? chunks name = some c) (hd : d ∈ chunks) (hne : d ≠ c)
    (hp : isTypeNamed name d = true) : [c, d].Sublist chunks := by
  obtain ⟨-, before, after, rfl, hbefore⟩ := List.find?_eq_some_iff_append.mp h
  have hafter : d ∈ after := by
    rcases List.mem_append.mp hd with hd | hd
    · exact absurd hp (by simpa using hbefore d hd)
    · exact (List.mem_cons.mp hd).resolve_left hne
  exact ((List.singleton_sublist.mpr hafter).cons_cons c).trans
    (List.sublist_append_right before (c :: after))

theorem typeNamed?_eq_some_iff (hn : (chunks.map Chunk.id).Nodup) (hc : c ∈ chunks) :
    typeNamed? chunks name = some c ↔ Foremost chunks c name := by
  constructor
  · intro h
    refine ⟨List.find?_some h, ?_⟩
    intro d hd hne hp
    exact sublist_of_typeNamed? h hd (fun he => hne (congrArg Chunk.id he)) hp
  · rintro ⟨hp, hfirst⟩
    cases hd : typeNamed? chunks name with
    | none => exact absurd hp (List.find?_eq_none.mp hd c hc)
    | some d =>
      by_contra hne
      have hdc : d ≠ c := fun he => hne (congrArg some he)
      have hmem := List.mem_of_find?_eq_some hd
      have hid : d.id ≠ c.id := fun he => hdc (Chunk.eq_of_id_eq hn hmem hc he)
      have hswap := sublist_of_typeNamed? hd hc hdc.symm hp
      exact Inference.not_sublist_swap hn hswap (hfirst d hmem hid (List.find?_some hd))

theorem resolveType?_eq_some_iff (hn : (chunks.map Chunk.id).Nodup) (hc : c ∈ chunks) :
    resolveType? chunks written = some c ↔ IsMeant chunks c written := by
  rw [resolveType?, Option.or_eq_some_iff, typeNamed?_eq_some_iff hn hc,
    typeNamed?_eq_some_iff hn hc, IsMeant, typeNamed?, List.find?_eq_none]
  simp only [Bool.not_eq_true]

theorem otherTypeNamed?_eq (hn : (chunks.map Chunk.id).Nodup) (hc : c ∈ chunks)
    (h : typeNamed? chunks name ≠ some c) :
    otherTypeNamed? chunks c name = typeNamed? chunks name := by
  cases hd : typeNamed? chunks name with
  | none =>
    apply List.find?_eq_none.mpr
    intro d hd'
    simp [List.find?_eq_none.mp hd d hd']
  | some d =>
    obtain ⟨hp, before, after, he, hbefore⟩ := List.find?_eq_some_iff_append.mp hd
    have hid : d.id ≠ c.id := by
      intro hid
      exact h (hd.trans
        (congrArg some (Chunk.eq_of_id_eq hn (List.mem_of_find?_eq_some hd) hc hid)))
    refine List.find?_eq_some_iff_append.mpr ⟨?_, before, after, he, ?_⟩
    · rw [hp, Bool.and_true, bne_iff_ne]
      exact hid
    · intro a ha
      have hfalse : isTypeNamed name a = false := by simpa using hbefore a ha
      rw [hfalse, Bool.and_false, Bool.not_false]

/-- Where a type does not mean the container it is written in, it means the first other one. -/
theorem otherType?_eq (hn : (chunks.map Chunk.id).Nodup) (hc : c ∈ chunks)
    (h : resolveType? chunks written ≠ some c) :
    otherType? chunks c written = resolveType? chunks written := by
  rw [resolveType?, Ne, Option.or_eq_some_iff, not_or, not_and] at h
  rw [otherType?, resolveType?, otherTypeNamed?_eq hn hc h.1]
  cases hd : typeNamed? chunks written with
  | none => rw [Option.none_or, Option.none_or, otherTypeNamed?_eq hn hc (h.2 hd)]
  | some d => rfl

theorem resolveType?_other (hn : (chunks.map Chunk.id).Nodup) (hc : c ∈ chunks) :
    (resolveType? chunks written = some d ∧ d.id ≠ c.id) ↔
      (¬ IsMeant chunks c written ∧ otherType? chunks c written = some d) := by
  rw [← resolveType?_eq_some_iff hn hc]
  constructor
  · rintro ⟨hd, hid⟩
    have hne : resolveType? chunks written ≠ some c := by
      intro h
      exact hid (congrArg Chunk.id (Option.some.inj (hd.symm.trans h)))
    exact ⟨hne, (otherType?_eq hn hc hne).trans hd⟩
  · rintro ⟨hne, hd⟩
    rw [otherType?_eq hn hc hne] at hd
    refine ⟨hd, fun hid => hne ?_⟩
    rw [hd, Chunk.eq_of_id_eq hn (mem_of_resolveType? hd) hc hid]

end Types

end Resolution

namespace Inference

open Resolution

/-- The types in the head of a container that give it dependencies of a relationship. -/
def writtenTypes (c : Chunk) : Relationship → List String
  | .inherits => c.declaration.base.toList
  | .implements => c.declaration.interfaces
  | _ => []

section Heritage

variable {chunks : List Chunk} {c : Chunk} {d : Dependency} {r : Relationship}
  {source target : String}

theorem mem_heritageOf {relationship : Relationship} {strength : Float} {verb written : String} :
    (source, target, r) ∈ (heritageOf chunks c relationship strength verb written).map
      Dependency.key ↔
      relationship = r ∧ c.id = source ∧ ∃ t, resolveType? chunks written = some t ∧
          t.id = target := by
  rw [heritageOf, List.map_map]
  cases resolveType? chunks written with
  | none => simp
  | some t =>
    simp only [Option.toList_some, List.map_cons, List.map_nil, List.mem_singleton,
      Function.comp_apply, Dependency.key, Prod.mk.injEq, Option.some.injEq]
    constructor
    · rintro ⟨rfl, rfl, rfl⟩
      exact ⟨rfl, rfl, t, rfl, rfl⟩
    · rintro ⟨rfl, rfl, _, rfl, rfl⟩
      exact ⟨rfl, rfl, rfl⟩

theorem mem_heritage (hr : pass r = 1) :
    (source, target, r) ∈ (heritage chunks c).map Dependency.key ↔
      c.kind = .container ∧ c.id = source ∧
      ∃ written ∈ writtenTypes c r, ∃ t, resolveType? chunks written = some t ∧ t.id = target := by
  unfold heritage
  by_cases hc : c.kind = .container
  · rw [if_pos (beq_iff_eq.mpr hc)]
    simp only [List.map_append, List.map_flatMap, List.mem_append, List.mem_flatMap, mem_heritageOf]
    cases r with
    | inherits => simp [writtenTypes, hc, and_left_comm]
    | implements => simp [writtenTypes, hc, and_left_comm]
    | _ => exact absurd hr (by decide)
  · rw [if_neg (by simpa using hc)]
    simp [hc]

/-- A container depends on the other containers that the types in its head mean. -/
theorem mem_edges_heritage (hn : (chunks.map Chunk.id).Nodup) (hr : pass r = 1) :
    (source, target, r) ∈ (Graph.ofChunks chunks).edges.map Dependency.key ↔ source ≠ target ∧
      ∃ c ∈ chunks, c.kind = .container ∧ c.id = source ∧ ∃ written ∈ writtenTypes c r,
        ∃ t, resolveType? chunks written = some t ∧ t.id = target := by
  have hk : (passes chunks)[pass r]? = some (heritage chunks) := by
    rw [hr]
    rfl
  rw [mem_keys_iff hn hk]
  simp only [mem_heritage hr]
  constructor
  · rintro ⟨hne, -, hheritage⟩
    exact ⟨hne, hheritage⟩
  · rintro ⟨hne, c, hc, hkind, hs, written, hw, t, ht, rfl⟩
    exact ⟨hne, List.mem_map_of_mem (mem_of_resolveType? ht), c, hc, hkind, hs, written,
      hw, t, ht, rfl⟩

theorem ofChunks_distinct (chunks : List Chunk) :
    Graph.ofChunks (Chunk.distinct chunks) = Graph.ofChunks chunks := by
  have hself : Chunk.distinct (Chunk.distinct chunks) = Chunk.distinct chunks :=
    Chunk.distinct_eq_self (nodup_distinctBy chunks [])
  rw [Graph.ofChunks, Graph.ofChunks, hself]

/-- A container has a dependency on the first other container that answers to a type in its head, or
else to the last part of it, unless the container itself comes first. -/
theorem heritage_on_others (hc : c ∈ Chunk.distinct chunks) (hk : c.kind = .container)
    (hr : r = .inherits ∨ r = .implements) (target : String) :
    (c.id, target, r) ∈ (Graph.ofChunks chunks).edges.map Dependency.key ↔
      ∃ written ∈ writtenTypes c r, ¬ IsMeant (Chunk.distinct chunks) c written ∧
        ∃ t, otherType? (Chunk.distinct chunks) c written = some t ∧ t.id = target := by
  have hn : ((Chunk.distinct chunks).map Chunk.id).Nodup := nodup_distinctBy chunks []
  have hpass : pass r = 1 := by
    rcases hr with rfl | rfl
    · rfl
    · rfl
  rw [← ofChunks_distinct, mem_edges_heritage hn hpass]
  constructor
  · rintro ⟨hne, d, hd, -, hid, written, hw, t, ht, rfl⟩
    obtain rfl := Chunk.eq_of_id_eq hn hd hc hid
    obtain ⟨hself, ht⟩ := (resolveType?_other hn hc).mp ⟨ht, hne.symm⟩
    exact ⟨written, hw, hself, t, ht, rfl⟩
  · rintro ⟨written, hw, hself, t, ht, rfl⟩
    obtain ⟨ht, hne⟩ := (resolveType?_other hn hc).mpr ⟨hself, ht⟩
    exact ⟨hne.symm, c, hc, hk, rfl, written, hw, t, ht, rfl⟩

end Heritage

/-- A class with the base `models.User`, and a class `User` in another file. -/
def userModels (name : String) : List Chunk :=
  [{ id := "a", kind := .container, name := some name, qualifiedName := some name, path := "a.py"
     language := "python", startLine := 1, endLine := 1
     content := s!"class {name}(models.User): pass"
     declaration := { base := some "models.User" } },
   { id := "b", kind := .container, name := some "User", qualifiedName := some "User"
     path := "models.py", language := "python", startLine := 1, endLine := 1
     content := "class User: pass" }]

theorem heritage_on_others_admin : ∃ c ∈ Chunk.distinct (userModels "Admin"), c.kind = .container ∧
    (c.id, "b", .inherits) ∈ (Graph.ofChunks (userModels "Admin")).edges.map Dependency.key := by
  have hc : (userModels "Admin")[0] ∈ Chunk.distinct (userModels "Admin") := List.mem_cons_self
  refine ⟨_, hc, rfl, (heritage_on_others hc rfl (Or.inl rfl) "b").mpr ⟨"models.User", ?_, ?_, ?_⟩⟩
  · decide
  · rintro (h | ⟨-, h⟩)
    · exact absurd h.1 (by decide)
    · exact absurd h.1 (by decide)
  · exact ⟨_, rfl, rfl⟩

/-- A class of the same name as its base comes first and takes the place of the base. -/
theorem not_on_others_user : ∃ c ∈ Chunk.distinct (userModels "User"), c.kind = .container ∧
    c.declaration.base = some "models.User" ∧
    ∃ t, otherType? (Chunk.distinct (userModels "User")) c "models.User" = some t ∧
      (c.id, t.id, .inherits) ∉ (Graph.ofChunks (userModels "User")).edges.map Dependency.key :=
  ⟨_, List.mem_cons_self, rfl, rfl, _, rfl, by decide⟩

end Inference

end CodeAtlas
