import CodeAtlas.Graph.Inference
import CodeAtlas.Proofs.First
import CodeAtlas.Proofs.Text.Pieces

/-!
What an import means. It may name a module by all of its path or by the last parts of the longer of
the two, and then means the files of the module; or a symbol, by its full name, as a member of a
module, or by its last part alone.
-/

namespace CodeAtlas.Resolution

/-- Whether one dotted path is the last part of another, behind a point. -/
def DottedSuffix (short long : String) : Prop := ∃ before : String, long = before ++ "." ++ short

/-- How an import names a module: by the same path, or one of the paths is the last part of the
other. -/
inductive Names (written module : String) : Match → Prop where
  | exact (h : module = written) : Names written module .exact
  | byName (hne : module ≠ written) (h : DottedSuffix module written ∨
      DottedSuffix written module) : Names written module .byName

/-- Whether a chunk is a file outside a path and of a module that an import names so. -/
def IsModuleFile (written path : String) (file : Chunk) (m : Match) : Prop :=
  file.kind = .file ∧ file.path ≠ path ∧ ∃ module, file.module? = some module ∧
  Names written module m

/-- Whether a chunk is a symbol right below a file. -/
def IsTopLevel (file c : Chunk) : Prop := c.kind.isSymbol = true ∧ c.parent = some file.id

/-- Whether a chunk is a symbol outside a path with a full name. -/
def IsQualifiedElsewhere (name path : String) (c : Chunk) : Prop :=
  c.kind.isSymbol = true ∧ c.qualifiedName = some name ∧ c.path ≠ path

/-- Whether a chunk is a symbol outside a path with a name; the empty text is no name. -/
def IsNamedElsewhere (name path : String) (c : Chunk) : Prop :=
  c.kind.isSymbol = true ∧ c.name = some name ∧ name ≠ "" ∧ c.path ≠ path

/-- Whether a chunk is a file of the module `head` with a symbol of a name at its top. -/
def HasMember (chunks : List Chunk) (head name path : String) (file : Chunk) : Prop :=
  (∃ m, IsModuleFile head path file m) ∧ ∃ c ∈ chunks, IsTopLevel file c ∧ c.name = some name

/-- Whether an import is a head and a name with its last point between them. -/
def IsCut (written head name : String) : Prop := written = head ++ "." ++ name ∧ '.' ∉ name.toList

/-- Whether a text is what follows the last point of an import, or all of an import without a
point. -/
def IsLastPart (written last : String) : Prop :=
  '.' ∉ last.toList ∧ (written = last ∨ ∃ head, written = head ++ "." ++ last)

/-- Whether an import in a file of a path means a symbol, and how well. A full name goes before a
member of a module, and this before a name. -/
inductive Means (chunks : List Chunk) (written path : String) (c : Chunk) : Match → Prop where
  | fullName (hc : First chunks (IsQualifiedElsewhere written path) c) :
    Means chunks written path c .exact
  | member {head name : String} {file : Chunk} {m : Match}
      (hfull : ∀ d ∈ chunks, ¬ IsQualifiedElsewhere written path d) (hcut : IsCut written head name)
      (hfile : First chunks (HasMember chunks head name path) file)
        (hm : IsModuleFile head path file m)
      (hc : First chunks (fun d => IsTopLevel file d ∧ d.name = some name) c) :
        Means chunks written path c m
  | lastPart {last : String} (hfull : ∀ d ∈ chunks, ¬ IsQualifiedElsewhere written path d)
      (hmember : ∀ head name, IsCut written head name →
      ∀ file ∈ chunks, ¬ HasMember chunks head name path file)
      (hlast : IsLastPart written last) (hc : First chunks (IsNamedElsewhere last path) c) :
      Means chunks written path c .byName

section Names

variable {written module short long head name last : String} {m : Match}

theorem endsWithPath_iff : endsWithPath long short = true ↔ DottedSuffix short long := by
  unfold endsWithPath DottedSuffix
  cases h : Text.dropEndWord? short.toList long.toList with
  | none =>
    refine iff_of_false (by simp) ?_
    rintro ⟨before, rfl⟩
    rw [String.toList_append, Text.dropEndWord?_eq_some_iff.mpr rfl] at h
    cases h
  | some before =>
    have hlong := Text.dropEndWord?_eq_some_iff.mp h
    simp only [beq_iff_eq, List.getLast?_eq_some_iff]
    constructor
    · rintro ⟨more, rfl⟩
      refine ⟨String.ofList more, String.ext_iff.mpr ?_⟩
      rw [hlong, String.toList_append, String.toList_append, String.toList_ofList]
      rfl
    · rintro ⟨more, rfl⟩
      rw [String.toList_append, String.toList_append] at hlong
      exact ⟨more.toList, (List.append_cancel_right hlong).symm⟩

theorem matchModule?_eq_some_iff : matchModule? written module = some m ↔
    Names written module m := by
  unfold matchModule?
  by_cases he : module = written
  · rw [if_pos (beq_iff_eq.mpr he), Option.some.injEq]
    constructor
    · rintro rfl
      exact .exact he
    · rintro (⟨-⟩ | ⟨hne, -⟩)
      · rfl
      · exact absurd he hne
  · rw [if_neg (by simpa using he)]
    by_cases hs : DottedSuffix module written ∨ DottedSuffix written module
    · rw [if_pos (by rwa [Bool.or_eq_true, endsWithPath_iff, endsWithPath_iff]), Option.some.injEq]
      constructor
      · rintro rfl
        exact .byName he hs
      · rintro (h | -)
        · exact absurd h he
        · rfl
    · rw [if_neg (by rwa [Bool.or_eq_true, endsWithPath_iff, endsWithPath_iff])]
      refine iff_of_false (by simp) ?_
      rintro (h | ⟨-, h⟩)
      · exact he h
      · exact hs h

theorem append_point_iff :
    written = head ++ "." ++ name ↔ written.toList = head.toList ++ '.' :: name.toList := by
  rw [String.ext_iff, String.toList_append, String.toList_append, List.append_assoc]
  rfl

theorem cutName?_eq_some_iff : cutName? written = some (head, name) ↔ IsCut written head name := by
  rw [cutName?, Option.map_eq_some_iff, IsCut, append_point_iff, ← Text.cutAtLast?_eq_some_iff]
  constructor
  · rintro ⟨⟨before, after⟩, h, he⟩
    obtain ⟨rfl, rfl⟩ := Prod.mk.inj he
    rwa [String.toList_ofList, String.toList_ofList]
  · intro h
    exact ⟨_, h, by rw [String.ofList_toList, String.ofList_toList]⟩

theorem afterLastPoint_eq_iff :
    String.ofList (Name.afterLastPoint written.toList) = last ↔ IsLastPart written last := by
  have hlist : String.ofList (Name.afterLastPoint written.toList) = last ↔
      Name.afterLastPoint written.toList = last.toList := by
    rw [String.ext_iff, String.toList_ofList]
  rw [hlist, Name.afterLastPoint_eq_iff, IsLastPart, String.toList_inj]
  simp only [append_point_iff]
  apply and_congr_right
  intro _
  apply or_congr_right
  constructor
  · rintro ⟨before, h⟩
    exact ⟨String.ofList before, by rwa [String.toList_ofList]⟩
  · rintro ⟨before, h⟩
    exact ⟨before.toList, h⟩

theorem Names.unique {n : Match} (hm : Names written module m) (hn : Names written module n) :
    m = n := by
  rw [← matchModule?_eq_some_iff] at hm hn
  exact Option.some.inj (hm.symm.trans hn)

end Names

section Resolved

variable {chunks : List Chunk} {written path head name : String} {file c : Chunk} {m n : Match}

theorem IsModuleFile.unique (hm : IsModuleFile written path file m)
    (hn : IsModuleFile written path file n) : m = n := by
  obtain ⟨-, -, module, hmodule, hm⟩ := hm
  obtain ⟨-, -, module', hmodule', hn⟩ := hn
  obtain rfl := Option.some.inj (hmodule.symm.trans hmodule')
  exact hm.unique hn

def moduleFile? (written path : String) (c : Chunk) : Option (Chunk × Match) :=
  if c.kind == .file && c.path != path then (c.module?.bind (matchModule? written)).map fun m =>
    (c, m) else none

theorem moduleFile?_eq_some_iff :
    moduleFile? written path c = some (file, m) ↔ c = file ∧ IsModuleFile written path c m := by
  unfold moduleFile? IsModuleFile
  by_cases h : c.kind = .file ∧ c.path ≠ path
  · rw [if_pos (by simp [h]), Option.map_eq_some_iff]
    simp only [Prod.mk.injEq, Option.bind_eq_some_iff, matchModule?_eq_some_iff]
    constructor
    · rintro ⟨m, hm, rfl, rfl⟩
      exact ⟨rfl, h.1, h.2, hm⟩
    · rintro ⟨rfl, -, -, hm⟩
      exact ⟨m, hm, rfl, rfl⟩
  · rw [if_neg (by simpa using h)]
    refine iff_of_false (by simp) ?_
    rintro ⟨-, hk, hp, -⟩
    exact h ⟨hk, hp⟩

theorem mem_moduleFiles :
    (file, m) ∈ moduleFiles chunks written path ↔
      file ∈ chunks ∧ IsModuleFile written path file m := by
  show (file, m) ∈ chunks.filterMap (moduleFile? written path) ↔ _
  rw [List.mem_filterMap]
  simp only [moduleFile?_eq_some_iff]
  constructor
  · rintro ⟨c, hc, rfl, hm⟩
    exact ⟨hc, hm⟩
  · rintro ⟨hfile, hm⟩
    exact ⟨file, hfile, rfl, hm⟩

theorem mem_topLevel : c ∈ topLevel chunks file ↔ c ∈ chunks ∧ IsTopLevel file c := by
  rw [topLevel, List.mem_filter, Bool.and_eq_true, beq_iff_eq, IsTopLevel]

theorem qualifiedElsewhere?_eq_some_iff :
    qualifiedElsewhere? chunks name path = some c ↔
      First chunks (IsQualifiedElsewhere name path) c := by
  rw [qualifiedElsewhere?, First.find?_eq_some_iff]
  apply First.congr
  intro d _
  rw [IsQualifiedElsewhere, Bool.and_eq_true, Bool.and_eq_true, beq_iff_eq, bne_iff_ne, and_assoc]

theorem namedElsewhere?_eq_some_iff :
    namedElsewhere? chunks name path = some c ↔ First chunks (IsNamedElsewhere name path) c := by
  rw [namedElsewhere?, First.find?_eq_some_iff]
  apply First.congr
  intro d _
  simp only [IsNamedElsewhere, Chunk.isNamed, Bool.and_eq_true, beq_iff_eq, bne_iff_ne, and_assoc]
  apply and_congr_right
  intro _
  constructor
  · rintro ⟨hnamed, hname, hpath⟩
    rw [hname, Option.any_some, Bool.not_eq_true', ← Bool.not_eq_true, String.isEmpty_iff] at hnamed
    exact ⟨hname, hnamed, hpath⟩
  · rintro ⟨hname, hne, hpath⟩
    refine ⟨?_, hname, hpath⟩
    rwa [hname, Option.any_some, Bool.not_eq_true', ← Bool.not_eq_true, String.isEmpty_iff]

theorem memberAtTop_eq_some_iff :
    ((topLevel chunks file).find? fun d => d.name == some name) = some c ↔
      First chunks (fun d => IsTopLevel file d ∧ d.name = some name) c := by
  rw [First.find?_eq_some_iff, topLevel, First.filter_iff]
  apply First.congr
  intro d _
  rw [IsTopLevel, Bool.and_eq_true, beq_iff_eq, beq_iff_eq]

theorem moduleMember?_eq_some_iff : moduleMember? chunks written path = some (c, m) ↔
    ∃ head name, IsCut written head name ∧
      ∃ file, First chunks (HasMember chunks head name path) file ∧
      IsModuleFile head path file m ∧ First chunks (fun d => IsTopLevel file d ∧
          d.name = some name) c := by
  unfold moduleMember?
  cases hcut : cutName? written with
  | none =>
    refine iff_of_false (by simp) ?_
    rintro ⟨head, name, h, -⟩
    rw [cutName?_eq_some_iff.mpr h] at hcut
    cases hcut
  | some p =>
    obtain ⟨head, name⟩ := p
    have hfile : ∀ z ∈ chunks,
        (∃ y, moduleFile? head path z = some y ∧
          (((topLevel chunks y.1).find? fun d => d.name == some name).map fun d =>
          (d, y.2)).isSome = true) ↔ HasMember chunks head name path z := by
      intro z _
      simp only [Prod.exists, moduleFile?_eq_some_iff, Option.isSome_map, Option.isSome_iff_exists,
        memberAtTop_eq_some_iff, First.exists_iff, HasMember]
      constructor
      · rintro ⟨_, m, ⟨rfl, hm⟩, hc⟩
        exact ⟨⟨m, hm⟩, hc⟩
      · rintro ⟨⟨m, hm⟩, hc⟩
        exact ⟨z, m, ⟨rfl, hm⟩, hc⟩
    show ((chunks.filterMap (moduleFile? head path)).findSome? _ = _) ↔ _
    rw [First.findSome?_eq_some_iff]
    simp only [First.filterMap_iff, First.congr hfile]
    constructor
    · rintro ⟨⟨file, m'⟩, ⟨z, hz, hzm⟩, hc⟩
      obtain ⟨rfl, hm⟩ := moduleFile?_eq_some_iff.mp hzm
      obtain ⟨d, hd, he⟩ := Option.map_eq_some_iff.mp hc
      obtain ⟨rfl, rfl⟩ := Prod.mk.inj he
      exact ⟨head, name, cutName?_eq_some_iff.mp hcut, z, hz, hm, memberAtTop_eq_some_iff.mp hd⟩
    · rintro ⟨head', name', h, file, hfirst, hm, hc⟩
      rw [← cutName?_eq_some_iff, hcut] at h
      obtain ⟨rfl, rfl⟩ := Prod.mk.inj (Option.some.inj h)
      exact ⟨(file, m), ⟨file, hfirst, moduleFile?_eq_some_iff.mpr ⟨rfl, hm⟩⟩,
        Option.map_eq_some_iff.mpr ⟨c, memberAtTop_eq_some_iff.mpr hc, rfl⟩⟩

theorem qualifiedElsewhere?_eq_none_iff :
    qualifiedElsewhere? chunks name path = none ↔
      ∀ d ∈ chunks, ¬ IsQualifiedElsewhere name path d := by
  simp only [Option.eq_none_iff_forall_ne_some, ne_eq, qualifiedElsewhere?_eq_some_iff,
    ← not_exists, First.exists_iff]
  simp only [not_exists, not_and]

theorem moduleMember?_eq_none_iff : moduleMember? chunks written path = none ↔
    ∀ head name, IsCut written head name → ∀ file ∈ chunks,
      ¬ HasMember chunks head name path file := by
  constructor
  · intro h head name hcut file hfile hmember
    obtain ⟨first, hfirst⟩ := First.exists_iff.mpr ⟨file, hfile, hmember⟩
    obtain ⟨⟨m, hm⟩, hc⟩ := hfirst.holds
    obtain ⟨c, hc⟩ := First.exists_iff.mpr hc
    rw [moduleMember?_eq_some_iff.mpr ⟨head, name, hcut, first, hfirst, hm, hc⟩] at h
    cases h
  · intro h
    cases hmember : moduleMember? chunks written path with
    | none => rfl
    | some p =>
      obtain ⟨c, m⟩ := p
      obtain ⟨head, name, hcut, file, hfile, -⟩ := moduleMember?_eq_some_iff.mp hmember
      exact absurd hfile.holds (h head name hcut file hfile.mem)

end Resolved

theorem Means.mem {chunks : List Chunk} {written path : String} {c : Chunk} {m : Match}
    (h : Means chunks written path c m) : c ∈ chunks := by
  cases h with
  | fullName hc => exact hc.mem
  | member _ _ _ _ hc => exact hc.mem
  | lastPart _ _ _ hc => exact hc.mem

end CodeAtlas.Resolution

namespace CodeAtlas.Inference

open Resolution

variable {chunks : List Chunk} {written path : String} {c d : Chunk} {m n : Match}

/-- The symbol that is looked up for an import is the one it means. -/
theorem importedSymbol?_eq_some_iff : importedSymbol? chunks written path = some (c, m) ↔
    Means chunks written path c m := by
  unfold importedSymbol?
  simp only [Option.or_eq_some_iff, Option.or_eq_none_iff, Option.map_eq_none_iff,
    Option.map_eq_some_iff, Prod.mk.injEq, qualifiedElsewhere?_eq_some_iff,
    qualifiedElsewhere?_eq_none_iff, namedElsewhere?_eq_some_iff, moduleMember?_eq_some_iff,
      moduleMember?_eq_none_iff]
  constructor
  · rintro ((⟨_, hc, rfl, rfl⟩ | ⟨hfull, head, name, hcut, file, hfile, hm, hc⟩) |
      ⟨⟨hfull, hmember⟩, _, hc, rfl, rfl⟩)
    · exact .fullName hc
    · exact .member hfull hcut hfile hm hc
    · exact .lastPart hfull hmember (afterLastPoint_eq_iff.mp rfl) hc
  · rintro (hc | ⟨hfull, hcut, hfile, hm, hc⟩ | ⟨hfull, hmember, hlast, hc⟩)
    · exact Or.inl (Or.inl ⟨c, hc, rfl, rfl⟩)
    · exact Or.inl (Or.inr ⟨hfull, _, _, hcut, _, hfile, hm, hc⟩)
    · refine Or.inr ⟨⟨hfull, hmember⟩, c, ?_, rfl, rfl⟩
      rwa [afterLastPoint_eq_iff.mpr hlast]

theorem means_unique (hc : Means chunks written path c m) (hd : Means chunks written path d n) :
    c = d ∧ m = n := by
  rw [← importedSymbol?_eq_some_iff] at hc hd
  exact Prod.mk.inj (Option.some.inj (hc.symm.trans hd))

end CodeAtlas.Inference
