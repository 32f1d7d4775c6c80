import CodeAtlas.Proofs.Chunk.Tree
import CodeAtlas.Proofs.Source.Parts
import CodeAtlas.Source.Chunking

/-!
What the import statements of Python mean. A statement may import modules, some of them under other
names, and names from a module. Of the names from a module only those count that keep their name:
one that gets another name is left out.
-/

namespace CodeAtlas.Source

structure Tree.IsChild (t : Tree) (field kind : String) (c : Tree) : Prop where
  mem : c ∈ t.children
  named : c.info.named = true
  field : c.info.field = some field
  kind : c.kind = kind

/-- What a node of a Python file imports by itself, as it is written. -/
inductive PythonImport (bytes : List UInt8) (t : Tree) : String → Prop where
  | module {n : Tree} (ht : t.kind = "import_statement") (hn : t.IsChild "name" "dotted_name" n) :
      PythonImport bytes t (n.text bytes)
  | renamedModule {a n : Tree} (ht : t.kind = "import_statement")
      (ha : t.IsChild "name" "aliased_import" a)
      (hn : a.IsChild "name" "dotted_name" n) : PythonImport bytes t (n.text bytes)
  | name {m n : Tree} (ht : t.kind = "import_from_statement")
      (hm : t.IsChild "module_name" "dotted_name" m)
      (hn : t.IsChild "name" "dotted_name" n) :
        PythonImport bytes t s!"{m.text bytes}.{n.text bytes}"
  | all {m w : Tree} (ht : t.kind = "import_from_statement")
      (hm : t.IsChild "module_name" "dotted_name" m)
      (hw : w ∈ t.children) (hnamed : w.info.named = true) (hk : w.kind = "wildcard_import") :
      PythonImport bytes t s!"{m.text bytes}.*"

section Patterns

variable {bytes : List UInt8} {l : Language} {t u c : Tree} {field kind raw s : String}
  {role : Role}

theorem accepts_stepTo : (c ∈ t.children ∧ (Language.stepTo field kind).accepts c = true) ↔
    t.IsChild field kind c := by
  simp only [Step.accepts, Language.stepTo, Option.all_some, Bool.and_eq_true, beq_iff_eq]
  constructor
  · rintro ⟨hm, ⟨hn, hf⟩, hk⟩
    exact ⟨hm, hn, hf, hk.symm⟩
  · rintro ⟨hm, hn, hf, hk⟩
    exact ⟨hm, ⟨hn, hf⟩, hk.symm⟩

theorem accepts_stepKind : (Language.stepKind kind).accepts c = true ↔
    c.info.named = true ∧ c.kind = kind := by
  simp only [Step.accepts, Language.stepKind, Option.all_none, Option.all_some, Bool.and_true,
    Bool.and_eq_true, beq_iff_eq]
  exact and_congr_right fun _ => eq_comm

theorem mem_ends_cons {step : Step} {steps : List Step} :
    c ∈ Pattern.ends (step :: steps) t ↔ ∃ d, (d ∈ t.children ∧ step.accepts d = true) ∧
      c ∈ Pattern.ends steps d := by
  rw [Pattern.ends, List.mem_flatMap]
  simp only [List.mem_filter]

theorem mem_ends_nil : c ∈ Pattern.ends [] t ↔ c = t := by
  rw [Pattern.ends, List.mem_singleton]

theorem mem_choices_cons {b : Branch} {branches : List Branch} {captures : List Capture} :
    captures ∈ Pattern.choices (b :: branches) t ↔
      ∃ e ∈ Pattern.ends b.steps t, ∃ rest ∈ Pattern.choices branches t, ⟨b.role, e⟩ :: rest =
          captures := by
  rw [Pattern.choices, List.mem_flatMap]
  simp only [List.mem_map]

theorem mem_choices_nil {captures : List Capture} :
    captures ∈ Pattern.choices [] t ↔ captures = [] := by
  rw [Pattern.choices, List.mem_singleton]

/-- Whether a match of a pattern at `u` stands for an import that is written so. -/
def Writes (bytes : List UInt8) (t u : Tree) (raw : String) (p : Pattern) : Prop :=
  ∃ captures ∈ p.matchesAt u, ∃ first, Context.written? bytes t captures = some (first, raw)

/-- The imports of a context node are the dotted forms of what its matches stand for. -/
theorem mem_importsOf : s ∈ Context.importsOf l bytes t ↔
    ∃ u ∈ t.preorder, ∃ raw, (∃ p ∈ l.imports, Writes bytes t u raw p) ∧
      s ∈ ImportPath.normalize raw := by
  simp only [Context.importsOf, List.mem_eraseDups, List.mem_map, List.mem_mergeSort,
    List.mem_flatMap, List.mem_filterMap, Pattern.matchesIn, Prod.exists, Writes]
  constructor
  · rintro ⟨_, _, ⟨first, raw, ⟨captures, ⟨p, hp, u, hu, hc⟩, hraw⟩, _, hs, he⟩, rfl⟩
    obtain ⟨rfl, rfl⟩ := Prod.mk.inj he
    exact ⟨u, hu, raw, ⟨p, hp, captures, hc, first, hraw⟩, hs⟩
  · rintro ⟨u, hu, raw, ⟨p, hp, captures, hc, first, hraw⟩, hs⟩
    exact ⟨first, s, ⟨first, raw, ⟨captures, ⟨p, hp, u, hu, hc⟩, hraw⟩, s, hs, rfl⟩, rfl⟩

theorem mem_matchesAt {p : Pattern} {captures : List Capture} :
    captures ∈ p.matchesAt u ↔ (u.info.named = true ∧ u.kind = p.kind) ∧
      captures ∈ Pattern.choices p.branches u := by
  unfold Pattern.matchesAt
  by_cases h : u.info.named = true ∧ u.kind = p.kind
  · rw [if_pos (by simpa using h)]
    exact (and_iff_right h).symm
  · rw [if_neg (by simpa using h)]
    exact iff_of_false List.not_mem_nil fun hc => h hc.1

theorem writes_single {kind : String} {steps : List Step} :
    Writes bytes t u raw (Language.single kind steps .imported) ↔
      (u.info.named = true ∧ u.kind = kind) ∧ ∃ n ∈ Pattern.ends steps u, n.text bytes = raw := by
  simp only [Writes, mem_matchesAt, Language.single, mem_choices_cons, mem_choices_nil]
  constructor
  · rintro ⟨_, ⟨hu, n, hn, _, rfl, rfl⟩, first, h⟩
    exact ⟨hu, n, hn, congrArg Prod.snd (Option.some.inj h)⟩
  · rintro ⟨hu, n, hn, rfl⟩
    exact ⟨_, ⟨hu, n, hn, _, rfl, rfl⟩, n.first, rfl⟩

theorem writes_name {kind : String} {steps steps' : List Step} :
    Writes bytes t u raw ⟨kind, [⟨steps, .module⟩, ⟨steps', .imported⟩]⟩ ↔
      (u.info.named = true ∧ u.kind = kind) ∧ ∃ m ∈ Pattern.ends steps u,
        ∃ n ∈ Pattern.ends steps' u, s!"{m.text bytes}.{n.text bytes}" = raw := by
  simp only [Writes, mem_matchesAt, mem_choices_cons, mem_choices_nil]
  constructor
  · rintro ⟨_, ⟨hu, m, hm, _, ⟨n, hn, _, rfl, rfl⟩, rfl⟩, first, h⟩
    exact ⟨hu, m, hm, n, hn, congrArg Prod.snd (Option.some.inj h)⟩
  · rintro ⟨hu, m, hm, n, hn, rfl⟩
    exact ⟨_, ⟨hu, m, hm, _, ⟨n, hn, _, rfl, rfl⟩, rfl⟩, n.first, rfl⟩

theorem writes_all {kind : String} {steps steps' : List Step} :
    Writes bytes t u raw ⟨kind, [⟨steps, .module⟩, ⟨steps', .wildcard⟩]⟩ ↔
      (u.info.named = true ∧ u.kind = kind) ∧ ∃ m ∈ Pattern.ends steps u,
        ∃ w ∈ Pattern.ends steps' u, s!"{m.text bytes}.*" = raw := by
  simp only [Writes, mem_matchesAt, mem_choices_cons, mem_choices_nil]
  constructor
  · rintro ⟨_, ⟨hu, m, hm, _, ⟨w, hw, _, rfl, rfl⟩, rfl⟩, first, h⟩
    exact ⟨hu, m, hm, w, hw, congrArg Prod.snd (Option.some.inj h)⟩
  · rintro ⟨hu, m, hm, w, hw, rfl⟩
    exact ⟨_, ⟨hu, m, hm, _, ⟨w, hw, _, rfl, rfl⟩, rfl⟩, t.first, rfl⟩

/-- The patterns of Python find just what a node imports. -/
theorem writes_python : (∃ p ∈ Language.python.imports, Writes bytes t u raw p) ↔
    u.info.named = true ∧ PythonImport bytes u raw := by
  simp only [Language.python, List.mem_cons, List.not_mem_nil, or_false, exists_eq_or_imp,
    exists_eq_left, writes_single, writes_name, writes_all, mem_ends_cons, mem_ends_nil,
    accepts_stepTo, accepts_stepKind, exists_eq_right']
  constructor
  · rintro (⟨⟨hnamed, ht⟩, n, hn, rfl⟩ | ⟨⟨hnamed, ht⟩, n, ⟨a, ha, hn⟩, rfl⟩ |
      ⟨⟨hnamed, ht⟩, m, hm, n, hn, rfl⟩ | ⟨⟨hnamed, ht⟩, m, hm, w, ⟨hw, hwnamed, hwk⟩, rfl⟩)
    · exact ⟨hnamed, .module ht hn⟩
    · exact ⟨hnamed, .renamedModule ht ha hn⟩
    · exact ⟨hnamed, .name ht hm hn⟩
    · exact ⟨hnamed, .all ht hm hw hwnamed hwk⟩
  · rintro ⟨hnamed, h⟩
    cases h with
    | module ht hn => exact Or.inl ⟨⟨hnamed, ht⟩, _, hn, rfl⟩
    | renamedModule ht ha hn => exact Or.inr (Or.inl ⟨⟨hnamed, ht⟩, _, ⟨_, ha, hn⟩, rfl⟩)
    | name ht hm hn => exact Or.inr (Or.inr (Or.inl ⟨⟨hnamed, ht⟩, _, hm, _, hn, rfl⟩))
    | all ht hm hw hwnamed hwk =>
      exact Or.inr (Or.inr (Or.inr ⟨⟨hnamed, ht⟩, _, hm, _, ⟨hw, hwnamed, hwk⟩, rfl⟩))

end Patterns

namespace File

variable {l : Language}

theorem named_of_mem_contexts {root t : Tree} (ht : t ∈ (Parts.ofRoot l root).contexts) :
    t.info.named = true := by
  have hrole := Parts.mem_roleNodes_of_mem_all (List.mem_append_left _ ht)
  exact Language.named_of_mem_reachedAll _ (List.mem_filter.mp hrole).1

/-- The chunk of a file stands first and has the imports of all context nodes. -/
theorem chunks_file (f : File) (l : Language) :
    ∃ file below, f.chunks l = file :: below ∧ file.kind = .file ∧
    ∀ s, s ∈ file.declaration.imports ↔
      ∃ t ∈ (Parts.ofRoot l f.root).contexts, s ∈ Context.importsOf l f.bytes t := by
  have hmap : (f.chunks l).map (fun c => (c.kind, c.declaration.imports)) =
      (f.tree l).map fun c => (c.kind, c.declaration.imports) :=
        Chunk.link_map (fun _ _ _ => rfl) (f.tree l)
  cases hchunks : f.chunks l with
  | nil =>
    rw [hchunks] at hmap
    cases hmap
  | cons file below =>
    rw [hchunks] at hmap
    obtain ⟨hk, himports⟩ := Prod.mk.inj (List.cons.inj hmap).1
    refine ⟨file, below, rfl, hk, fun s => ?_⟩
    rw [himports, fileChunk, List.mem_eraseDups, List.flatMap_map, List.mem_flatMap]
    rfl

/-- A Python file imports what its import statements mean: of a name from a module all dotted forms,
but only if the name is kept. -/
theorem chunks_python_imports (f : File) :
    ∃ file below, f.chunks .python = file :: below ∧ file.kind = .file ∧
    (∀ s, s ∈ file.declaration.imports ↔
      ∃ t ∈ (Parts.ofRoot .python f.root).contexts, ∃ u ∈ t.preorder,
      u.info.named = true ∧ ∃ raw, PythonImport f.bytes u raw ∧ s ∈ ImportPath.normalize raw) ∧
    ∀ t ∈ (Parts.ofRoot .python f.root).contexts, t.kind = "import_from_statement" →
      ∀ m n, t.IsChild "module_name" "dotted_name" m → t.IsChild "name" "dotted_name" n →
        ImportPath.normalize s!"{m.text f.bytes}.{n.text f.bytes}" ⊆ file.declaration.imports := by
  obtain ⟨file, below, hchunks, hk, himports⟩ := chunks_file f .python
  have hiff : ∀ s, s ∈ file.declaration.imports ↔ ∃ t ∈ (Parts.ofRoot .python f.root).contexts,
      ∃ u ∈ t.preorder,
      u.info.named = true ∧ ∃ raw, PythonImport f.bytes u raw ∧ s ∈ ImportPath.normalize raw := by
    intro s
    simp only [himports, mem_importsOf, writes_python]
    constructor
    · rintro ⟨t, ht, u, hu, raw, ⟨hnamed, himport⟩, hs⟩
      exact ⟨t, ht, u, hu, hnamed, raw, himport, hs⟩
    · rintro ⟨t, ht, u, hu, hnamed, raw, himport, hs⟩
      exact ⟨t, ht, u, hu, raw, ⟨hnamed, himport⟩, hs⟩
  refine ⟨file, below, hchunks, hk, hiff, ?_⟩
  intro t ht hkind m n hm hn s hs
  exact (hiff s).mpr ⟨t, ht, t, t.mem_preorder_self, named_of_mem_contexts ht, _, .name hkind hm hn,
    hs⟩

/-- A Python file with two names from a module, of which the second gets another name. -/
def renamedName : File where
  path := "a.py"
  bytes := "from m import W, X as Y\n".toList.map fun c => c.toNat.toUInt8
  root := .node { kind := "module", first := 0, last := 24 }
    [.node { kind := "import_from_statement", first := 0, last := 23 }
      [.node { kind := "dotted_name", first := 5, last := 6, field := some "module_name" }
        [.node { kind := "identifier", first := 5, last := 6 } []],
      .node { kind := "dotted_name", first := 14, last := 15, field := some "name" }
        [.node { kind := "identifier", first := 14, last := 15 } []],
      .node { kind := "aliased_import", first := 17, last := 23, field := some "name" }
        [.node { kind := "dotted_name", first := 17, last := 18, field := some "name" }
          [.node { kind := "identifier", first := 17, last := 18 } []],
        .node { kind := "identifier", first := 22, last := 23, field := some "alias" } []]]]

def renamingStatement : Tree := renamedName.root.children[0]

theorem mem_contexts_renamedName :
    renamingStatement ∈ (Parts.ofRoot .python renamedName.root).contexts :=
  List.mem_mergeSort.mpr (List.mem_singleton_self renamingStatement)

theorem renamingStatement_module :
    renamingStatement.IsChild "module_name" "dotted_name" renamingStatement.children[0] :=
  ⟨List.getElem_mem (by decide), rfl, rfl, rfl⟩

/-- The name that is kept is imported. -/
theorem chunks_python_imports_renamedName :
    ∃ c ∈ renamedName.chunks .python, c.kind = .file ∧ "m.W" ∈ c.declaration.imports := by
  obtain ⟨file, below, hchunks, hk, -, hkept⟩ := chunks_python_imports renamedName
  have hname : renamingStatement.IsChild "name" "dotted_name" renamingStatement.children[1] :=
    ⟨List.getElem_mem (by decide), rfl, rfl, rfl⟩
  have hw := hkept _ mem_contexts_renamedName rfl _ _ renamingStatement_module hname
  exact ⟨file, hchunks ▸ List.mem_cons_self, hk, hw (by decide +kernel)⟩

theorem imports_renamedName :
    (renamedName.chunks .python).map (fun c => (c.kind, c.declaration.imports)) =
      [(.file, ["m.W"]), (.imported, ["m.W"])] := by
  rw [show (renamedName.chunks .python).map (fun c => (c.kind, c.declaration.imports)) =
    (renamedName.tree .python).map fun c => (c.kind, c.declaration.imports) from Chunk.link_map
    (fun _ _ _ => rfl) _]
  decide +kernel

/-- The name that gets another name is not among the imports. -/
theorem not_imports_renamedName : renamedName.root.WellFormed .python renamedName.bytes.length ∧
    ∃ t ∈ (Parts.ofRoot .python renamedName.root).contexts, t.kind = "import_from_statement" ∧
      ∃ m a n, t.IsChild "module_name" "dotted_name" m ∧ t.IsChild "name" "aliased_import" a ∧
        a.IsChild "name" "dotted_name" n ∧
        "m.X" ∈ ImportPath.normalize s!"{m.text renamedName.bytes}.{n.text renamedName.bytes}" ∧
        ∀ c ∈ renamedName.chunks .python, c.kind = .file → "m.X" ∉ c.declaration.imports := by
  refine ⟨by decide, renamingStatement, mem_contexts_renamedName, rfl, _,
    renamingStatement.children[2], renamingStatement.children[2].children[0],
    renamingStatement_module, ?_, ?_, ?_, ?_⟩
  · exact ⟨List.getElem_mem (by decide), rfl, rfl, rfl⟩
  · exact ⟨List.getElem_mem (by decide), rfl, rfl, rfl⟩
  · decide +kernel
  · intro c hc hk hm
    have hrow : (c.kind, c.declaration.imports) ∈
        [(ChunkKind.file, ["m.W"]), (.imported, ["m.W"])] :=
      imports_renamedName ▸ List.mem_map_of_mem hc
    rw [hk] at hrow
    have himports : c.declaration.imports = ["m.W"] := by simpa using hrow
    rw [himports] at hm
    exact absurd hm (by decide)

end File

end CodeAtlas.Source
