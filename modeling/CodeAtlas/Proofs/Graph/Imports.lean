import CodeAtlas.Proofs.Graph.Kept
import CodeAtlas.Proofs.Graph.Modules

/-!
What files depend on by their imports. An import with a wildcard reaches all below its path, any
other the files of the module it names; only where there are none it reaches a symbol, and no more
than one. Of several imports that reach the same chunk the first gives the dependency.
-/

namespace CodeAtlas.Inference

open Resolution

/-- Whether an import of all that is below `before` reaches a chunk outside a path: a symbol whose
full name starts so, a file of the module, or a symbol at the top of such a file. -/
inductive IsBelow (chunks : List Chunk) (before path : String) (t : Chunk) : Prop where
  | symbol (hk : t.kind.isSymbol = true) (hpath : t.path ≠ path)
      (hq : ∃ rest, t.qualifiedName = some (before ++ "." ++ rest))
  | file {m : Match} (hm : IsModuleFile before path t m)
  | atTop {file : Chunk} {m : Match} (hfile : file ∈ chunks) (hm : IsModuleFile before path file m)
      (ht : IsTopLevel file t)

inductive Manner where
  | wildcard
  | module (m : Match)
  | symbol (m : Match)

def Manner.edge : Manner → (c t : Chunk) → (written : String) → Dependency
  | .wildcard, c, t, written => importOf c t 0.5 false s!"wildcard import {written}"
  | .module m, c, t, written => importOf c t (Match.strength m) true s!"imports module {written}"
  | .symbol m, c, t, written => importOf c t (Match.strength m) true s!"imports {written}"

/-- Whether an import in a file of a path reaches a chunk, and how. -/
inductive Reaches (chunks : List Chunk) (written path : String) (t : Chunk) : Manner → Prop where
  | wildcard {before : String} (hw : written = before ++ ".*") (ht : IsBelow chunks before path t) :
      Reaches chunks written path t .wildcard
  | module {m : Match} (hw : ∀ before, written ≠ before ++ ".*")
      (hm : IsModuleFile written path t m) : Reaches chunks written path t (.module m)
  | symbol {m : Match} (hw : ∀ before, written ≠ before ++ ".*")
      (hfile : ∀ file ∈ chunks, ∀ m, ¬ IsModuleFile written path file m)
      (ht : Means chunks written path t m) : Reaches chunks written path t (.symbol m)

section Reaches

variable {chunks : List Chunk} {written before path : String} {c t : Chunk} {how other : Manner}

theorem wildcard?_eq_some_iff : wildcard? written = some before ↔ written = before ++ ".*" := by
  rw [wildcard?, Option.map_eq_some_iff, String.ext_iff, String.toList_append]
  simp only [Text.dropEndWord?_eq_some_iff]
  constructor
  · rintro ⟨before, h, rfl⟩
    exact h.trans (congrArg (· ++ ".*".toList) String.toList_ofList.symm)
  · intro h
    exact ⟨before.toList, h, String.ofList_toList⟩

theorem wildcard?_eq_none_iff : wildcard? written = none ↔ ∀ before, written ≠ before ++ ".*" := by
  simp only [Option.eq_none_iff_forall_ne_some, ne_eq, wildcard?_eq_some_iff]

theorem isPrefixOf_iff {full : String} :
    (before.toList ++ ['.']).isPrefixOf full.toList = true ↔
      ∃ rest, full = before ++ "." ++ rest := by
  rw [List.isPrefixOf_iff_prefix]
  constructor
  · rintro ⟨rest, h⟩
    refine ⟨String.ofList rest, append_point_iff.mpr ?_⟩
    rw [← h, String.toList_ofList, List.append_assoc, List.singleton_append]
  · rintro ⟨rest, h⟩
    exact ⟨rest.toList, by rw [append_point_iff.mp h, List.append_assoc, List.singleton_append]⟩

theorem mem_wildcardTargets :
    t ∈ wildcardTargets chunks before path ↔ t ∈ chunks ∧ IsBelow chunks before path t := by
  simp only [wildcardTargets, List.mem_append, List.mem_filter, List.mem_flatMap, Prod.exists,
    mem_moduleFiles, List.mem_cons, mem_topLevel, Bool.and_eq_true, bne_iff_ne]
  constructor
  · rintro (⟨ht, ⟨hk, hpath⟩, hq⟩ | ⟨file, m, ⟨hfile, hm⟩, rfl | ⟨ht, htop⟩⟩)
    · cases hfull : t.qualifiedName with
      | none =>
        rw [hfull] at hq
        cases hq
      | some full =>
        rw [hfull, Option.any_some] at hq
        obtain ⟨rest, rfl⟩ := isPrefixOf_iff.mp hq
        exact ⟨ht, .symbol hk hpath ⟨rest, hfull⟩⟩
    · exact ⟨hfile, .file hm⟩
    · exact ⟨ht, .atTop hfile hm htop⟩
  · rintro ⟨ht, ⟨hk, hpath, rest, hq⟩ | ⟨hm⟩ | ⟨hfile, hm, htop⟩⟩
    · refine Or.inl ⟨ht, ⟨hk, hpath⟩, ?_⟩
      rw [hq, Option.any_some]
      exact isPrefixOf_iff.mpr ⟨rest, rfl⟩
    · exact Or.inr ⟨t, _, ⟨ht, hm⟩, Or.inl rfl⟩
    · exact Or.inr ⟨_, _, ⟨hfile, hm⟩, Or.inr ⟨ht, htop⟩⟩

theorem moduleFiles_eq_nil_iff :
    moduleFiles chunks written path = [] ↔
      ∀ file ∈ chunks, ∀ m, ¬ IsModuleFile written path file m := by
  simp only [List.eq_nil_iff_forall_not_mem, Prod.forall, mem_moduleFiles, not_and]
  exact ⟨fun h file hfile m => h file m hfile, fun h file m hfile => h file hfile m⟩

theorem mem_importsOf {d : Dependency} : d ∈ importsOf chunks c written ↔
    ∃ t ∈ chunks, ∃ how, Reaches chunks written c.path t how ∧ d = how.edge c t written := by
  unfold importsOf
  cases hw : wildcard? written with
  | some before =>
    have hwritten := wildcard?_eq_some_iff.mp hw
    simp only [List.mem_map, mem_wildcardTargets]
    constructor
    · rintro ⟨t, ⟨ht, hbelow⟩, rfl⟩
      exact ⟨t, ht, _, .wildcard hwritten hbelow, rfl⟩
    · rintro ⟨t, ht, _, ⟨hw', hbelow⟩ | ⟨hno⟩ | ⟨hno⟩, rfl⟩
      · rw [← wildcard?_eq_some_iff, hw] at hw'
        obtain rfl := Option.some.inj hw'
        exact ⟨t, ⟨ht, hbelow⟩, rfl⟩
      · exact absurd hwritten (hno before)
      · exact absurd hwritten (hno before)
  | none =>
    have hno := wildcard?_eq_none_iff.mp hw
    dsimp only
    split
    · rename_i hnil
      have hfile := moduleFiles_eq_nil_iff.mp hnil
      simp only [List.mem_map, Option.mem_toList, Prod.exists, importedSymbol?_eq_some_iff]
      constructor
      · rintro ⟨t, m, ht, rfl⟩
        exact ⟨t, ht.mem, _, .symbol hno hfile ht, rfl⟩
      · rintro ⟨t, ht, _, ⟨hw', -⟩ | ⟨-, hm⟩ | ⟨-, -, hmeans⟩, rfl⟩
        · exact absurd hw' (hno _)
        · exact absurd hm (hfile t ht _)
        · exact ⟨t, _, hmeans, rfl⟩
    · rename_i files hne
      simp only [List.mem_map, Prod.exists, mem_moduleFiles]
      constructor
      · rintro ⟨t, m, ⟨ht, hm⟩, rfl⟩
        exact ⟨t, ht, _, .module hno hm, rfl⟩
      · rintro ⟨t, ht, _, ⟨hw', -⟩ | ⟨-, hm⟩ | ⟨-, hfile, -⟩, rfl⟩
        · exact absurd hw' (hno _)
        · exact ⟨t, _, ⟨ht, hm⟩, rfl⟩
        · exact absurd (moduleFiles_eq_nil_iff.mpr hfile) hne

/-- An import reaches a chunk in one way only. -/
theorem Reaches.unique (h : Reaches chunks written path t how)
    (h' : Reaches chunks written path t other) (ht : t ∈ chunks) : how = other := by
  cases h with
  | wildcard hw =>
    cases h' with
    | wildcard => rfl
    | module hno => exact absurd hw (hno _)
    | symbol hno => exact absurd hw (hno _)
  | module hno hm =>
    cases h' with
    | wildcard hw => exact absurd hw (hno _)
    | module _ hm' => rw [hm.unique hm']
    | symbol _ hfile => exact absurd hm (hfile t ht _)
  | symbol hno hfile hmeans =>
    cases h' with
    | wildcard hw => exact absurd hw (hno _)
    | module _ hm => exact absurd hm (hfile t ht _)
    | symbol _ _ hmeans' => rw [(means_unique hmeans hmeans').2]

theorem symbol_unique {u : Chunk} {m n : Match} (ht : Reaches chunks written path t (.symbol m))
    (hu : Reaches chunks written path u (.symbol n)) : t = u ∧ m = n := by
  cases ht with
  | symbol _ _ ht =>
    cases hu with
    | symbol _ _ hu => exact means_unique ht hu

/-- What an import reaches has another path, where symbols have the path of their parents. -/
theorem Reaches.path_ne (hpaths : ∀ c ∈ chunks, ∀ p ∈ chunks, c.parent = some p.id →
      c.path = p.path)
    (ht : t ∈ chunks) (h : Reaches chunks written path t how) : t.path ≠ path := by
  have htop : ∀ file ∈ chunks, ∀ before m, IsModuleFile before path file m → IsTopLevel file t →
      t.path ≠ path := by
    intro file hfile before m hm htop
    rw [hpaths t ht file hfile htop.2]
    exact hm.2.1
  cases h with
  | wildcard _ hbelow =>
    cases hbelow with
    | symbol _ hpath => exact hpath
    | file hm => exact hm.2.1
    | atTop hfile hm ht => exact htop _ hfile _ _ hm ht
  | module _ hm => exact hm.2.1
  | symbol _ _ hmeans =>
    cases hmeans with
    | fullName hc => exact hc.holds.2.2
    | member _ _ hfile hm hc => exact htop _ hfile.mem _ _ hm hc.holds.1
    | lastPart _ _ _ hc => exact hc.holds.2.2.2

end Reaches

section Imports

variable {chunks : List Chunk} {c t : Chunk} {written : String} {how : Manner} {e : Dependency}

@[simp]
theorem Manner.edge_key (how : Manner) (c t : Chunk) (written : String) :
    (how.edge c t written).key = (c.id, t.id, .imports) := by
  cases how <;> rfl

theorem first_imports_iff {p : Dependency → Prop} : First (imports chunks c) p e ↔
    c.kind = .file ∧ First (c.declaration.imports.flatMap (importsOf chunks c)) p e := by
  unfold imports
  by_cases hk : c.kind = .file
  · rw [if_pos (beq_iff_eq.mpr hk)]
    exact (and_iff_right hk).symm
  · rw [if_neg (by simpa using hk)]
    exact iff_of_false First.not_nil fun h => hk h.1

theorem exists_importsOf_iff (hn : (chunks.map Chunk.id).Nodup) (ht : t ∈ chunks) :
    (∃ d ∈ importsOf chunks c written, d.key = (c.id, t.id, .imports)) ↔
      ∃ how, Reaches chunks written c.path t how := by
  constructor
  · rintro ⟨d, hd, hk⟩
    obtain ⟨t', ht', how, hreach, rfl⟩ := mem_importsOf.mp hd
    rw [Manner.edge_key] at hk
    obtain rfl := Chunk.eq_of_id_eq hn ht' ht (congrArg (fun k => k.2.1) hk)
    exact ⟨how, hreach⟩
  · rintro ⟨how, hreach⟩
    exact ⟨_, mem_importsOf.mpr ⟨t, ht, how, hreach, rfl⟩, how.edge_key c t written⟩

/-- The dependencies that one import gives are told apart by what they lead to, so that each comes
first. -/
theorem first_importsOf (hn : (chunks.map Chunk.id).Nodup) (ht : t ∈ chunks)
    (h : Reaches chunks written c.path t how) :
    First (importsOf chunks c written) (fun d => d.key = (c.id, t.id, .imports))
      (how.edge c t written) := by
  obtain ⟨d, hd⟩ : ∃ d, First (importsOf chunks c written) (fun d => d.key =
      (c.id, t.id, .imports)) d :=
    First.exists_iff.mpr ((exists_importsOf_iff hn ht).mpr ⟨how, h⟩)
  obtain ⟨t', ht', how', h', rfl⟩ := mem_importsOf.mp hd.mem
  have hk := hd.holds
  rw [Manner.edge_key] at hk
  obtain rfl := Chunk.eq_of_id_eq hn ht' ht (congrArg (fun k => k.2.1) hk)
  rwa [h'.unique h ht] at hd

/-- The imports of a graph lead from a file to chunks of other files. Each is that of the
first import in the file that reaches the chunk; an import that names no module and has no
wildcard reaches no more than one. -/
theorem edgesOf_imports (hn : (chunks.map Chunk.id).Nodup)
    (hpaths : ∀ c ∈ chunks, ∀ p ∈ chunks, c.parent = some p.id → c.path = p.path) :
    (∀ e, e ∈ (Graph.ofChunks chunks).edgesOf .imports ↔
      ∃ c ∈ chunks, c.kind = .file ∧ ∃ t ∈ chunks, t.path ≠ c.path ∧ ∃ written how,
        First c.declaration.imports (fun w => ∃ how, Reaches chunks w c.path t how) written ∧
          Reaches chunks written c.path t how ∧ e = how.edge c t written) ∧
    ∀ written path t u m n, Reaches chunks written path t (.symbol m) →
      Reaches chunks written path u (.symbol n) → t = u ∧ m = n := by
  refine ⟨fun e => ?_, fun _ _ _ _ _ _ => symbol_unique⟩
  rw [mem_edgesOf_iff hn rfl]
  constructor
  · rintro ⟨-, -, -, c, hc, -, hfirst⟩
    obtain ⟨hk, hfirst⟩ := first_imports_iff.mp hfirst
    obtain ⟨written, hwritten, he⟩ := First.flatMap_iff.mp hfirst
    obtain ⟨t, ht, how, hreach, rfl⟩ := mem_importsOf.mp he.mem
    rw [Manner.edge_key, First.congr fun w _ => exists_importsOf_iff hn ht] at hwritten
    exact ⟨c, hc, hk, t, ht, hreach.path_ne hpaths ht, written, how, hwritten, hreach, rfl⟩
  · rintro ⟨c, hc, hk, t, ht, hpath, written, how, hwritten, hreach, rfl⟩
    obtain ⟨hs, hkey⟩ := Prod.mk.inj (how.edge_key c t written)
    obtain ⟨htarget, hr⟩ := Prod.mk.inj hkey
    rw [hs, htarget]
    refine ⟨hr, ?_, List.mem_map_of_mem ht, c, hc, rfl,
      first_imports_iff.mpr ⟨hk, First.flatMap_iff.mpr ?_⟩⟩
    · intro hid
      exact hpath (congrArg Chunk.path (Chunk.eq_of_id_eq hn ht hc hid.symm))
    · rw [Manner.edge_key]
      exact ⟨written, (First.congr fun w _ => exists_importsOf_iff hn ht).mpr hwritten,
        first_importsOf hn ht hreach⟩

end Imports

def stockImports : List Chunk :=
  let shop : Chunk :=
    { id := "a", kind := .file, path := "shop.py", language := "python", startLine := 1
      endLine := 2, content := "from stock import Item\nfrom stock import *\n"
      declaration := { imports := ["stock.Item", "stock.*"] }
      metadata := [("module", .text "shop")] }
  let stock : Chunk :=
    { id := "b", kind := .file, path := "stock.py", language := "python", startLine := 1
      endLine := 1, content := "class Item: pass\n", metadata := [("module", .text "stock")]
      children := ["c"] }
  let item : Chunk :=
    { id := "c", kind := .container, name := some "Item", qualifiedName := some "Item"
      path := "stock.py", language := "python", startLine := 1, endLine := 1
      content := "class Item: pass", parent := some "b" }
  [shop, stock, item]

/-- The class is reached by both imports, and the dependency is that of the first. -/
theorem edgesOf_imports_stockImports : ∃ c ∈ stockImports, ∃ t ∈ stockImports, t.id = "c" ∧
    (Manner.symbol .exact).edge c t "stock.Item" ∈ (Graph.ofChunks stockImports).edgesOf .imports ∧
      ∃ how, Reaches stockImports "stock.*" c.path t how := by
  have hn : (stockImports.map Chunk.id).Nodup := by decide
  have hpaths : ∀ c ∈ stockImports, ∀ p ∈ stockImports, c.parent = some p.id → c.path = p.path := by
    decide
  have hshop : stockImports[0] ∈ stockImports := List.getElem_mem (by decide)
  have hstock : stockImports[1] ∈ stockImports := List.getElem_mem (by decide)
  have hitem : stockImports[2] ∈ stockImports := List.getElem_mem (by decide)
  have hreach : Reaches stockImports "stock.Item" stockImports[0].path stockImports[2]
      (.symbol .exact) :=
    .symbol (wildcard?_eq_none_iff.mp (by decide)) (moduleFiles_eq_nil_iff.mp rfl)
      (importedSymbol?_eq_some_iff.mp rfl)
  refine ⟨_, hshop, _, hitem, rfl, ((edgesOf_imports hn hpaths).1 _).mpr ?_, ?_⟩
  · exact ⟨_, hshop, rfl, _, hitem, by decide, _, _, First.cons_iff.mpr (Or.inl ⟨⟨_, hreach⟩, rfl⟩),
      hreach, rfl⟩
  · exact ⟨_, .wildcard rfl (.atTop hstock ⟨rfl, by decide, "stock", rfl, .exact rfl⟩ ⟨rfl, rfl⟩)⟩

end CodeAtlas.Inference
