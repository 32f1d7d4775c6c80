import Mathlib.Data.List.Forall2
import CodeAtlas.Proofs.Source.Hollow
import CodeAtlas.Proofs.Source.Placement

/-!
Member bodies and the containers around them. What a member holds decides nothing about which
containers there are. It decides what a container says about other types where a pattern captures
something inside the member and no container is nearer; apart from that a container says the same
whatever its members hold.
-/

namespace CodeAtlas

namespace Chunk

/-- What a container says about other types: its base, its interfaces and the types of its
fields. -/
def bonds (c : Chunk) : Source.Heritage × List String :=
  (⟨c.declaration.base, c.declaration.interfaces⟩, c.metadata.texts "field_types")

def containers (cs : List Chunk) : List Chunk := cs.filter fun c => c.kind == .container

theorem containers_append (cs ds : List Chunk) :
    containers (cs ++ ds) = containers cs ++ containers ds :=
  List.filter_append cs ds

theorem containers_cons_of_ne {c : Chunk} {cs : List Chunk} (h : c.kind ≠ .container) :
    containers (c :: cs) = containers cs :=
  List.filter_cons_of_neg (by simpa using h)

/-- The id of a chunk with what it says about other types. -/
def bound (c : Chunk) : String × Source.Heritage × List String := (c.id, c.bonds)

theorem containers_link (cs : List Chunk) :
    (containers (Reference.link cs)).map bound = (containers cs).map bound := by
  have hpairs : ∀ cs : List Chunk, (containers cs).map bound =
      ((cs.map fun c => (c.kind == .container, c.bound)).filter Prod.fst).map Prod.snd := by
    intro cs
    rw [List.filter_map, List.map_map]
    rfl
  rw [hpairs, hpairs, link_map fun _ _ _ => rfl]

end Chunk

namespace Source

namespace File
variable {f : File} {l : Language} {p q : Parts}

/-- What the container at a position says about other types. -/
def bondsAt (f : File) (l : Language) (p : Parts) (i : Nat) : Heritage × List String :=
  (Heritage.ofContainer l f.bytes f.root p.primaries i, fieldTypesOf l f.bytes f.root p.primaries i)

/-- The id of the container of a node at a position, with what it says about other types. -/
def boundAt (f : File) (l : Language) (p : Parts) (x : Nat × NodeInfo) :
    String × Heritage × List String :=
  (Chunk.idOf f.path .container x.2.first x.2.last, f.bondsAt l p x.1)

theorem bonds_containerChunk (f : File) (l : Language) (p : Parts) (parent : String)
    (parentName : Option String) (i : Nat) (t : Tree) :
    (f.containerChunk l p parent parentName i t).bonds = f.bondsAt l p i := by
  have htexts : (f.containerChunk l p parent parentName i t).metadata.texts "field_types" =
      fieldTypesOf l f.bytes f.root p.primaries i := by
    unfold containerChunk
    dsimp only
    split
    · rename_i hnone
      rw [List.isEmpty_iff.mp hnone, List.append_nil, Metadata.texts,
        Metadata.lookup_ofFields_eq_none (by simp)]
      rfl
    · exact Metadata.texts_of_lookup (Metadata.lookup_ofFields_concat _ _ _)
  rw [Chunk.bonds, htexts]
  rfl

theorem containers_segment (parent role : String) (first last : Nat) :
    Chunk.containers (f.segment l parent role first last) = [] := by
  apply List.filter_eq_nil_iff.mpr
  intro c hc
  rw [(segment_spansIn c hc).2]
  decide

mutual

theorem containers_blockChunks :
    (b : Block) → (inside : Bool) → (parent : String) → (parentName : Option String) →
    (Chunk.containers (f.blockChunks l p inside parent parentName b)).map Chunk.bound =
      b.positions.map (f.boundAt l p)
  | .member t, inside, parent, parentName => by
    rw [blockChunks_member]
    cases inside <;> rfl
  | .container i t [], inside, parent, parentName => by
    rw [blockChunks_empty]
    exact congrArg (fun bonds => [(_, bonds)]) (bonds_containerChunk f l p parent parentName i t)
  | .container i t (b :: bs), inside, parent, parentName => by
    have hbonds := bonds_containerChunk f l p parent parentName i t
    rw [blockChunks_container, Block.positions, Chunk.containers, List.filter_cons_of_pos rfl,
      List.map_cons, List.map_cons, ← Chunk.containers, Chunk.containers_append,
      Chunk.containers_append, containers_segment, containers_segment, List.nil_append,
        List.append_nil, containers_blocksChunks (b :: bs)]
    exact congrArg (fun bonds => (_, bonds) :: _) hbonds

theorem containers_blocksChunks : (bs : List Block) → (inside : Bool) → (parent : String) →
    (parentName : Option String) →
    (Chunk.containers (f.blocksChunks l p inside parent parentName bs)).map Chunk.bound =
      (Block.positionsAll bs).map (f.boundAt l p)
  | [], _, _, _ => rfl
  | b :: bs, inside, parent, parentName => by
    rw [blocksChunks, Chunk.containers_append, List.map_append, Block.positionsAll, List.map_append,
      containers_blockChunks b, containers_blocksChunks bs]

end

def TopItem.positions : TopItem → List (Nat × NodeInfo)
  | .context _ => []
  | .block b => b.positions

theorem containers_topChunks (fileId : String) (package : Option String) (item : TopItem) :
    (Chunk.containers (f.topChunks l p fileId package item)).map Chunk.bound =
      item.positions.map (f.boundAt l p) := by
  cases item with
  | context c =>
    have hkind : (f.contextChunk l fileId c).kind ≠ .container := by
      rw [contextChunk_kind]
      split <;> exact nofun
    rw [topChunks, Chunk.containers_cons_of_ne hkind]
    rfl
  | block b => exact containers_blockChunks b false fileId package

def positions (f : File) (l : Language) : List (Nat × NodeInfo) :=
  (f.topItems l (Parts.ofRoot l f.root)).flatMap TopItem.positions

theorem containers_chunks (f : File) (l : Language) :
    (Chunk.containers (f.chunks l)).map Chunk.bound =
      (f.positions l).map (f.boundAt l (Parts.ofRoot l f.root)) := by
  have hfile : ∀ contexts children, (f.fileChunk l contexts children).kind ≠ .container :=
    fun _ _ => nofun
  rw [chunks, Chunk.containers_link, tree, Chunk.containers_cons_of_ne (hfile _ _),
    ← List.flatMap_def, Chunk.containers, List.filter_flatMap, List.map_flatMap, positions,
    List.map_flatMap]
  apply List.flatMap_congr
  intro item _
  exact containers_topChunks _ _ item

/-- Where the parts are at the same places, so are the containers. -/
theorem positions_eq {root : Tree} (h : Parts.Alike (Parts.ofRoot l f.root) (Parts.ofRoot l root)) :
    f.positions l = ({ f with root } : File).positions l := by
  have hkeys : ∀ (g : File) (p : Parts), (g.topItems l p).map
      (fun item => (item.first, item.positions)) =
      ((p.contexts.map Tree.info).map (fun n => (n.first, ([] : List (Nat × NodeInfo)))) ++
        (p.itemsOf none).map fun item =>
          ((p.node item).first, (Block.ofItem p item).positions)).mergeSort
          fun a b => a.1 ≤ b.1 := by
    intro g p
    have hsort :=
      fun items : List TopItem => List.map_mergeSort (f := fun item => (item.first, item.positions))
      (s := fun a b : Nat × List (Nat × NodeInfo) => decide (a.1 ≤ b.1)) (l := items) fun _ _ _ _ =>
        rfl
    rw [topItems, hsort, List.map_append, List.map_map, List.map_map, List.map_map, Block.roots,
      List.map_map]
    apply congrArg (List.mergeSort · _)
    apply congrArg (_ ++ ·)
    apply List.map_congr_left
    intro item _
    exact congrArg (fun t : Tree => (t.first, _)) (Block.node_ofItem p item)
  have hfirsts : ∀ g : File, g.positions l =
      ((g.topItems l (Parts.ofRoot l g.root)).map fun item => (item.first, item.positions)).flatMap
          Prod.snd := by
    intro g
    rw [List.flatMap_map]
    rfl
  have hitems : ((Parts.ofRoot l f.root).itemsOf none).map (fun item =>
        (((Parts.ofRoot l f.root).node item).first,
          (Block.ofItem (Parts.ofRoot l f.root) item).positions)) =
      ((Parts.ofRoot l root).itemsOf none).map fun item =>
        (((Parts.ofRoot l root).node item).first,
            (Block.ofItem (Parts.ofRoot l root) item).positions) := by
    rw [h.itemsOf_eq]
    apply List.map_congr_left
    intro item _
    rw [h.node_first, Block.positions_ofItem h]
  rw [hfirsts, hfirsts, hkeys, hkeys, h.contexts, hitems]

theorem info_of_mem {x : Nat × NodeInfo} (hx : x ∈ f.positions l) :
    x.2 = ((Parts.ofRoot l f.root).primary x.1).info := by
  obtain ⟨item, hi, hx⟩ := List.mem_flatMap.mp hx
  rw [topItems, List.mem_mergeSort, List.mem_append, List.mem_map, List.mem_map] at hi
  rcases hi with ⟨t, -, rfl⟩ | ⟨b, hb, rfl⟩
  · exact absurd hx List.not_mem_nil
  · obtain ⟨inner, -, rfl⟩ := List.mem_map.mp hb
    exact Block.info_of_mem_positions _ inner x hx

end File

section Captures
variable {l : Language} {ps qs : List Tree} {root root' : Tree} {i : Nat}

/-- What a container has as its heritage depends on what the captures say. -/
theorem Heritage.ofContainer_congr (bytes : List UInt8)
    (h : (capturesOf ps root l.heritage i).map Capture.head =
      (capturesOf qs root' l.heritage i).map Capture.head) :
    Heritage.ofContainer l bytes root ps i = Heritage.ofContainer l bytes root' qs i := by
  have hheads : ∀ cs : List Capture, cs.filterMap (bequest? bytes) =
      (cs.map Capture.head).filterMap fun c => bequest? bytes ⟨c.1, .node c.2 []⟩ := by
    intro cs
    rw [List.filterMap_map]
    rfl
  unfold Heritage.ofContainer
  rw [hheads, hheads, h]

theorem fieldTypesOf_congr (bytes : List UInt8)
    (h : (capturesOf ps root l.fieldTypes i).map Capture.head =
      (capturesOf qs root' l.fieldTypes i).map Capture.head) :
    fieldTypesOf l bytes root ps i = fieldTypesOf l bytes root' qs i := by
  have hheads : ∀ cs : List Capture,
      ((cs.filter fun c => c.role == .fieldType).mergeSort fun a b =>
          a.node.first ≤ b.node.first).map (fun c => c.node.text bytes) =
        (((cs.map Capture.head).filter fun c => c.1 == .fieldType).mergeSort fun a b =>
          a.2.first ≤ b.2.first).map fun c => textOf bytes c.2.first c.2.last := by
    intro cs
    rw [List.filter_map, ← List.map_mergeSort (r := fun a b => decide (a.node.first ≤ b.node.first))
      fun _ _ _ _ => rfl, List.map_map]
    rfl
  unfold fieldTypesOf
  dsimp only
  rw [hheads, hheads, h]

/-- The patterns for types have one branch. -/
theorem exists_branch (hl : l ∈ Language.all) {p : Pattern} (hp : p ∈ l.heritage ++ l.fieldTypes) :
    ∃ b, p.branches = [b] := by
  have hall : ∀ l ∈ Language.all, ∀ p ∈ l.heritage ++ l.fieldTypes, p.branches.length = 1 := by
    decide
  exact List.length_eq_one_iff.mp (hall l hl p hp)

/-- A container to which nothing captured inside a member belongs has the captures of the hollow
tree. -/
theorem capturesOf_hollowRoot {patterns : List Pattern} (hb : ∀ p ∈ patterns, ∃ b, p.branches = [b])
    (h : ∀ p ∈ patterns, ∀ c ∈ (p.matchesIn root).flatten,
      Below (Parts.ofRoot l root).secondaries c.node →
        owner? (Parts.ofRoot l root).primaries none c.node.first c.node.last ≠ some i) :
    (capturesOf (Parts.ofRoot l root).primaries root patterns i).map Capture.head =
      (capturesOf (Parts.ofRoot l (l.hollowRoot root)).primaries (l.hollowRoot root) patterns
        i).map Capture.head := by
  have hsifted : Sifted (Below (Parts.ofRoot l root).secondaries ∘ Capture.node) Capture.head
      (patterns.flatMap fun p => (p.matchesIn root).flatten)
      (patterns.flatMap fun p => (p.matchesIn (l.hollowRoot root)).flatten) := by
    apply Sifted.flatMap
    intro p hp
    obtain ⟨b, hb⟩ := hb p hp
    exact sifted_hollowRoot hb root
  apply hsifted.map_filter
  · intro c d hcd
    obtain ⟨-, hinfo⟩ := Prod.mk.inj hcd
    rw [Parts.owner?_congr (Parts.ofRoot_hollowRoot l root).primaries, Tree.first, Tree.first,
      Tree.last, Tree.last, hinfo]
  · intro c hc hbelow
    obtain ⟨p, hp, hc⟩ := List.mem_flatMap.mp hc
    exact beq_false_of_ne (h p hp c hc hbelow)

end Captures

namespace File
variable {f : File} {l : Language}

/-- Whether something that is captured inside a member belongs to a container with an id. -/
def Strays (f : File) (l : Language) (id : String) : Prop :=
  ∃ p ∈ l.heritage ++ l.fieldTypes, ∃ c ∈ (p.matchesIn f.root).flatten,
    Below (Parts.ofRoot l f.root).secondaries c.node ∧
    ∃ i, owner? (Parts.ofRoot l f.root).primaries none c.node.first c.node.last = some i ∧
      id = Chunk.idOf f.path .container ((Parts.ofRoot l f.root).primary i).first
        ((Parts.ofRoot l f.root).primary i).last

theorem boundAt_hollowRoot (hl : l ∈ Language.all) {x : Nat × NodeInfo} (hx : x ∈ f.positions l)
    (h : ¬ f.Strays l (f.boundAt l (Parts.ofRoot l f.root) x).1) :
    f.bondsAt l (Parts.ofRoot l f.root) x.1 =
      ({ f with root := l.hollowRoot f.root } : File).bondsAt l
          (Parts.ofRoot l (l.hollowRoot f.root)) x.1 := by
  have hnone : ∀ p ∈ l.heritage ++ l.fieldTypes, ∀ c ∈ (p.matchesIn f.root).flatten,
      Below (Parts.ofRoot l f.root).secondaries c.node →
      owner? (Parts.ofRoot l f.root).primaries none c.node.first c.node.last ≠ some x.1 := by
    intro p hp c hc hbelow howner
    refine h ⟨p, hp, c, hc, hbelow, x.1, howner, ?_⟩
    rw [boundAt, info_of_mem hx]
    rfl
  have hheritage := capturesOf_hollowRoot (fun p hp => exists_branch hl (List.mem_append_left _ hp))
    fun p hp => hnone p (List.mem_append_left _ hp)
  have hfields := capturesOf_hollowRoot (fun p hp => exists_branch hl (List.mem_append_right _ hp))
    fun p hp => hnone p (List.mem_append_right _ hp)
  exact congrArg₂ Prod.mk (Heritage.ofContainer_congr f.bytes hheritage)
    (fieldTypesOf_congr f.bytes hfields)

/-- Two trees of a file that differ inside members only have the same containers, and each of them
says the same about other types, unless something that is captured inside a member belongs to it. -/
theorem containers_of_hollowRoot_eq (hl : l ∈ Language.all) {root : Tree}
    (h : l.hollowRoot f.root = l.hollowRoot root) :
    List.Forall₂ (fun c c' => c.id = c'.id ∧
        (¬ f.Strays l c.id → ¬ ({ f with root } : File).Strays l c'.id → c.bonds = c'.bonds))
      (Chunk.containers (f.chunks l)) (Chunk.containers (({ f with root } : File).chunks l)) := by
  have halike : Parts.Alike (Parts.ofRoot l f.root) (Parts.ofRoot l root) :=
    (Parts.ofRoot_hollowRoot l f.root).symm.trans (h ▸ Parts.ofRoot_hollowRoot l root)
  have hpositions := positions_eq halike
  have hbound : List.Forall₂ (fun x y : String × Heritage × List String => x.1 = y.1 ∧
        (¬ f.Strays l x.1 → ¬ ({ f with root } : File).Strays l y.1 → x.2 = y.2))
      ((Chunk.containers (f.chunks l)).map Chunk.bound)
      ((Chunk.containers (({ f with root } : File).chunks l)).map Chunk.bound) := by
    rw [containers_chunks, containers_chunks, ← hpositions, List.forall₂_map_left_iff,
      List.forall₂_map_right_iff, List.forall₂_same]
    intro x hx
    refine ⟨rfl, fun hself hother => ?_⟩
    have hfirst := boundAt_hollowRoot hl hx hself
    have hsecond := boundAt_hollowRoot hl (hpositions ▸ hx) hother
    refine hfirst.trans (Eq.trans ?_ hsecond.symm)
    dsimp only
    rw [h]
  rwa [List.forall₂_map_left_iff, List.forall₂_map_right_iff] at hbound

section ClassAround

/-- A Python file with a class around a method with some nodes below it. In its text the method
holds a class. -/
def classAround (body : List Tree) : File where
  path := "a.py"
  bytes := "class A(D):\n    def f(self):\n        class B(C): pass\n".toList.map fun c =>
    c.toNat.toUInt8
  root := .node { kind := "module", first := 0, last := 54 }
    [.node { kind := "class_definition", first := 0, last := 53 }
      [.node { kind := "identifier", first := 6, last := 7, field := some "name" } [],
      .node { kind := "argument_list", first := 7, last := 10, field := some "superclasses" }
        [.node { kind := "identifier", first := 8, last := 9 } []],
      .node { kind := "block", first := 16, last := 53, field := some "body" }
        [.node { kind := "function_definition", first := 16, last := 53 } body]]]

/-- The nodes below the method where its class could not be read. -/
def unreadBody : List Tree :=
  [.node { kind := "identifier", first := 20, last := 21, field := some "name" } [],
  .node { kind := "ERROR", first := 37, last := 53 } []]

def classBody : List Tree :=
  [.node { kind := "identifier", first := 20, last := 21, field := some "name" } [],
  .node { kind := "parameters", first := 21, last := 27, field := some "parameters" }
    [.node { kind := "identifier", first := 22, last := 26 } []],
  .node { kind := "block", first := 37, last := 53, field := some "body" }
    [.node { kind := "class_definition", first := 37, last := 53 }
      [.node { kind := "identifier", first := 43, last := 44, field := some "name" } [],
      .node { kind := "argument_list", first := 44, last := 47, field := some "superclasses" }
        [.node { kind := "identifier", first := 45, last := 46 } []],
      .node { kind := "block", first := 49, last := 53, field := some "body" }
        [.node { kind := "pass_statement", first := 49, last := 53 } []]]]]

theorem containers_of_hollowRoot_eq_classAround :
    (Chunk.containers ((classAround unreadBody).chunks .python)).map Chunk.bonds =
      (Chunk.containers ((classAround []).chunks .python)).map Chunk.bonds := by
  have hstrays : ∀ body ∈ [unreadBody, []], ∀ id, ¬ (classAround body).Strays .python id := by
    rintro body hbody id ⟨p, hp, c, hc, ⟨m, hm, hbelow⟩, -⟩
    have hcaptured : ∀ body ∈ [unreadBody, []],
        ∀ p ∈ Language.python.heritage ++ Language.python.fieldTypes,
        ∀ c ∈ (p.matchesIn (classAround body).root).flatten, c.node.last ≤ 10 := by decide
    have hinside : ∀ body ∈ [unreadBody, []],
        ∀ m ∈ (Parts.ofRoot .python (classAround body).root).secondaries, ∀ t ∈ m.descendants,
          10 < t.last := by
      decide +kernel
    exact Nat.lt_irrefl _ (Nat.lt_of_lt_of_le (hinside body hbody m hm c.node hbelow)
      (hcaptured body hbody p hp c hc))
  have hollow : Language.hollowRoot .python (classAround unreadBody).root =
      Language.hollowRoot .python (classAround []).root := rfl
  have h := containers_of_hollowRoot_eq (by simp [Language.all]) hollow
  rw [← List.forall₂_eq_eq_eq, List.forall₂_map_left_iff, List.forall₂_map_right_iff]
  exact h.imp fun c c' hcc => hcc.2 (hstrays unreadBody (by simp) _) (hstrays [] (by simp) _)

def outerHeritage (body : List Tree) : Heritage :=
  Heritage.ofContainer .python (classAround body).bytes (classAround body).root
    (Parts.ofRoot .python (classAround body).root).primaries 0

/-- The class is the only container with a class in the method and without one. Only with one has it
a second base. -/
theorem classAround_read :
    (∀ body ∈ [classBody, []], (classAround body).positions .python =
      [(0, { kind := "class_definition", first := 0, last := 53 })]) ∧
    (capturesOf (Parts.ofRoot .python (classAround classBody).root).primaries
      (classAround classBody).root
      Language.python.heritage 0).filterMap (Heritage.bequest? (classAround classBody).bytes) =
      [⟨8, true, "D"⟩, ⟨45, true, "C"⟩] ∧
    (outerHeritage []).interfaces = [] := by
  decide +kernel

theorem outerHeritage_classBody : outerHeritage classBody = ⟨some "D", ["C"]⟩ := by
  rw [outerHeritage, Heritage.ofContainer, classAround_read.2.1, List.mergeSort_of_pairwise
    (by decide)]
  decide

theorem exists_outer (body : List Tree) (h : (classAround body).positions .python =
    [(0, { kind := "class_definition", first := 0, last := 53 })]) :
    ∃ c ∈ Chunk.containers ((classAround body).chunks .python), c.id =
      Chunk.idOf "a.py" .container 0 53 ∧
      c.declaration.interfaces = (outerHeritage body).interfaces := by
  have hbound := containers_chunks (classAround body) .python
  rw [h, List.map_singleton] at hbound
  obtain ⟨c, hc, hb⟩ := List.mem_map.mp (hbound ▸ List.mem_singleton_self _)
  exact ⟨c, hc, congrArg Prod.fst hb, congrArg (fun b => b.2.1.interfaces) hb⟩

/-- The base of a class inside a method is counted among the interfaces of the class around the
method. -/
theorem not_same_bonds_classAround :
    Language.hollowRoot .python (classAround classBody).root =
      Language.hollowRoot .python (classAround []).root ∧
      ∃ c ∈ Chunk.containers ((classAround classBody).chunks .python),
        ∃ c' ∈ Chunk.containers ((classAround []).chunks .python),
          c.id = c'.id ∧ c.declaration.interfaces ≠ c'.declaration.interfaces := by
  obtain ⟨hread, -, hnone⟩ := classAround_read
  obtain ⟨c, hc, hid, hinterfaces⟩ := exists_outer classBody (hread _ List.mem_cons_self)
  obtain ⟨c', hc', hid', hinterfaces'⟩ :=
    exists_outer [] (hread _ (List.mem_cons_of_mem _ List.mem_cons_self))
  refine ⟨rfl, c, hc, c', hc', hid.trans hid'.symm, ?_⟩
  rw [hinterfaces, hinterfaces', outerHeritage_classBody, hnone]
  exact List.cons_ne_nil _ _

end ClassAround

end File

end Source

end CodeAtlas
