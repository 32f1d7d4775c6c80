import CodeAtlas.Proofs.Source.Layout

/-!
Parts at the same places. Which declarations belong to a container depends on the spans of the parts
only, so that files with parts at the same places have the same containers in the same order.
-/

namespace CodeAtlas.Source

/-- Whether the parts of two files are at the same places: their nodes differ in nothing but their
children. -/
structure Parts.Alike (p q : Parts) : Prop where
  contexts : p.contexts.map Tree.info = q.contexts.map Tree.info
  primaries : p.primaries.map Tree.info = q.primaries.map Tree.info
  secondaries : p.secondaries.map Tree.info = q.secondaries.map Tree.info

namespace Parts
variable {p q : Parts}

theorem Alike.symm (h : Alike p q) : Alike q p :=
  ⟨h.contexts.symm, h.primaries.symm, h.secondaries.symm⟩

theorem Alike.trans {r : Parts} (h : Alike p q) (h' : Alike q r) : Alike p r :=
  ⟨h.contexts.trans h'.contexts, h.primaries.trans h'.primaries, h.secondaries.trans h'.secondaries⟩

theorem Alike.append {p' q' : Parts} (h : Alike p q) (h' : Alike p' q') :
    Alike (p.append p') (q.append q') := by
  constructor
  · rw [Parts.append, Parts.append, List.map_append, List.map_append, h.contexts, h'.contexts]
  · rw [Parts.append, Parts.append, List.map_append, List.map_append, h.primaries, h'.primaries]
  · rw [Parts.append, Parts.append, List.map_append, List.map_append, h.secondaries, h'.secondaries]

theorem map_info_sorted {ts us : List Tree} (h : ts.map Tree.info = us.map Tree.info) :
    (sorted ts).map Tree.info = (sorted us).map Tree.info := by
  have hsorted : ∀ ts : List Tree,
      (sorted ts).map Tree.info = (ts.map Tree.info).mergeSort fun a b => a.first ≤ b.first :=
    fun _ => List.map_mergeSort fun _ _ _ _ => rfl
  rw [hsorted, hsorted, h]

def key (x : Nat × Tree) : Nat × NodeInfo := (x.1, x.2.info)

theorem key_narrower {a b a' b' : Nat × Tree} (ha : key a = key a') (hb : key b = key b') :
    key (narrower a b) = key (narrower a' b') := by
  have hwidth : ∀ {x x' : Nat × Tree}, key x = key x' → x.2.width = x'.2.width := by
    intro x x' h
    rw [Tree.width, Tree.width, Tree.first, Tree.first, Tree.last, Tree.last, (Prod.mk.inj h).2]
  rw [narrower, narrower, hwidth ha, hwidth hb]
  split
  · exact hb
  · exact ha

theorem key_foldl_narrower {xs ys : List (Nat × Tree)} (h : xs.map key = ys.map key)
    {a a' : Nat × Tree} (ha : key a = key a') :
    key (xs.foldl narrower a) = key (ys.foldl narrower a') := by
  induction xs generalizing ys a a' with
  | nil =>
    rw [List.map_nil, eq_comm, List.map_eq_nil_iff] at h
    rwa [h]
  | cons x xs ih =>
    cases ys with
    | nil => exact absurd h nofun
    | cons y ys =>
      obtain ⟨hxy, hrest⟩ := List.cons.inj h
      exact ih hrest (key_narrower ha hxy)

theorem key_narrowest? {xs ys : List (Nat × Tree)} (h : xs.map key = ys.map key) :
    (narrowest? xs).map Prod.fst = (narrowest? ys).map Prod.fst := by
  cases xs with
  | nil =>
    rw [List.map_nil, eq_comm, List.map_eq_nil_iff] at h
    rw [h]
  | cons x xs =>
    cases ys with
    | nil => exact absurd h nofun
    | cons y ys =>
      obtain ⟨hxy, hrest⟩ := List.cons.inj h
      exact congrArg (fun k : Nat × NodeInfo => some k.1) (key_foldl_narrower hrest hxy)

/-- Which container a span belongs to depends on the spans of the containers only. -/
theorem owner?_congr {ps qs : List Tree} (h : ps.map Tree.info = qs.map Tree.info)
    (self : Option Nat) (first last : Nat) :
    owner? ps self first last = owner? qs self first last := by
  have hkeys : ∀ ts : List Tree,
        ((ts.zipIdx.filter fun e => some e.2 != self && encloses e.1 first last).map
        fun e => (e.2, e.1)).map key =
      (((ts.map Tree.info).zipIdx.map fun e => (e.2, e.1)).filter fun k =>
        some k.1 != self && encloses (.node k.2 []) first last) := by
    intro ts
    rw [List.zipIdx_map, List.map_map, List.map_map, List.filter_map]
    rfl
  apply key_narrowest?
  exact (hkeys ps).trans
    ((congrArg (fun infos : List NodeInfo => List.filter _ (infos.zipIdx.map _)) h).trans
    (hkeys qs).symm)

theorem info_getD {ts us : List Tree} (h : ts.map Tree.info = us.map Tree.info) (i : Nat) :
    (ts[i]?.getD default).info = (us[i]?.getD default).info := by
  have hmap : ∀ ts : List Tree, (ts[i]?.getD default).info =
      (ts.map Tree.info)[i]?.getD (default : Tree).info := by
    intro ts
    rw [List.getElem?_map, Option.getD_map]
  rw [hmap, hmap, h]

theorem Alike.primary_info (h : Alike p q) (i : Nat) : (p.primary i).info = (q.primary i).info :=
  info_getD h.primaries i

theorem Alike.secondary_info (h : Alike p q) (k : Nat) :
    (p.secondary k).info = (q.secondary k).info :=
  info_getD h.secondaries k

theorem Alike.node_first (h : Alike p q) (item : Item) :
    (p.node item).first = (q.node item).first := by
  cases item with
  | container i => exact congrArg NodeInfo.first (h.primary_info i)
  | member k => exact congrArg NodeInfo.first (h.secondary_info k)

/-- The same items belong to a container, in the same order. -/
theorem Alike.itemsOf_eq (h : Alike p q) (owner : Option Nat) :
    p.itemsOf owner = q.itemsOf owner := by
  have hcontainers : p.containerOwner? = q.containerOwner? := by
    funext i
    rw [containerOwner?, containerOwner?, owner?_congr h.primaries, Tree.first, Tree.first,
      Tree.last, Tree.last, h.primary_info]
  have hmembers : p.memberOwner? = q.memberOwner? := by
    funext k
    rw [memberOwner?, memberOwner?, owner?_congr h.primaries, Tree.first, Tree.first,
      Tree.last, Tree.last, h.secondary_info]
  have hfirst : (fun item => (p.node item).first) = fun item => (q.node item).first :=
    funext h.node_first
  have hprimaries : p.primaries.length = q.primaries.length := by
    simpa using congrArg List.length h.primaries
  have hsecondaries : p.secondaries.length = q.secondaries.length := by
    simpa using congrArg List.length h.secondaries
  unfold itemsOf
  rw [hcontainers, hmembers, hprimaries, hsecondaries]
  exact congrArg (fun rank : Item → Nat => List.mergeSort _ fun a b => rank a ≤ rank b) hfirst

end Parts

mutual

def Block.positions : Block → List (Nat × NodeInfo)
  | .member _ => []
  | .container i t children => (i, t.info) :: positionsAll children

def Block.positionsAll : List Block → List (Nat × NodeInfo)
  | [] => []
  | b :: bs => b.positions ++ positionsAll bs

end

namespace Block
variable {p q : Parts}

theorem positionsAll_eq (bs : List Block) : positionsAll bs = bs.flatMap positions := by
  induction bs with
  | nil => rfl
  | cons b bs ih => rw [positionsAll, ih, List.flatMap_cons]

/-- Parts at the same places make blocks with the same containers. -/
theorem positions_ofItem (h : Parts.Alike p q) (item : Item) :
    (ofItem p item).positions = (ofItem q item).positions := by
  match item with
  | .member k =>
    rw [ofItem, ofItem]
    rfl
  | .container i =>
    rw [ofItem_container, ofItem_container, positions, positions, positionsAll_eq, positionsAll_eq,
      List.flatMap_map, List.flatMap_map, ← h.itemsOf_eq, h.primary_info]
    apply congrArg ((i, (q.primary i).info) :: ·)
    apply List.flatMap_congr
    intro inner hi
    exact positions_ofItem h inner
termination_by p.room item
decreasing_by exact Parts.room_lt_of_mem_itemsOf hi

theorem info_of_mem_positions (p : Parts) (item : Item) :
    ∀ x ∈ (ofItem p item).positions, x.2 = (p.primary x.1).info := by
  intro x hx
  match item with
  | .member k =>
    rw [ofItem] at hx
    exact absurd hx List.not_mem_nil
  | .container i =>
    rw [ofItem_container, positions, positionsAll_eq, List.flatMap_map] at hx
    cases List.mem_cons.mp hx with
    | inl hx => rw [hx]
    | inr hx =>
      obtain ⟨inner, hi, hx⟩ := List.mem_flatMap.mp hx
      exact info_of_mem_positions p inner x hx
termination_by p.room item
decreasing_by exact Parts.room_lt_of_mem_itemsOf hi

end Block

end CodeAtlas.Source
