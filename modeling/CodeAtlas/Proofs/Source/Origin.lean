import CodeAtlas.Proofs.Chunk.Metadata
import CodeAtlas.Proofs.Source.BlockChunks

/-!
What all chunks of a file have in common, whatever its syntax tree: the path of the file, which is
part of their ids too, and metadata without real numbers, which is read back as it was written.
-/

namespace CodeAtlas

open Document

namespace Source.File

structure Origin (f : File) (c : Chunk) : Prop where
  path : c.path = f.path
  metadata : c.metadata.Lasting
  id : ∃ kind first last, c.id = Chunk.idOf f.path kind first last

variable {f : File} {l : Language} {p : Parts} {parent : String}

/-- Chunks of files with different paths have different ids. -/
theorem Origin.id_ne {f' : File} {c d : Chunk} (hc : f.Origin c) (hd : f'.Origin d)
    (h : f.path ≠ f'.path) : c.id ≠ d.id := by
  obtain ⟨kind, first, last, hi⟩ := hc.id
  obtain ⟨kind', first', last', hi'⟩ := hd.id
  intro he
  exact h (Chunk.idOf_inj (hi.symm.trans (he.trans hi'))).1

/-- The chunks that the parts of a file become, before references are linked. -/
inductive Made (f : File) (l : Language) : Chunk → Prop where
  | file (contexts : List Context) (children : List String) :
    Made f l (f.fileChunk l contexts children)
  | context (parent : String) (x : Context) : Made f l (f.contextChunk l parent x)
  | member (kind : ChunkKind) (parent : String) (parentName : Option String) (t : Tree) :
      Made f l (f.memberChunk l kind parent parentName t)
  | container (p : Parts) (parent : String) (parentName : Option String) (i : Nat) (t : Tree)
      (children : List String) :
      Made f l { f.containerChunk l p parent parentName i t with children }
  | segment (parent role : String) (first last : Nat) :
    Made f l (f.segmentChunk l parent role first last)

theorem segment_made {role : String} {first last : Nat} {c : Chunk}
    (h : c ∈ f.segment l parent role first last) : f.Made l c := by
  obtain ⟨span, -, rfl⟩ := List.mem_map.mp h
  exact .segment parent role span.1 span.2

mutual

theorem blockChunks_made : (b : Block) → (inside : Bool) → (parent : String) →
    (parentName : Option String) → ∀ c ∈ f.blockChunks l p inside parent parentName b, f.Made l c
  | .member t, inside, parent, parentName, c, hc => by
    rw [blockChunks_member] at hc
    obtain rfl := List.mem_singleton.mp hc
    exact .member _ parent parentName t
  | .container i t [], inside, parent, parentName, c, hc => by
    rw [blockChunks_empty] at hc
    obtain rfl := List.mem_singleton.mp hc
    exact .container p parent parentName i t []
  | .container i t (b :: bs), inside, parent, parentName, c, hc => by
    rw [blockChunks_container] at hc
    rcases List.mem_cons.mp hc with rfl | hc
    · exact .container p parent parentName i t _
    · rcases List.mem_append.mp hc with hc | hc
      · rcases List.mem_append.mp hc with hc | hc
        · exact segment_made hc
        · exact blocksChunks_made (b :: bs) true _ _ c hc
      · exact segment_made hc

theorem blocksChunks_made : (bs : List Block) → (inside : Bool) → (parent : String) →
    (parentName : Option String) → ∀ c ∈ f.blocksChunks l p inside parent parentName bs, f.Made l c
  | [], _, _, _, _, hc => absurd hc List.not_mem_nil
  | b :: bs, inside, parent, parentName, c, hc => by
    rcases List.mem_append.mp hc with hc | hc
    · exact blockChunks_made b inside parent parentName c hc
    · exact blocksChunks_made bs inside parent parentName c hc

end

theorem tree_made {c : Chunk} (hc : c ∈ f.tree l) : f.Made l c := by
  rcases List.mem_cons.mp hc with rfl | hc
  · exact .file _ _
  · obtain ⟨cs, hcs, hc⟩ := List.mem_flatten.mp hc
    obtain ⟨item, -, rfl⟩ := List.mem_map.mp hcs
    cases item with
    | context x =>
      obtain rfl := List.mem_singleton.mp hc
      exact .context _ x
    | block b => exact blockChunks_made b false _ _ c hc

/-- The metadata of a container are texts, a truth value and a list of texts. -/
theorem containerChunk_lasting (p : Parts) (parent : String) (parentName : Option String) (i : Nat)
    (t : Tree) : (f.containerChunk l p parent parentName i t).metadata.Lasting := by
  apply Metadata.lasting_ofFields
  intro e he
  rcases List.mem_append.mp he with he | he
  · simp only [List.mem_cons, List.not_mem_nil, or_false] at he
    rcases he with rfl | rfl | rfl
    · exact .text _
    · exact .boolean _
    · exact .text _
  · split at he
    · exact absurd he List.not_mem_nil
    · obtain rfl := List.mem_singleton.mp he
      exact .texts _

theorem fileChunk_lasting (contexts : List Context) (children : List String) :
    (f.fileChunk l contexts children).metadata.Lasting := by
  have hlasting : ∀ m : Option String,
      Metadata.Lasting (m.toList.map fun s => ("module", .text s)) := by
    intro m
    cases m with
    | none => exact Metadata.lasting_of_plain List.Pairwise.nil nofun
    | some s => exact Metadata.lasting_of_plain (List.pairwise_singleton _ _) (by simp [Plain.text])
  exact hlasting _

theorem Made.origin {c : Chunk} (h : f.Made l c) : f.Origin c := by
  cases h with
  | file contexts children => exact ⟨rfl, fileChunk_lasting contexts children, _, _, _, rfl⟩
  | context => exact ⟨rfl, Metadata.lasting_ofFields (by simp [Plain.text]), _, _, _, rfl⟩
  | member => exact ⟨rfl, Metadata.lasting_ofFields (by simp [Plain.text]), _, _, _, rfl⟩
  | container p parent parentName i t =>
    exact ⟨rfl, containerChunk_lasting p parent parentName i t, _, _, _, rfl⟩
  | segment => exact ⟨rfl, Metadata.lasting_ofFields (by simp [Plain.text]), _, _, _, rfl⟩

theorem chunks_origin {c : Chunk} (hc : c ∈ f.chunks l) : f.Origin c := by
  obtain ⟨⟨d, i⟩, hd, rfl⟩ := List.mem_map.mp hc
  have ho : f.Origin d := (tree_made (List.fst_mem_of_mem_zipIdx hd)).origin
  exact ⟨ho.path, ho.metadata, ho.id⟩

end Source.File

end CodeAtlas
