import CodeAtlas.Graph.Profile

/-!
What a store answers with.
-/

namespace CodeAtlas

structure StoredChunk where
  chunk : Chunk
  profile : Profile

structure Hit extends StoredChunk where
  /-- One for the same direction, zero for the opposite one. -/
  similarity : Float

end CodeAtlas
