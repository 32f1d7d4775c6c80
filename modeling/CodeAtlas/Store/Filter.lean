import CodeAtlas.Store.Hit

/-!
Conditions on chunks and on their place in the dependency graph, to choose among what a search
finds.
-/

namespace CodeAtlas.Store

/-- A choice of chunks. Every condition that is given must hold. -/
structure Filter where
  /-- The kinds that are wanted; all, if none is named. -/
  kinds : List ChunkKind := []
  language : Option String := none
  /-- What the path begins with. -/
  pathStart : Option String := none
  position : Option Position := none
  /-- The relationships the chunk takes part in. -/
  relationships : List Relationship := []
  minDependencies : Option Nat := none
  maxInstability : Option Float := none

namespace Filter

def accepts (f : Filter) (c : Chunk) (p : Profile) : Bool :=
  (f.kinds.isEmpty || f.kinds.contains c.kind) &&
    f.language.all (· == c.language) &&
    f.pathStart.all (fun start => start.toList.isPrefixOf c.path.toList) &&
    f.position.all (fun position => p.position == some position) &&
    f.relationships.all p.related &&
    f.minDependencies.all (· ≤ p.dependencyCount) &&
    f.maxInstability.all (fun m => !(m < p.instability))

end Filter

end CodeAtlas.Store
