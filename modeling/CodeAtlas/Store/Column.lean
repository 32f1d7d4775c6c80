import CodeAtlas.Chunk.Record
import CodeAtlas.Document.Reread
import CodeAtlas.Graph.Profile

/-!
The columns of a chunk's row that hold documents as text. A default stands for a text that is
missing or cannot be read, be it that it is no such document or that it is nested deeper than the
reader goes.
-/

namespace CodeAtlas.Store.Column

open Document

variable (raw : Option String)

@[irreducible] def declaration : Declaration :=
  decodeOr {} Declaration.ofDocument? raw

@[irreducible] def metadata : Metadata :=
  decodeOr [] Metadata.ofDocument? raw

@[irreducible] def texts : List String :=
  decodeOr [] texts? raw

@[irreducible] def profile : Profile :=
  decodeOr {} Profile.ofDocument? raw

end CodeAtlas.Store.Column
