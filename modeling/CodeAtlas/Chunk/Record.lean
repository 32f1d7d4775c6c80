import CodeAtlas.Chunk.Basic
import CodeAtlas.Document.Fields

/-!
Chunks as records.
-/

namespace CodeAtlas

open Document

def ChunkKind.ofDocument? : Document → Option ChunkKind :=
  choice? ofLabel?

namespace Declaration

def declared : List FieldName :=
  [⟨"package", []⟩, ⟨"imports", []⟩, ⟨"extends", []⟩, ⟨"implements", []⟩, ⟨"parameters", []⟩,
    ⟨"return_type", []⟩]

def ofDocument? (d : Document) : Option Declaration := do
  let fs ← Fields.ofDocument? declared d
  return {
    package := ← fs.optionalOrCut "package" text?
    imports := ← fs.defaulted "imports" [] texts?
    base := ← fs.optionalOrCut "extends" text?
    interfaces := ← fs.defaulted "implements" [] texts?
    parameters := ← fs.defaulted "parameters" [] texts?
    returnType := ← fs.optionalOrCut "return_type" text? }

def toDocument (d : Declaration) : Document :=
  record [("package", ofText? d.package), ("imports", ofTexts d.imports),
    ("extends", ofText? d.base), ("implements", ofTexts d.interfaces),
    ("parameters", ofTexts d.parameters), ("return_type", ofText? d.returnType)]

end Declaration

namespace Chunk

def declared : List FieldName :=
  [⟨"node_id", []⟩, ⟨"chunk_type", []⟩, ⟨"content", []⟩, ⟨"file_path", []⟩, ⟨"start_line", []⟩,
    ⟨"end_line", []⟩, ⟨"language", []⟩, ⟨"name", []⟩, ⟨"qualified_name", []⟩, ⟨"context", []⟩,
    ⟨"metadata", []⟩, ⟨"parent_id", []⟩, ⟨"children_ids", []⟩, ⟨"reference_ids", []⟩,
    ⟨"referenced_by_ids", []⟩]

def ofDocument? (d : Document) : Option Chunk := do
  let fs ← Fields.ofDocument? declared d
  return {
    id := ← fs.required "node_id" text?
    kind := ← fs.required "chunk_type" ChunkKind.ofDocument?
    content := ← fs.required "content" text?
    path := ← fs.required "file_path" text?
    startLine := ← fs.required "start_line" size?
    endLine := ← fs.required "end_line" size?
    language := ← fs.required "language" text?
    name := ← fs.optional "name" text?
    qualifiedName := ← fs.optional "qualified_name" text?
    declaration := ← fs.defaulted "context" {} Declaration.ofDocument?
    metadata := ← fs.defaulted "metadata" [] Metadata.ofDocument?
    parent := ← fs.optional "parent_id" text?
    children := ← fs.defaulted "children_ids" [] texts?
    references := ← fs.defaulted "reference_ids" [] texts?
    referencedBy := ← fs.defaulted "referenced_by_ids" [] texts? }

def toDocument (c : Chunk) : Document :=
  record [("node_id", text c.id), ("chunk_type", text c.kind.label), ("content", text c.content),
    ("file_path", text c.path), ("start_line", ofNat c.startLine), ("end_line", ofNat c.endLine),
    ("language", text c.language), ("name", ofText? c.name),
    ("qualified_name", ofText? c.qualifiedName), ("context", c.declaration.toDocument),
    ("metadata", record c.metadata), ("parent_id", ofText? c.parent),
    ("children_ids", ofTexts c.children), ("reference_ids", ofTexts c.references),
    ("referenced_by_ids", ofTexts c.referencedBy)]

end Chunk

end CodeAtlas
