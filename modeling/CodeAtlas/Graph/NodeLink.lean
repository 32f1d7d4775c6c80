import CodeAtlas.Chunk.Record
import CodeAtlas.Document.Printer
import CodeAtlas.Document.Reader
import CodeAtlas.Graph.Profile

/-!
Graphs as documents: a record with the nodes and with the dependencies as links between them. The
measures are written too, but when a graph is read they are computed anew.
-/

namespace CodeAtlas

open Document

namespace Location

def declared : List FieldName :=
  [⟨"line", []⟩, ⟨"column", []⟩, ⟨"snippet", []⟩]

def ofDocument? (d : Document) : Option Location := do
  let fs ← Fields.ofDocument? declared d
  return {
    line := ← fs.required "line" size?
    column := ← fs.required "column" size?
    snippet := ← fs.required "snippet" text? }

def toDocument (l : Location) : Document :=
  record [("line", ofNat l.line), ("column", ofNat l.column), ("snippet", text l.snippet)]

end Location

namespace Dependency

/-- The fields of a dependency, in order; its ends have a second spelling. -/
def declared : List FieldName :=
  [⟨"source", ["source_id"]⟩, ⟨"target", ["target_id"]⟩, ⟨"type", []⟩, ⟨"strength", []⟩,
    ⟨"is_direct", []⟩, ⟨"is_required", []⟩, ⟨"description", []⟩, ⟨"locations", []⟩]

def ofDocument? (d : Document) : Option Dependency := do
  let fs ← Fields.ofDocument? declared d
  return {
    source := ← fs.required "source" text?
    target := ← fs.required "target" text?
    relationship := ← fs.required "type" (choice? Relationship.ofLabel?)
    strength := ← fs.required "strength" real?
    direct := ← fs.required "is_direct" boolean?
    required := ← fs.required "is_required" boolean?
    description := ← fs.defaulted "description" "" text?
    locations := ← fs.defaulted "locations" [] (listOf? Location.ofDocument?) }

def toDocument (d : Dependency) : Document :=
  record [("source", text d.source), ("target", text d.target), ("type", text d.relationship.label),
    ("strength", real d.strength), ("is_direct", boolean d.direct),
    ("is_required", boolean d.required), ("description", text d.description),
    ("locations", list (d.locations.map Location.toDocument))]

end Dependency

namespace Node

def declared : List FieldName :=
  [⟨"id", []⟩, ⟨"chunk_type", []⟩, ⟨"name", []⟩, ⟨"qualified_name", []⟩, ⟨"file_path", []⟩,
    ⟨"start_line", []⟩, ⟨"end_line", []⟩, ⟨"language", []⟩, ⟨"is_interface", []⟩]

def ofDocument? (d : Document) : Option Node := do
  let fs ← Fields.ofDocument? declared d
  return {
    id := ← fs.required "id" text?
    kind := ← fs.required "chunk_type" ChunkKind.ofDocument?
    name := ← fs.optional "name" text?
    qualifiedName := ← fs.optional "qualified_name" text?
    path := ← fs.required "file_path" text?
    startLine := ← fs.required "start_line" size?
    endLine := ← fs.required "end_line" size?
    language := ← fs.required "language" text?
    isInterface := ← fs.defaulted "is_interface" false boolean? }

def toDocument (n : Node) : Document :=
  record [("id", text n.id), ("chunk_type", text n.kind.label), ("name", ofText? n.name),
    ("qualified_name", ofText? n.qualifiedName), ("file_path", text n.path),
    ("start_line", ofNat n.startLine), ("end_line", ofNat n.endLine),
    ("language", text n.language), ("is_interface", boolean n.isInterface)]

end Node

namespace Metrics

def GraphMetrics.declared : List FieldName :=
  [⟨"node_count", []⟩, ⟨"edge_count", []⟩, ⟨"coupling", []⟩, ⟨"cohesion", []⟩,
    ⟨"dependency_depth", []⟩, ⟨"cyclic_dependencies", []⟩]

def GraphMetrics.ofDocument? (d : Document) : Option GraphMetrics := do
  let fs ← Fields.ofDocument? declared d
  return {
    nodeCount := ← fs.required "node_count" size?
    edgeCount := ← fs.required "edge_count" size?
    coupling := ← fs.required "coupling" real?
    cohesion := ← fs.required "cohesion" real?
    dependencyDepth := ← fs.required "dependency_depth" size?
    cycles := ← fs.required "cyclic_dependencies" (listOf? texts?) }

def GraphMetrics.toDocument (m : GraphMetrics) : Document :=
  record [("node_count", ofNat m.nodeCount), ("edge_count", ofNat m.edgeCount),
    ("coupling", real m.coupling), ("cohesion", real m.cohesion),
    ("dependency_depth", ofNat m.dependencyDepth),
    ("cyclic_dependencies", list (m.cycles.map ofTexts))]

def NodeMetrics.toDocument (m : NodeMetrics) : Document :=
  record [("fan_in", ofNat m.fanIn), ("fan_out", ofNat m.fanOut),
    ("instability", real m.instability),
    ("abstractness", real m.abstractness), ("distance_from_main_sequence", real m.distance)]

end Metrics

structure NodeLink where
  directed : Bool
  multigraph : Bool
  measures : Metrics.GraphMetrics := {}
  nodes : List Node
  links : List Dependency

namespace NodeLink

def declared : List FieldName :=
  [⟨"directed", []⟩, ⟨"multigraph", []⟩, ⟨"graph", []⟩, ⟨"nodes", []⟩, ⟨"links", []⟩]

def ofDocument? (d : Document) : Option NodeLink := do
  let fs ← Fields.ofDocument? declared d
  return {
    directed := ← fs.required "directed" boolean?
    multigraph := ← fs.required "multigraph" boolean?
    measures := ← fs.defaulted "graph" {} Metrics.GraphMetrics.ofDocument?
    nodes := ← fs.required "nodes" (listOf? Node.ofDocument?)
    links := ← fs.required "links" (listOf? Dependency.ofDocument?) }

def toDocument (l : NodeLink) : Document :=
  record [("directed", boolean l.directed), ("multigraph", boolean l.multigraph),
    ("graph", l.measures.toDocument), ("nodes", list (l.nodes.map Node.toDocument)),
    ("links", list (l.links.map Dependency.toDocument))]

end NodeLink

namespace Graph

def toNodeLink (g : Graph) : NodeLink where
  directed := true
  multigraph := true
  measures := g.metrics
  nodes := g.nodes
  links := g.edges

/-- The graph of an export; its measures are not trusted. -/
def ofNodeLink (l : NodeLink) : Graph :=
  ofParts l.nodes l.links

def save (g : Graph) : String :=
  g.toNodeLink.toDocument.renderIndented

/-- The graph a text was saved from, if the text can be read. -/
def load? (s : String) : Option Graph :=
  ((parse? s).bind NodeLink.ofDocument?).map ofNodeLink

end Graph

end CodeAtlas
