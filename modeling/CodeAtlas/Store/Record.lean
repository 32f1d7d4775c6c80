import CodeAtlas.Graph.NodeLink
import CodeAtlas.Store.Basic

/-!
Stores as documents. Real numbers stand there as the whole numbers of their bits, so that nothing of
them is lost.
-/

namespace CodeAtlas

open Document

namespace Instant

def ofDocument? : Document → Option Instant
  | list [integer seconds, nanos] => do return { seconds, nanos := ← size? nanos }
  | _ => none

def toDocument (t : Instant) : Document :=
  list [integer t.seconds, ofNat t.nanos]

end Instant

namespace Store

def ofBits? (d : Document) : Option Float :=
  (size? d).map fun bits => Float.ofBits bits.toUInt64

def bitsOf (x : Float) : Document :=
  ofNat x.toBits.toNat

namespace ChunkRow

def ofDocument? (d : Document) : Option ChunkRow := do
  let fs ← Fields.ofDocument? [⟨"key", []⟩, ⟨"chunk", []⟩, ⟨"profile", []⟩, ⟨"instability", []⟩,
    ⟨"spoiled", []⟩] d
  return {
    chunk := ← fs.required "chunk" Chunk.ofDocument?
    profile :=
      { ← fs.required "profile" Profile.ofDocument? with
        instability := ← fs.required "instability" ofBits? }
    key := ← fs.required "key" size?
    spoiled := ← fs.required "spoiled" texts? }

def toDocument (r : ChunkRow) : Document :=
  record [("key", ofNat r.key), ("chunk", r.chunk.toDocument), ("profile", r.profile.toDocument),
    ("instability", bitsOf r.profile.instability), ("spoiled", ofTexts r.spoiled)]

end ChunkRow

namespace EdgeRow

def ofDocument? (d : Document) : Option EdgeRow := do
  let fs ← Fields.ofDocument? [⟨"edge", []⟩, ⟨"strength", []⟩, ⟨"label", []⟩, ⟨"spoiled", []⟩] d
  return {
    edge :=
      { ← fs.required "edge" Dependency.ofDocument? with
        strength := ← fs.required "strength" ofBits? }
    label := ← fs.required "label" text?
    spoiled := ← fs.required "spoiled" texts? }

def toDocument (r : EdgeRow) : Document :=
  record [("edge", r.edge.toDocument), ("strength", bitsOf r.edge.strength),
    ("label", text r.label), ("spoiled", ofTexts r.spoiled)]

end EdgeRow

namespace Slot

def ofDocument? : Document → Option (Option Slot)
  | null => some none
  | list [key, vector] => do
    let bits ← listOf? size? vector
    return some { key := ← size? key, vector := bits.map fun n => Float32.ofBits n.toUInt32 }
  | _ => none

def toDocument : Option Slot → Document
  | none => null
  | some s => list [ofNat s.key, list (s.vector.map fun x => ofNat x.toBits.toNat)]

end Slot

def fileOfDocument? : Document → Option (String × Instant)
  | list [text path, time] => (Instant.ofDocument? time).map (path, ·)
  | _ => none

namespace Tables

def ofDocument? (d : Document) : Option Tables := do
  let fs ← Fields.ofDocument? [⟨"width", []⟩, ⟨"chunks", []⟩, ⟨"next_key", []⟩, ⟨"slots", []⟩,
    ⟨"edges", []⟩, ⟨"files", []⟩] d
  return {
    width := ← fs.required "width" size?
    chunks := ← fs.required "chunks" (listOf? ChunkRow.ofDocument?)
    nextKey := ← fs.required "next_key" size?
    slots := ← fs.required "slots" (listOf? Slot.ofDocument?)
    edges := ← fs.required "edges" (listOf? EdgeRow.ofDocument?)
    files := ← fs.required "files" (listOf? fileOfDocument?) }

def toDocument (t : Tables) : Document :=
  record [("width", ofNat t.width), ("chunks", list (t.chunks.map ChunkRow.toDocument)),
    ("next_key", ofNat t.nextKey), ("slots", list (t.slots.map Slot.toDocument)),
    ("edges", list (t.edges.map EdgeRow.toDocument)),
    ("files", list (t.files.map fun f => list [text f.1, f.2.toDocument]))]

end Tables

def ofDocument? (d : Document) : Option Store := do
  let fs ← Fields.ofDocument? [⟨"dimensions", []⟩, ⟨"tables", []⟩] d
  return {
    dimensions := ← fs.required "dimensions" size?
    tables? := ← fs.optional "tables" Tables.ofDocument? }

def toDocument (s : Store) : Document :=
  record [("dimensions", ofNat s.dimensions),
  ("tables", (s.tables?.map Tables.toDocument).getD null)]

end Store

end CodeAtlas
