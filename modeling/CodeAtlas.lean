import CodeAtlas.Main
import CodeAtlas.Store.Damage
import CodeAtlas.Graph.Indexed
import CodeAtlas.Proofs.Chunk.Id
import CodeAtlas.Proofs.Chunk.Tree
import CodeAtlas.Proofs.Chunk.Reference
import CodeAtlas.Proofs.Source.ChunkTree
import CodeAtlas.Proofs.Chunk.Distinct
import CodeAtlas.Proofs.StableSort
import CodeAtlas.Proofs.Graph.Parts
import CodeAtlas.Proofs.Graph.Lineage
import CodeAtlas.Proofs.Graph.Calls
import CodeAtlas.Proofs.Graph.Heritage
import CodeAtlas.Proofs.Graph.Delegation
import CodeAtlas.Proofs.Retrieval.Distance
import CodeAtlas.Proofs.Retrieval.Expansion
import CodeAtlas.Proofs.Retrieval.Queue
import CodeAtlas.Proofs.Store.Tables
import CodeAtlas.Proofs.Store.Writing
import CodeAtlas.Proofs.Indexing.StoreFile
import CodeAtlas.Proofs.Source.Origin
import CodeAtlas.Proofs.Indexing.Run
import CodeAtlas.Proofs.Indexing.Mirror
import CodeAtlas.Proofs.Indexing.Rebuild
import CodeAtlas.Proofs.Retrieval.Packing
import CodeAtlas.Proofs.Store.Consistency
import CodeAtlas.Proofs.Indexing.Stored
import CodeAtlas.Proofs.Indexing.Endpoints
import CodeAtlas.Proofs.Indexing.Interrupted
import CodeAtlas.Proofs.Graph.WellFormed
import CodeAtlas.Proofs.Graph.Containment
import CodeAtlas.Proofs.Source.Ancestry
import CodeAtlas.Proofs.Source.Alike
import CodeAtlas.Proofs.Source.Hollow
import CodeAtlas.Proofs.Source.MemberBodies
import CodeAtlas.Proofs.Source.Placement
import CodeAtlas.Proofs.Graph.Reordering
import CodeAtlas.Proofs.Indexing.Filing
import CodeAtlas.Proofs.Source.Lines
import CodeAtlas.Proofs.Indexing.Unreadable
import CodeAtlas.Proofs.Store.Places
import CodeAtlas.Proofs.Store.LastWrite
import CodeAtlas.Proofs.Text.Utf8
import CodeAtlas.Proofs.Text.Word
import CodeAtlas.Proofs.Source.CallPlaces
import CodeAtlas.Proofs.Document.Number
import CodeAtlas.Proofs.Document.Written
import CodeAtlas.Proofs.Chunk.Metadata
import CodeAtlas.Proofs.Store.Columns
import CodeAtlas.Proofs.Graph.Indexed
import CodeAtlas.Proofs.Indexing.Arrival
import CodeAtlas.Proofs.Retrieval.Outcome
import CodeAtlas.Proofs.Store.Holdings
import CodeAtlas.Proofs.Float.Magnitude
import CodeAtlas.Proofs.Document.Real
import CodeAtlas.Proofs.Graph.Measures
import CodeAtlas.Proofs.Graph.NodeLink
import CodeAtlas.Proofs.Graph.Saved
import CodeAtlas.Proofs.Graph.Traversal
import CodeAtlas.Proofs.Graph.Cycles
import CodeAtlas.Proofs.Graph.Depth
import CodeAtlas.Proofs.Graph.Triangle
import CodeAtlas.Proofs.Graph.Uses
import CodeAtlas.Proofs.Graph.Imports
import CodeAtlas.Proofs.Source.ImportStatements
import CodeAtlas.Proofs.Source.CallReferences
import CodeAtlas.Proofs.Text.Run
import CodeAtlas.Proofs.Text.Strip
import CodeAtlas.Proofs.Text.WholeWord
import CodeAtlas.Proofs.Text.CallSite
import CodeAtlas.Proofs.Text.Search
import CodeAtlas.Proofs.ImportPath.Brace
import CodeAtlas.Proofs.ImportPath.Path
import CodeAtlas.Proofs.ImportPath.Canonical
import CodeAtlas.Proofs.ImportPath.Words
import CodeAtlas.Proofs.ImportPath.UseTree
import CodeAtlas.Proofs.ImportPath.Flattening
import CodeAtlas.Proofs.Retrieval.Positions
import CodeAtlas.Proofs.Retrieval.RankFlow
import CodeAtlas.Proofs.Retrieval.Convergence
import CodeAtlas.Proofs.Retrieval.SimplePath
import CodeAtlas.Proofs.Float.Nearest
import CodeAtlas.Proofs.Float.Share
import CodeAtlas.Proofs.Retrieval.SeedPaths
import CodeAtlas.Proofs.Retrieval.Greedy
import CodeAtlas.Proofs.Store.Nearest
import CodeAtlas.Proofs.Store.Removal
import CodeAtlas.Proofs.Store.EdgeOrder
import CodeAtlas.Proofs.Source.Segments
import CodeAtlas.Proofs.Source.QualifiedNames
import CodeAtlas.Proofs.Source.LineRanges
import CodeAtlas.Proofs.Graph.Cohesion
import CodeAtlas.Proofs.FeatureHashing
