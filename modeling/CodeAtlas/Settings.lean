import CodeAtlas.Document.Printer
import CodeAtlas.Document.Reader
import CodeAtlas.Glob.Reader
import CodeAtlas.Retrieval.Tuning

/-!
The settings of the tool, and what can be wrong with them. Settings that cannot be read are passed
over for the usual ones.
-/

namespace CodeAtlas

open Document

structure Settings where
  storePath : String := "./chunkgraph.db"
  /-- Globs for the files, by their paths in the indexed directory, that are left out. -/
  excluded : List String := ["target/**", "node_modules/**", ".git/**"]
  dimensions : Nat := 384
  tuning : Retrieval.Tuning := {}
  deriving Inhabited

namespace Settings

inductive Fault where
  | noDimensions
  | noSeeds
  | noTopK
  | noBudget
  | dampingOutside
  | noTolerance
  | badGlob (pattern : String)
  deriving DecidableEq, Repr

def Fault.message : Fault → String
  | noDimensions => "embedding.dimensions must be positive"
  | noSeeds => "retrieval.seed_count must be positive"
  | noTopK => "retrieval.top_k must be positive"
  | noBudget => "retrieval.token_budget must be positive"
  | dampingOutside => "retrieval.damping must be in (0, 1)"
  | noTolerance => "retrieval.tolerance must be positive"
  | badGlob pattern => s!"invalid exclude pattern: {pattern}"

/-- The globs of patterns, or the first pattern that is none. -/
def globs : List String → Except Fault (List Glob)
  | [] => .ok []
  | pattern :: patterns =>
    match Glob.ofText? pattern with
    | none => .error (.badGlob pattern)
    | some g => (globs patterns).map (g :: ·)

def covered (globs : List Glob) (path : String) : Bool :=
  globs.any fun g => g.covers true path

def fault? (s : Settings) : Option Fault :=
  if s.dimensions == 0 then some .noDimensions
  else if s.tuning.seedCount == 0 then some .noSeeds
  else if s.tuning.topK == 0 then some .noTopK
  else if s.tuning.tokenBudget == 0 then some .noBudget
  else if !(0.0 < s.tuning.damping && s.tuning.damping < 1.0) then some .dampingOutside
  else if !(0.0 < s.tuning.tolerance) then some .noTolerance
  else
    match globs s.excluded with
    | .ok _ => none
    | .error fault => some fault

def dimensionsOf? (d : Document) : Option Nat := do
  let fs ← Fields.ofDocument? [⟨"dimensions", []⟩] d
  fs.defaulted "dimensions" 384 size?

def declared : List FieldName :=
  [⟨"db_path", []⟩, ⟨"exclude_patterns", []⟩, ⟨"embedding", []⟩, ⟨"retrieval", []⟩]

def ofDocument? (d : Document) : Option Settings := do
  let fs ← Fields.ofDocument? declared d
  let usual : Settings := {}
  return {
    storePath := ← fs.defaulted "db_path" usual.storePath text?
    excluded := ← fs.defaulted "exclude_patterns" usual.excluded texts?
    dimensions := ← fs.defaulted "embedding" usual.dimensions dimensionsOf?
    tuning := ← fs.defaulted "retrieval" {} Retrieval.Tuning.ofDocument? }

def toDocument (s : Settings) : Document :=
  record [("db_path", text s.storePath), ("exclude_patterns", ofTexts s.excluded),
    ("embedding", record [("dimensions", ofNat s.dimensions)]), ("retrieval", s.tuning.toDocument)]

/-- The settings that a text gives: the usual ones if it cannot be read. -/
def ofText (s : String) : Settings :=
  ((parse? s).bind ofDocument?).getD {}

def save (s : Settings) : String :=
  s.toDocument.renderIndented

end Settings

end CodeAtlas
