/-!
Why an operation fails. Some failures concern a single file, and whoever works on many files goes on
with the others.
-/

namespace CodeAtlas

inductive Failure where
  | parse (path reason : String)
  | unsupportedLanguage (what : String)
  | store
  | embedder (reason : String)
  | serialization
  | inputOutput (reason : String)
  | invalidInput (reason : String)
  deriving DecidableEq, Repr

namespace Failure

/-- The text of a failure. What the store and the reading of documents have to say is left out. -/
def message : Failure → String
  | parse path reason => s!"failed to parse {path}: {reason}"
  | unsupportedLanguage what => s!"unsupported language: {what}"
  | store => "store unavailable"
  | embedder reason => s!"embedding failed: {reason}"
  | serialization => "serialization error"
  | inputOutput reason => reason
  | invalidInput reason => s!"invalid input: {reason}"

/-- Whether a failure concerns one file only. -/
def isFileLocal : Failure → Bool
  | parse _ _ | unsupportedLanguage _ | inputOutput _ => true
  | _ => false

def notFound : Failure :=
  inputOutput "No such file or directory (os error 2)"

end Failure

end CodeAtlas
