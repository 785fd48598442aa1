import FenceSync.Path.Basic
/-!
# Options of a run
-/
namespace FenceSync

/-- What becomes of the new text of a document. -/
inductive RunMode
  | write
  | dryRun
  | stdout
  | verify
deriving DecidableEq, Repr

namespace RunMode

/-- The document stays as it is, so line numbers are those it has now. -/
def isReadOnly : RunMode → Bool
  | .write => false
  | _ => true

def name : RunMode → String
  | .write => "write"
  | .dryRun => "dry-run"
  | .stdout => "stdout"
  | .verify => "verify"

end RunMode

structure EmbedOptions where
  /-- Where embed paths begin, in place of the directory of the document. -/
  sourceRoot? : Option Path
  /-- Whether the comment line is left out of the blocks. -/
  stripComment : Bool
  mode : RunMode
  /-- Where a relative source root or document path begins. -/
  workingDir : Path
deriving DecidableEq, Repr

end FenceSync
