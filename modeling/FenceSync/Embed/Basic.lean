import FenceSync.Directive.Basic
import FenceSync.Document.Layout
import FenceSync.Embed.Render
import FenceSync.Snippet.Basic
/-!
# Embedding

Every block of a document is filled by itself, from the gap in front of it and the file its
directive names. The new document is the old one with the filled blocks in place of the old ones; a
block that cannot be filled stays as it is, and its report says why.
-/
namespace FenceSync

/-- A block of a document with what became of it. -/
structure Filled where
  gap : Text
  fence : Fence
  /-- The reference, once a directive was found. -/
  target? : Option Text
  outcome : Outcome
deriving DecidableEq, Repr

/-- The text that the block ends up with. -/
def Filled.text (b : Filled) : Text :=
  match b.outcome with
  | .unchanged _ => b.fence.raw
  | .replaced text _ => text

/-- What is said about a block. Lines are counted from one. -/
structure Block where
  startLine : Nat
  endLine : Nat
  extension? : Option Text
  target? : Option Text
  outcome : Outcome
deriving DecidableEq, Repr

structure Report where
  output : Text
  blocks : List Block
deriving DecidableEq, Repr

namespace Report

def changed (r : Report) : Bool := r.blocks.any (·.outcome.isReplaced)

def replacedCount (r : Report) : Nat := r.blocks.countP (·.outcome.isReplaced)

end Report

namespace Document

variable (fs : FileSystem) (options : EmbedOptions) (document : Path) (e : LineEnding)

/-- Writes a block around a snippet. It has no comment line when the reference stands before it. -/
def renderWith (f : Fence) (directive : Directive) (snippet : Snippet) : Text :=
  let omitComment := directive.override?.isSome || options.stripComment
  Fence.render e f.indent f.tag
    (if omitComment then none else some ((f.firstLine? e).getD [])) snippet.body

def fill (gap : Text) (f : Fence) : Filled :=
  match Directive.ofFence e f (Preceding.scan gap) with
  | .error reason => ⟨gap, f, none, .unchanged reason⟩
  | .ok directive =>
    match Snippet.ofTarget fs options document e directive.target with
    | .error reason => ⟨gap, f, some directive.reference, .unchanged reason⟩
    | .ok snippet =>
      ⟨gap, f, some directive.reference,
        Outcome.ofRendered (renderWith options e f directive snippet) f.raw snippet.lineCount⟩

def fillAll (l : Layout) : List Filled :=
  l.blocks.map fun (gap, f) => fill fs options document e gap f

/-- The text with the filled blocks. -/
def assemble (bs : List Filled) (tail : Text) : Text :=
  (bs.flatMap fun b => b.gap ++ b.text) ++ tail

/-- Reports on blocks that follow the text `before` of the document and the text `written` of its
new form. Lines are those of the new form if that is to be written, otherwise of the old one. -/
def reportFrom (mode : RunMode) (before written : Text) : List Filled → List Block
  | [] => []
  | b :: bs =>
    let startLine :=
      if mode.isReadOnly then e.lineCount (before ++ b.gap)
      else e.breaks written + e.lineCount b.gap
    ⟨startLine, startLine + e.lineCount b.text - 1, b.fence.extension?, b.target?, b.outcome⟩ ::
      reportFrom mode (before ++ b.gap ++ b.fence.raw) (written ++ b.gap ++ b.text) bs

/-- Fills every block of the document that can be filled. -/
def embed (source : Text) : Report :=
  let e := LineEnding.detect source
  let l := Layout.ofText source
  let bs := fillAll fs options document e l
  ⟨assemble bs l.tail, reportFrom e options.mode [] [] bs⟩

end Document
end FenceSync
