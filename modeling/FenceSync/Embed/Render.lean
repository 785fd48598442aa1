import FenceSync.Document.Fence
import FenceSync.Embed.Skip
/-!
# Writing blocks

A block is written as its opening delimiter with the tag, the trimmed comment line and an empty line
unless the comment is left out, the body, and the closing delimiter; every line is indented as the
opening delimiter was.
-/
namespace FenceSync

/-- What became of a block. -/
inductive Outcome
  | unchanged (reason : SkipReason)
  | replaced (text : Text) (lineCount : Nat)
deriving DecidableEq, Repr

namespace Outcome

def isReplaced : Outcome → Bool
  | .unchanged _ => false
  | .replaced _ _ => true

def skipReason? : Outcome → Option SkipReason
  | .unchanged reason => some reason
  | .replaced _ _ => none

/-- A block that reads as before is up to date. -/
def ofRendered (rendered present : Text) (lineCount : Nat) : Outcome :=
  if rendered = present then .unchanged .upToDate else .replaced rendered lineCount

end Outcome

namespace Fence

/-- Puts the indentation in front of every line, empty ones included. -/
def indentLines (e : LineEnding) (indent t : Text) : Text := e.join ((e.split t).map (indent ++ ·))

/-- The text of a block; without a comment line when `comment?` is `none`. -/
def render (e : LineEnding) (indent tag : Text) (comment? : Option Text) (body : Text) : Text :=
  let head := match comment? with
    | none => []
    | some comment => Text.trim comment ++ e.text ++ e.text
  indentLines e indent (delimiter ++ tag ++ e.text ++ head ++ body ++ e.text ++ delimiter)

theorem indentLines_nil (e : LineEnding) (t : Text) : indentLines e [] t = t := by
  simp [indentLines, LineEnding.join_split]

end Fence
end FenceSync
