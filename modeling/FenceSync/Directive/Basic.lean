import FenceSync.Directive.Preceding
import FenceSync.Directive.Target
import FenceSync.Document.Fence
import FenceSync.Embed.Skip
/-!
# Directives

Which file a block is filled from. An `ignore-next` comment wins over everything, a path in front of
the block over its first line; otherwise the block needs a known tag and a reference on its first
line.
-/
namespace FenceSync

structure Directive where
  /-- The reference as it is written. -/
  reference : Text
  target : Target
  /-- The path of the comment before the block, when that is where the reference stands. -/
  override? : Option Text
deriving DecidableEq, Repr

namespace Directive

/-- The reference on the first line of a block. -/
def firstLineReference (e : LineEnding) (f : Fence) : Except SkipReason Text :=
  match f.extension? with
  | none => .error .noExtension
  | some extension =>
    match (f.firstLine? e).filter fun line => !line.isEmpty with
    | none => .error .emptyBlock
    | some line =>
      match FileType.ofTag? extension with
      | none => .error (.unsupportedExtension extension)
      | some fileType =>
        match fileType.family? with
        | none => .error (.unresolvedCommentFamily extension)
        | some family =>
          match Comment.reference? family line with
          | none => .error (.noDirective extension)
          | some reference => .ok reference

/-- The target of a reference, and where the reference was found. -/
def ofReference (reference : Text) (override? : Option Text) : Except SkipReason Directive :=
  match Target.ofReference reference with
  | .error .noPath => .error .noTarget
  | .error (.malformedRange path) => .error (.malformedLineRange path)
  | .ok target => .ok ⟨reference, target, override?⟩

def ofFence (e : LineEnding) (f : Fence) (preceding : Preceding) : Except SkipReason Directive :=
  if preceding.ignoreNext then .error .ignored
  else match preceding.override? with
    | some path => ofReference path (some path)
    | none =>
      match firstLineReference e f with
      | .error reason => .error reason
      | .ok reference => ofReference reference none

end Directive
end FenceSync
