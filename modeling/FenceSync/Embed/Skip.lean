import FenceSync.FileType
import FenceSync.Path.Basic
/-!
# Reasons to leave a block alone

Each reason has a severity, a message and a short code.
-/
namespace FenceSync

inductive Severity
  /-- Nothing to act on. -/
  | info
  /-- Left alone on purpose. -/
  | notice
  /-- The block is not one that can be filled. -/
  | warning
  /-- The directive could not be followed. -/
  | error
deriving DecidableEq, Repr

def Severity.name : Severity → String
  | .info => "info"
  | .notice => "notice"
  | .warning => "warning"
  | .error => "error"

inductive SkipReason
  | ignored
  | noExtension
  | emptyBlock
  | unsupportedExtension (extension : Text)
  | unresolvedCommentFamily (extension : Text)
  | noDirective (extension : Text)
  | noTarget
  | malformedLineRange (path : Text)
  | fileNotFound (path : Text) (resolved : Path)
  | unreadable (resolved : Path) (reason : Text)
  | fenceCollision (path : Text)
  | upToDate
deriving DecidableEq, Repr

namespace SkipReason

def message : SkipReason → Text
  | .ignored => "\"Ignore next\" comment detected, skipping code block...".toList
  | .noExtension => "No code extension detected, skipping code block...".toList
  | .emptyBlock =>
    "Code block is empty & no preceding embed-directive comment, skipping...".toList
  | .unsupportedExtension extension =>
    "Unsupported file extension [".toList ++ extension ++ "], supported extensions are ".toList ++
      FileType.supportedTags ++ ", skipping code block".toList
  | .unresolvedCommentFamily extension =>
    "File extension ".toList ++ extension ++ (" marked as supported, but comment family could " ++
      "not be determined. Please report this issue.").toList
  | .noDirective extension =>
    "No comment detected in first line for block with extension ".toList ++ extension
  | .noTarget => "No file found in embed line".toList
  | .malformedLineRange path =>
    "Incorrectly formatted line numbering string ".toList ++ path ++
      ", Expecting Github formatting e.g. #L10-L20".toList
  | .fileNotFound path resolved =>
    "Found filename ".toList ++ path ++
      " in comment in first line, but file does not exist at ".toList ++ resolved.text ++ "!".toList
  | .unreadable resolved reason =>
    "Could not read ".toList ++ resolved.text ++ ": ".toList ++ reason
  | .fenceCollision path =>
    "Output snippet for file ".toList ++ path ++ (" contains a code fence. Refusing to embed as " ++
      "that would break the document").toList
  | .upToDate => "No changes required, already up to date".toList

def severity : SkipReason → Severity
  | .noDirective _ | .noTarget | .upToDate => .info
  | .ignored | .noExtension | .emptyBlock => .notice
  | .unsupportedExtension _ => .warning
  | .unresolvedCommentFamily _ | .malformedLineRange _ | .fileNotFound _ _ | .unreadable _ _
  | .fenceCollision _ => .error

def code : SkipReason → String
  | .ignored => "ignored"
  | .noExtension => "no_extension"
  | .emptyBlock => "empty_block"
  | .unsupportedExtension _ => "unsupported_extension"
  | .unresolvedCommentFamily _ => "unresolved_comment_family"
  | .noDirective _ => "no_directive"
  | .noTarget => "no_target"
  | .malformedLineRange _ => "malformed_line_range"
  | .fileNotFound _ _ => "file_not_found"
  | .unreadable _ _ => "unreadable"
  | .fenceCollision _ => "fence_collision"
  | .upToDate => "up_to_date"

end SkipReason
end FenceSync
