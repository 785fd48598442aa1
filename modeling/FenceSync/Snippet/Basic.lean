import FenceSync.Embed.Options
import FenceSync.Embed.Skip
import FenceSync.Files.Lookup
import FenceSync.Path.Normal
import FenceSync.Snippet.Lines
import FenceSync.Document.Fence
/-!
# Snippets

The part of a source file that fills a block: the selected lines, without the indentation they
share, joined with the line ending of the document and trimmed. A snippet that holds a delimiter is
refused.
-/
namespace FenceSync

structure Snippet where
  body : Text
  /-- The number of lines that were selected. -/
  lineCount : Nat
deriving DecidableEq, Repr

namespace Snippet

/-- The file that an embed path names in a document. -/
def sourcePath (options : EmbedOptions) (document : Path) (path : Text) : Path :=
  Path.resolve options.workingDir (options.sourceRoot?.getD document.parent) ⟨path⟩

/-- The text of the lines of a source that fills a block. -/
def bodyOf (e : LineEnding) (selected : List Text) : Text :=
  Text.trim (e.join (dedent (minimumIndent selected) selected))

def ofTarget (fs : FileSystem) (options : EmbedOptions) (document : Path) (e : LineEnding)
    (target : Target) : Except SkipReason Snippet :=
  let resolved := sourcePath options document target.path
  if !fs.exists? resolved then .error (.fileNotFound target.path resolved)
  else match fs.read resolved with
    | .error cause => .error (.unreadable resolved cause.message.toList)
    | .ok content =>
      let selected := select target.range (lines content)
      let body := bodyOf e selected
      if Text.contains delimiter body then .error (.fenceCollision target.path)
      else .ok ⟨body, selected.length⟩

end Snippet
end FenceSync
