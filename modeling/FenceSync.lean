import FenceSync.Main
import FenceSync.Proofs.Document.Placed
import FenceSync.Proofs.Document.Crlf
import FenceSync.Proofs.Embed.Structure
import FenceSync.Proofs.Embed.Idempotence
import FenceSync.Proofs.Embed.Frame
import FenceSync.Proofs.Embed.Crlf
import FenceSync.Proofs.CommandLine.Arguments
import FenceSync.Proofs.CommandLine.Reports
import FenceSync.Proofs.CommandLine.Verify
import FenceSync.Proofs.CommandLine.Failures
import FenceSync.Proofs.CommandLine.Formats
import FenceSync.Proofs.Embed.Stripped
import FenceSync.Proofs.Embed.Lines
import FenceSync.Proofs.Embed.Parts
import FenceSync.Proofs.Embed.Independence
import FenceSync.Proofs.Discovery.Repeats
import FenceSync.Proofs.Snippet.Source
import FenceSync.Proofs.CommandLine.Roots
import FenceSync.Proofs.Directive.Target
import FenceSync.Proofs.Directive.Preceding
import FenceSync.Proofs.Snippet.Indent
import FenceSync.Proofs.Embed.Reasons
import FenceSync.Proofs.Path.Folding
import FenceSync.Proofs.Document.ByLines
import FenceSync.Proofs.Discovery.Strays
import FenceSync.Proofs.Discovery.Ends
import FenceSync.Proofs.Discovery.Intended
import FenceSync.Proofs.Snippet.Selected
