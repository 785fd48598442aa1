import FenceSync.CommandLine.Arguments
import FenceSync.CommandLine.Style
import FenceSync.Diff.Hunks
import FenceSync.Embed.Basic
import FenceSync.Json
/-!
# Reporting

What a run says about its documents: a log for people, annotations or a JSON summary for machines,
and differences. Standard output belongs to the document in stdout mode and otherwise to what
machines read if there is any; the log then goes to standard error.
-/
namespace FenceSync

/-- What a run does, in order. -/
inductive Event
  | stdout (text : Text)
  | stderr (text : Text)
  | write (document : Path) (text : Text)
deriving DecidableEq, Repr

structure Reporter where
  format : OutputFormat
  mode : RunMode
  silent : Bool
  stripComment : Bool
  colors : Bool

namespace Reporter

variable (r : Reporter)

def logsToStderr : Bool := r.mode = .stdout || r.format ≠ .text

/-- A line of the log. -/
def log (isError : Bool) (line : Text) : List Event :=
  if r.silent then []
  else if isError || r.logsToStderr then [.stderr (line ++ ['\n'])]
  else [.stdout (line ++ ['\n'])]

/-- A line for machines. -/
def machine (line : Text) : List Event :=
  if r.mode = .stdout then [.stderr (line ++ ['\n'])] else [.stdout (line ++ ['\n'])]

def replacedMessage (b : Block) (lineCount : Nat) : Text :=
  "Embedded ".toList ++ Text.ofNat lineCount ++ " lines".toList ++
    (if r.stripComment then " without comment line".toList else []) ++ " from file ".toList ++
    b.target?.getD []

def severityStyle : Severity → Style
  | .info => .dimmed
  | .notice => .blue
  | .warning => .yellow
  | .error => .red

def blockMessage (b : Block) : Text :=
  match b.outcome with
  | .replaced _ lineCount =>
    let style := if r.mode = .verify then Style.yellow else .green
    style.apply r.colors (r.replacedMessage b lineCount)
  | .unchanged reason => (severityStyle reason.severity).apply r.colors reason.message

/-- An annotation of a line of a document. -/
def remarkLine (kind : String) (rel : Text) (b : Block) (message : Text) : Text :=
  "::".toList ++ kind.toList ++ " file=".toList ++ rel ++ ",line=".toList ++
    Text.ofNat b.startLine ++ "::".toList ++ message

/-- The annotation of a block: a warning if it is out of date, an error if it cannot be filled. -/
def remark? (rel : Text) (b : Block) : Option Text :=
  match b.outcome with
  | .replaced _ _ =>
    if r.mode = .verify then
      some (remarkLine "warning" rel b
        ("Embedded block is out of date with ".toList ++ b.target?.getD []))
    else none
  | .unchanged reason =>
    if reason.severity = .error then some (remarkLine "error" rel b reason.message) else none

def isError (b : Block) : Bool := b.outcome.skipReason?.any (·.severity = .error)

def block (rel : Text) (b : Block) : List Event :=
  let place := "   ".toList ++ rel ++ "#L".toList ++ Text.ofNat b.startLine ++ "-L".toList ++
    Text.ofNat b.endLine
  r.log (isError b) (Style.dimmed.apply r.colors place ++ ' ' :: r.blockMessage b) ++
    if r.format = .github then ((r.remark? rel b).map r.machine).getD [] else []

def blockJson (b : Block) : Json :=
  let (status, severity, message) : String × Json × Text :=
    match b.outcome with
    | .replaced _ lineCount => ("replaced", .null, r.replacedMessage b lineCount)
    | .unchanged reason =>
      (reason.code, .string reason.severity.name.toList, reason.message)
  .object [
    ("end_line", .number b.endLine),
    ("extension", Json.ofOption .string b.extension?),
    ("message", .string message),
    ("severity", severity),
    ("start_line", .number b.startLine),
    ("status", .string status.toList),
    ("target", Json.ofOption .string b.target?)]

def documentJson (rel : Text) (report : Report) : Json :=
  .object [
    ("blocks", .array (report.blocks.map r.blockJson)),
    ("changed", .boolean report.changed),
    ("file", .string rel),
    ("replaced", .number report.replacedCount)]

/-- The summary of a run. -/
def summary (drift : Bool) (documents : List Json) : Json :=
  .object [
    ("documents", .array documents),
    ("mode", .string r.mode.name.toList),
    ("ok", .boolean !drift)]

/-- A line of a difference. A line without an ending gets one, and an empty line after it. -/
def change (c : Diff.Change) : Text :=
  let ends := match c.line.getLast? with
    | some x => x = '\n' || x = '\r'
    | none => false
  let shown := if ends then c.line else c.line ++ ['\n']
  let line := match c.mark with
    | .kept => "   ".toList ++ shown
    | .deleted => "  ".toList ++ Style.red.apply r.colors ('-' :: shown)
    | .inserted => "  ".toList ++ Style.green.apply r.colors ('+' :: shown)
  if ends then line else line ++ ['\n']

/-- The difference between a document and its new form. -/
def difference (rel current expected : Text) : List Event :=
  [.stderr (Style.red.apply r.colors ("--- ".toList ++ rel) ++ ['\n']),
   .stderr (Style.green.apply r.colors ("+++ ".toList ++ rel ++ " (embedded)".toList) ++ ['\n'])] ++
  (Diff.hunks (Diff.lines current) (Diff.lines expected)).flatten.map fun c => .stderr (r.change c)

end Reporter
end FenceSync
