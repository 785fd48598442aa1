import FenceSync.CommandLine.Report
import FenceSync.Config
import FenceSync.Discovery.Basic
/-!
# Runs

A run of the program as a function of the file system and the arguments. Documents are processed in
order, each as the writes before it left it, and a document that cannot be read ends the run.
-/
namespace FenceSync

/-- How a run ends. -/
inductive Ending
  | done
  /-- A block is out of date, in verify mode. -/
  | drift
  | badArguments (cause : ArgumentError)
  | failed (cause : Failure)
  /-- A document could not be read or written. -/
  | stopped (message : Text)
deriving DecidableEq, Repr

/-- The exit status. -/
def Ending.status : Ending → Nat
  | .done => 0
  | .drift => 1
  | .badArguments .displayHelp | .badArguments .displayVersion => 0
  | .badArguments _ | .failed _ | .stopped _ => 2

structure Transcript where
  events : List Event
  ending : Ending
  files : FileSystem

namespace Transcript

def stdout (t : Transcript) : Text :=
  t.events.flatMap fun
    | .stdout text => text
    | _ => []

def stderr (t : Transcript) : Text :=
  t.events.flatMap fun
    | .stderr text => text
    | _ => []

/-- The documents written, with their new texts. -/
def writes (t : Transcript) : List (Path × Text) :=
  t.events.filterMap fun
    | .write document text => some (document, text)
    | _ => none

end Transcript

namespace Run

/-- A document's path as it is shown. -/
def shown (root document : Path) : Text := ((root.relativeTo? document).getD document).text

/-- The options of the embedding, from the arguments and the settings. -/
def embedOptions (args : Arguments) (config? : Option Config) (root : Path) : EmbedOptions :=
  { sourceRoot? := args.sourceRoot?.or (config?.bind Config.sourceRoot?)
    stripComment := args.stripComment || (config?.map Config.stripComment).getD false
    mode := args.mode
    workingDir := root }

def discoveryOptions (config? : Option Config) : DiscoveryOptions :=
  ⟨(config?.map Config.exclude).getD [], (config?.map Config.disableGitignore).getD false⟩

/-- What a run has done so far. -/
structure Progress where
  files : FileSystem
  events : List Event
  /-- Summaries of the documents processed. -/
  summaries : List Json
  drift : Bool

variable (args : Arguments) (r : Reporter) (options : EmbedOptions) (root : Path)

/-- Whether the new form of the document is written back. -/
def writesBack (report : Report) : Bool := options.mode = .write && report.changed

/-- The file system after a document has been processed. -/
def filesAfter (fs : FileSystem) (document : Path) (report : Report) :
    Except FileError FileSystem :=
  if writesBack options report then fs.write document report.output.bytes else .ok fs

/-- What is said about a document before its new form is used. -/
def blockEvents (document : Path) (report : Report) : List Event :=
  let rel := shown root document
  let notice (text : Text) := r.log false (Style.magenta.apply r.colors text)
  notice ("  Analysing ".toList ++ rel ++ "...".toList) ++
    report.blocks.flatMap (r.block rel) ++
    if writesBack options report then
      notice ("  Writing ".toList ++ rel ++ " with embedded changes.".toList)
    else []

/-- The use of a document's new form: it is written back or printed, and what changed is shown. -/
def useEvents (document : Path) (source : Text) (report : Report) : List Event :=
  (if writesBack options report then [.write document report.output] else []) ++
    (if options.mode = .stdout then [.stdout report.output] else []) ++
    if args.diff && report.changed then
      r.difference (shown root document) source report.output
    else []

/-- Processes one document; the message tells why the run stops there. -/
def step (p : Progress) (document : Path) : Except (Progress × Text) Progress :=
  let rel := shown root document
  match p.files.read document with
  | .error cause =>
    .error (p, "failed to read ".toList ++ rel ++ ": ".toList ++ cause.message.toList)
  | .ok source =>
    let report := Document.embed p.files options document source
    let events := p.events ++ blockEvents r options root document report
    match filesAfter options p.files document report with
    | .error cause =>
      .error ({ p with events },
        "failed to write ".toList ++ rel ++ ": ".toList ++ cause.message.toList)
    | .ok files =>
      .ok
        { files
          events := events ++ useEvents args r options root document source report
          summaries := p.summaries ++ [r.documentJson rel report]
          drift := p.drift || (options.mode = .verify && report.changed) }

/-- Processes documents in order. -/
def steps (p : Progress) : List Path → Except (Progress × Text) Progress
  | [] => .ok p
  | document :: rest =>
    match step args r options root p document with
    | .error stop => .error stop
    | .ok p => steps p rest

/-- What is said at the end of a run that was not stopped. -/
def closing (p : Progress) : List Event :=
  (if args.format = .json then r.machine (r.summary p.drift p.summaries).render else []) ++
    if p.drift then r.log true (Style.red.apply r.colors "Diff detected, exiting 1".toList) else []

/-- Processes the documents of a run and closes it. -/
def process (fs : FileSystem) (documents : List Path) : Transcript :=
  match steps args r options root ⟨fs, [], [], false⟩ documents with
  | .error (p, message) =>
    let line := Style.red.apply r.colors "error:".toList ++ ' ' :: message ++ ['\n']
    ⟨p.events ++ [.stderr line], .stopped message, p.files⟩
  | .ok p => ⟨p.events ++ closing args r p, if p.drift then .drift else .done, p.files⟩

/-- The settings and the documents of a run, or why it cannot begin. -/
def prepare (fs : FileSystem) : Except Failure (Option Config × List Path) :=
  match Config.load fs root with
  | .error cause => .error cause
  | .ok config? =>
    match Discovery.collect fs root args.files (discoveryOptions config?) with
    | .error cause => .error cause
    | .ok documents =>
      if args.mode = .stdout && 1 < documents.length then
        .error (.stdoutWithMultipleFiles documents.length)
      else .ok (config?, documents)

/-- A run with arguments already read; `colors` tells whether the terminal may be coloured. -/
def withArguments (fs : FileSystem) (colors : Bool) (args : Arguments) : Transcript :=
  let root := args.path?.getD fs.workingPath
  match prepare args root fs with
  | .error cause => ⟨[], .failed cause, fs⟩
  | .ok (config?, documents) =>
    let options := embedOptions args config? root
    let r : Reporter :=
      ⟨args.format, args.mode, args.silent, options.stripComment, colors && !args.noColor⟩
    process args r options root fs documents

/-- A run of the program. -/
def start (fs : FileSystem) (colors : Bool) (args : List Text) : Transcript :=
  match Arguments.parse args with
  | .error cause => ⟨[], .badArguments cause, fs⟩
  | .ok args => withArguments fs colors args

end Run
end FenceSync
