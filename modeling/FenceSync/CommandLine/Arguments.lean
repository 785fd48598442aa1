import FenceSync.Embed.Options
/-!
# Arguments

Arguments are read from left to right: switches, settings with a value, and files. The value of a
setting may be attached by `=`, or to a short name as it is; otherwise it is the next argument. It
is looked at when the reading goes on, so an unknown argument right after a bad value is reported
first.
-/
namespace FenceSync

inductive OutputFormat
  | text
  | json
  | github
deriving DecidableEq, Repr

structure Arguments where
  files : List Text
  verify : Bool
  dryRun : Bool
  stdout : Bool
  sourceRoot? : Option Path
  stripComment : Bool
  silent : Bool
  diff : Bool
  format : OutputFormat
  noColor : Bool
  verbose : Bool
  /-- The directory to work in. -/
  path? : Option Path
deriving DecidableEq, Repr

/-- Why arguments do not make a run. -/
inductive ArgumentError
  | unknownArgument
  | argumentConflict
  | invalidValue
  | tooManyValues
  | missingRequiredArgument
  | displayHelp
  | displayVersion
deriving DecidableEq, Repr

def ArgumentError.message : ArgumentError → String
  | .unknownArgument => "unknown argument"
  | .argumentConflict => "an argument cannot be used twice, or not with another one"
  | .invalidValue => "missing or invalid value of an argument"
  | .tooManyValues => "a value where none is expected"
  | .missingRequiredArgument => "no files given"
  | .displayHelp => "usage: [OPTIONS] FILES..."
  | .displayVersion => "version 1"

namespace Arguments

def mode (a : Arguments) : RunMode :=
  if a.verify then .verify else if a.dryRun then .dryRun else if a.stdout then .stdout else .write

inductive Switch
  | verify
  | dryRun
  | stdout
  | stripComment
  | silent
  | diff
  | noColor
  | verbose
deriving DecidableEq, Repr

inductive Setting
  | sourceRoot
  | format
  | path
deriving DecidableEq, Repr

inductive Name
  | switch (s : Switch)
  | setting (s : Setting)
  | help
  | version
deriving DecidableEq, Repr

def longNames : List (String × Name) :=
  [("verify", .switch .verify), ("dry-run", .switch .dryRun), ("stdout", .switch .stdout),
   ("source-root", .setting .sourceRoot), ("strip-embed-comment", .switch .stripComment),
   ("silent", .switch .silent), ("diff", .switch .diff), ("format", .setting .format),
   ("no-color", .switch .noColor), ("verbose", .switch .verbose), ("path", .setting .path),
   ("help", .help), ("version", .version)]

def shortName? : Char → Option Name
  | 'v' => some (.switch .verbose)
  | 'p' => some (.setting .path)
  | 'h' => some .help
  | 'V' => some .version
  | _ => none

def longName? (t : Text) : Option Name :=
  (longNames.find? fun x => x.1.toList = t).map (·.2)

/-- What has been read of the arguments. -/
structure Reading where
  switches : List Switch
  settings : List (Setting × Text)
  files : List Text
  /-- A setting whose value has not come or has not been looked at. -/
  pending : Option (Setting × Option Text)

def formats : List (String × OutputFormat) :=
  [("text", .text), ("json", .json), ("github", .github)]

def format? (t : Text) : Option OutputFormat := (formats.find? fun x => x.1.toList = t).map (·.2)

/-- Paths must not be empty, and formats must be known. -/
def isValid : Setting → Text → Bool
  | .format, t => (format? t).isSome
  | _, t => !t.isEmpty

namespace Reading

def start : Reading := ⟨[], [], [], none⟩

/-- Takes a value in. A setting may be given once. -/
def setValue (r : Reading) (s : Setting) (value : Text) : Except ArgumentError Reading :=
  if r.settings.any fun x => x.1 = s then .error .argumentConflict
  else if isValid s value then .ok { r with settings := (s, value) :: r.settings }
  else .error .invalidValue

/-- Looks at the pending value. -/
def settle (r : Reading) : Except ArgumentError Reading :=
  match r.pending with
  | none => .ok r
  | some (_, none) => .error .invalidValue
  | some (s, some value) => { r with pending := none }.setValue s value

/-- Takes a switch in, which may be given once. -/
def give (r : Reading) : Name → Except ArgumentError Reading
  | .switch s =>
    if r.switches.contains s then .error .argumentConflict
    else .ok { r with switches := s :: r.switches }
  | .help => .error .displayHelp
  | .version => .error .displayVersion
  | .setting s => .ok { r with pending := some (s, none) }

def addFile (r : Reading) (t : Text) : Except ArgumentError Reading :=
  r.settle.map fun r => { r with files := r.files ++ [t] }

/-- Reads an argument such as `--name` or `--name=value`, without the hyphens. -/
def long (r : Reading) (t : Text) : Except ArgumentError Reading :=
  let (name, value?) := match Text.cut? ['='] t with
    | some (name, value) => (name, some value)
    | none => (t, none)
  match longName? name, value? with
  | none, _ => .error .unknownArgument
  | some (.setting s), some value => r.settle >>= fun r => r.setValue s value
  | some name, none => r.settle >>= fun r => r.give name
  | some _, some _ => .error .tooManyValues

/-- Reads an argument such as `-v` or `-pvalue`, without the hyphen. -/
def shorts (r : Reading) : Text → Except ArgumentError Reading
  | [] => .ok r
  | c :: rest =>
    match shortName? c with
    | none => .error .unknownArgument
    | some (.setting s) =>
      r.settle >>= fun r =>
        match rest with
        | [] => r.give (.setting s)
        | '=' :: value => r.setValue s value
        | value => r.setValue s value
    | some name => r.settle >>= fun r => r.give name >>= fun r => r.shorts rest

/-- Reads arguments; after `--`, when `onlyFiles` is set, all are files. -/
def all (onlyFiles : Bool) (r : Reading) : List Text → Except ArgumentError Reading
  | [] => r.settle
  | t :: rest =>
    if onlyFiles then r.addFile t >>= fun r => all true r rest
    else match t, r.pending with
      | ['-', '-'], _ => all true r rest
      | '-' :: '-' :: t, _ => r.long t >>= fun r => all false r rest
      | '-' :: c :: t, _ => r.shorts (c :: t) >>= fun r => all false r rest
      | t, some (s, none) => all false { r with pending := some (s, some t) } rest
      | t, _ => r.addFile t >>= fun r => all false r rest

def has (r : Reading) (s : Switch) : Bool := r.switches.contains s

def value? (r : Reading) (s : Setting) : Option Text := r.settings.lookup s

/-- Of the modes that leave the documents alone only one may be chosen. -/
def hasConflict (r : Reading) : Bool :=
  (r.has .verify && (r.has .dryRun || r.has .stdout)) || (r.has .dryRun && r.has .stdout)

def finish (r : Reading) : Except ArgumentError Arguments :=
  if r.hasConflict then .error .argumentConflict
  else if r.files.isEmpty then .error .missingRequiredArgument
  else .ok
    { files := r.files
      verify := r.has .verify
      dryRun := r.has .dryRun
      stdout := r.has .stdout
      sourceRoot? := (r.value? .sourceRoot).map Path.mk
      stripComment := r.has .stripComment
      silent := r.has .silent
      diff := r.has .diff
      format := ((r.value? .format).bind format?).getD .text
      noColor := r.has .noColor
      verbose := r.has .verbose
      path? := (r.value? .path).map Path.mk }

end Reading

def parse (args : List Text) : Except ArgumentError Arguments :=
  Reading.all false .start args >>= Reading.finish

end Arguments
end FenceSync
