import FenceSync.Failure
import FenceSync.Files.Lookup
import FenceSync.Toml.Document
/-!
# Configuration

The settings of a project, in a TOML file at its root. Unknown settings are read and ignored; a
known one of the wrong type and a number that cannot be held make the file invalid.
-/
namespace FenceSync

structure Config where
  /-- Where embed paths begin. -/
  sourceRoot? : Option Path
  /-- Whether blocks are written without their comment line. -/
  stripComment : Bool
  /-- Whether the ignore file is left unread. -/
  disableGitignore : Bool
  /-- Exclusion rules. -/
  exclude : List Text
deriving DecidableEq, Repr

namespace Config

/-- The files that may hold the settings, the first that exists does. -/
def candidates : List String := ["mdembed.toml", ".mdembed.toml", ".config/mdembed.toml"]

def textSetting? : Option Toml.Value → Option (Option Text)
  | none => some none
  | some (.string t) => some (some t)
  | some _ => none

def flagSetting? : Option Toml.Value → Option Bool
  | none => some false
  | some (.boolean b) => some b
  | some _ => none

def patterns? : Option Toml.Value → Option (List Text)
  | none => some []
  | some (.array values) => values.mapM fun
    | .string t => some t
    | _ => none
  | some _ => none

/-- The exclusion rules: in a table, or as the first element of an array, whose other elements are
not read. A moment is a table of no settings. -/
def exclude? : Option Toml.Value → Option (List Text)
  | none => some []
  | some (.table _ entries) =>
    if Toml.entriesReadable entries then patterns? (entries.lookup "patterns".toList) else none
  | some (.array values) => patterns? values.head?
  | some .moment => some []
  | some _ => none

/-- Whether the numbers of a setting fit; of the exclusion rules `exclude?` decides what is read. -/
def isReadable (setting : Text × Toml.Value) : Bool :=
  setting.1 = "exclude".toList || setting.2.isReadable

def ofEntries? (entries : Toml.Entries) : Option Config := do
  guard (entries.all isReadable)
  let sourceRoot? ← textSetting? (entries.lookup "source_root".toList)
  let stripComment ← flagSetting? (entries.lookup "strip_embed_comment".toList)
  let disableGitignore ← flagSetting? (entries.lookup "disable_gitignore".toList)
  let exclude ← exclude? (entries.lookup "exclude".toList)
  return ⟨sourceRoot?.map Path.mk, stripComment, disableGitignore, exclude⟩

def parse (content : Text) : Except Failure Config :=
  match Toml.parse content with
  | none => .error (.configParse "invalid TOML".toList)
  | some entries =>
    match ofEntries? entries with
    | none => .error (.configParse "invalid type of a setting".toList)
    | some config => .ok config

/-- The file that holds the settings of a project. -/
def path? (fs : FileSystem) (root : Path) : Option Path :=
  (candidates.map fun name => root.join ⟨name.toList⟩).find? fs.isFile

/-- The settings of a project, if it has any. -/
def load (fs : FileSystem) (root : Path) : Except Failure (Option Config) :=
  match path? fs root with
  | none => .ok none
  | some path =>
    match fs.read path with
    | .error cause => .error (.io cause)
    | .ok content => (parse content).map some

end Config
end FenceSync
