import FenceSync.Discovery.Exclusion
import FenceSync.Discovery.Walk
import FenceSync.Failure
/-!
# Finding the documents

An argument that names a file is a document, whatever the exclusion rules say. All other arguments
are patterns for the files below the root. The documents come in the order of their paths, each
once.
-/
namespace FenceSync

structure DiscoveryOptions where
  /-- Exclusion rules of the configuration. -/
  exclude : List Text
  /-- Whether the ignore file of the root is left unread. -/
  disableGitignore : Bool
deriving DecidableEq, Repr

namespace Discovery

/-- An argument without a leading `./`. -/
def bare (input : Text) : Text := Text.dropStart ['.', '/'] input

def inputPath (root : Path) (input : Text) : Path := root.join ⟨bare input⟩

/-- The globs of the patterns, up to the first that cannot be read. -/
def globs : List Text → Except Failure (List Glob)
  | [] => .ok []
  | p :: ps =>
    match Glob.ofPattern false (bare p) with
    | .error fault => .error (.invalidPattern p (Glob.faultIn (bare p) fault))
    | .ok glob => (globs ps).map (glob :: ·)

/-- A file is selected by its path below the root or by its whole path. -/
def selects (globs : List Glob) (root p : Path) : Bool :=
  (match root.relativeTo? p with
    | some rest => globs.any fun g => g.accepts rest.bytes
    | none => false) ||
    globs.any fun g => g.accepts p.bytes

/-- The lines of a file up to the first that is no text, with no byte order mark in front. -/
def textLines (content : Bytes) : List Text :=
  let pieces := content.splitOn 10
  let decoded := pieces.map FileSystem.decode
  let texts := (decoded.takeWhile (·.isOk)).filterMap (·.toOption)
  let ended := texts.take (pieces.length - 1)
  match ended.map Text.dropReturn ++ texts.drop (pieces.length - 1) with
  | first :: rest => first.dropWhile (· = '\uFEFF') :: rest
  | [] => []

def ignoreFileName : Path := ⟨".gitignore".toList⟩

/-- The rules of the ignore file at the root, if it can be read. -/
def ignoreRules (fs : FileSystem) (root : Path) : Exclusions :=
  match fs.readBytes (root.join ignoreFileName) with
  | .ok content => Exclusions.ofLines root (textLines content)
  | .error _ => ⟨root, []⟩

def excludeRules (root : Path) (patterns : List Text) : Except Failure Exclusions :=
  match Exclusions.ofPatterns root patterns with
  | .ok rules => .ok rules
  | .error (pattern, reason) =>
    .error (.configParse ("invalid exclude pattern `".toList ++ pattern ++ "`: ".toList ++ reason))

/-- The files below the root that the patterns select. -/
def matching (fs : FileSystem) (root : Path) (options : DiscoveryOptions) (patterns : List Text) :
    Except Failure (List Path) :=
  match globs patterns with
  | .error failure => .error failure
  | .ok globs =>
    match excludeRules root options.exclude with
    | .error failure => .error failure
    | .ok exclude =>
      let gitignore := if options.disableGitignore then ⟨root, []⟩ else ignoreRules fs root
      let filters : Filters :=
        ⟨fun p isDirectory => gitignore.ignores p isDirectory || exclude.ignores p isDirectory,
          selects globs root⟩
      match Walk.files fs filters root with
      | .error p => .error (.symlinkCycle p.text)
      | .ok found => .ok found

/-- The documents that the arguments name. -/
def collect (fs : FileSystem) (root : Path) (inputs : List Text) (options : DiscoveryOptions) :
    Except Failure (List Path) :=
  let isFile := fun input => fs.isFile (inputPath root input)
  let named := (inputs.filter isFile).map (inputPath root)
  let patterns := inputs.filter fun input => !isFile input
  let found := if patterns.isEmpty then .ok [] else matching fs root options patterns
  match found with
  | .error failure => .error failure
  | .ok found =>
    let documents := Path.sortDistinct (named ++ found)
    if documents.isEmpty then .error (.noInputFiles (Text.join ", ".toList inputs))
    else .ok documents

end Discovery
end FenceSync
