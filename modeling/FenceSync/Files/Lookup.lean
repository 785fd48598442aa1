import FenceSync.Files.Basic
/-!
# Looking paths up

A path is followed part by part from the root or the working directory. Each part but the last must
be a directory, `..` leads to the directory that holds the current one, and a symbolic link is
replaced by the parts of its target; at most `linkLimit` links are followed.
-/
namespace FenceSync.FileSystem

open Path (dot)

def linkLimit : Nat := 40

/-- The most bytes that a name may have. -/
def nameLimit : Nat := 255

/-- A path must have fewer bytes than this. -/
def pathLimit : Nat := 4096

/-- Where the parts lead from a location, up to the first symbolic link: `jump` tells where its
target and the parts behind it lead. The last name need not have an entry. -/
def followUntilLink (fs : FileSystem)
    (jump : Location → Path → List Bytes → Except FileError Location) (here : Location) :
    List Bytes → Except FileError Location
  | [] => .ok here
  | part :: rest =>
    if fs.get? here ≠ some .directory then .error .notADirectory
    else if part = [] || part = [dot] then fs.followUntilLink jump here rest
    else if part = [dot, dot] then fs.followUntilLink jump here.tail rest
    else if nameLimit < part.length then .error .nameTooLong
    else match fs.get? (part :: here) with
      | none => if rest = [] then .ok (part :: here) else .error .notFound
      | some (.link target) => jump here target rest
      | some _ => fs.followUntilLink jump (part :: here) rest

/-- Where the parts lead when at most so many symbolic links may be followed. -/
def follow (fs : FileSystem) : Nat → Location → List Bytes → Except FileError Location
  | 0 => fs.followUntilLink fun _ _ _ => .error .tooManyLinks
  | links + 1 => fs.followUntilLink fun here target rest =>
      if target.bytes = [] then .error .notFound
      else fs.follow links (if target.isAbsolute then [] else here) (target.parts ++ rest)

/-- Where a path leads, also when nothing is there yet. -/
def reach (fs : FileSystem) (p : Path) : Except FileError Location :=
  if 0 ∈ p.bytes then .error .nulInName
  else if p.bytes = [] then .error .notFound
  else if pathLimit ≤ p.bytes.length then .error .nameTooLong
  else fs.follow linkLimit (if p.isAbsolute then [] else fs.workingDirectory) p.parts

/-- The location of what a path names, all links followed. -/
def locate (fs : FileSystem) (p : Path) : Except FileError Location :=
  match fs.reach p with
  | .error e => .error e
  | .ok at_ => if (fs.get? at_).isSome then .ok at_ else .error .notFound

def entryAt? (fs : FileSystem) (p : Path) : Option Entry :=
  match fs.locate p with
  | .error _ => none
  | .ok at_ => fs.get? at_

def exists? (fs : FileSystem) (p : Path) : Bool := (fs.entryAt? p).isSome

def isFile (fs : FileSystem) (p : Path) : Bool :=
  match fs.entryAt? p with
  | some (.file _) => true
  | _ => false

def isDirectory (fs : FileSystem) (p : Path) : Bool := fs.entryAt? p == some .directory

/-- The text of a file in UTF-8. -/
def decode (content : Bytes) : Except FileError Text :=
  match Text.ofBytes? content with
  | some t => .ok t
  | none => .error .notText

theorem decode_bytes (t : Text) : decode t.bytes = .ok t := by
  simp [decode, Text.ofBytes?_bytes]

def readBytes (fs : FileSystem) (p : Path) : Except FileError Bytes :=
  match fs.locate p with
  | .error e => .error e
  | .ok at_ =>
    match fs.get? at_ with
    | some (.file content) => .ok content
    | some .directory => .error .isADirectory
    | _ => .error .notFound

def read (fs : FileSystem) (p : Path) : Except FileError Text := fs.readBytes p >>= decode

/-- Writes a file, which is made when it does not exist. -/
def write (fs : FileSystem) (p : Path) (content : Bytes) : Except FileError FileSystem :=
  match fs.reach p with
  | .error e => .error e
  | .ok at_ =>
    if fs.get? at_ = some .directory then .error .isADirectory
    else .ok (fs.set at_ (.file content))

end FenceSync.FileSystem
