import FenceSync.Files.Lookup
/-!
# Building file trees

Putting entries at paths, with the directories they need, and removing them.
-/
namespace FenceSync.FileSystem

/-- Makes the directory and those it lies in. -/
def makeDirectory (fs : FileSystem) : Location → FileSystem
  | [] => fs
  | name :: parent =>
    let fs := fs.makeDirectory parent
    if (fs.get? (name :: parent)).isSome then fs else fs.set (name :: parent) .directory

/-- The location a path spells from the working directory when no link is followed. -/
def spelled (fs : FileSystem) (p : Path) : Location :=
  p.components.foldl
    (fun at_ c =>
      match c with
      | .root => []
      | .here => at_
      | .up => at_.tail
      | .name n => n :: at_)
    fs.workingDirectory

/-- Puts an entry at a path; a file is written through the links on its way. -/
def place (fs : FileSystem) (p : Path) (e : Entry) : FileSystem :=
  let at_ := fs.spelled p
  match e with
  | .directory => fs.makeDirectory at_
  | .link _ => (fs.makeDirectory at_.tail).set at_ e
  | .file content =>
    let fs := if (fs.locate p.parent).isOk then fs else fs.makeDirectory at_.tail
    match fs.write p content with
    | .ok fs => fs
    | .error _ => fs

/-- The location of the entry itself that a path names, which may be a link. -/
def locateEntry? (fs : FileSystem) (p : Path) : Option Location :=
  match p.components.getLast? with
  | some (.name n) =>
    let parent := if p.parent.bytes.isEmpty then ⟨[Path.dot]⟩ else p.parent
    match fs.locate parent with
    | .ok dir => if (fs.get? (n :: dir)).isSome then some (n :: dir) else none
    | .error _ => none
  | _ => none

/-- Removes an entry with everything in it; `none` when there is no such entry. -/
def remove? (fs : FileSystem) (p : Path) : Option FileSystem :=
  (fs.locateEntry? p).map fun at_ =>
    { fs with entries := fs.entries.filter fun x => !at_.isSuffixOf x.1 }

end FenceSync.FileSystem
