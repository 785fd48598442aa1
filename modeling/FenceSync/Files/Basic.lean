import FenceSync.Path.Basic
/-!
# A file system as data

Directories, regular files and symbolic links, each at a location below the root directory. An entry
counts only when the directories it lies in do; the entries of one directory are listed in the order
in which they stand here. Names are bytes and need not be texts. There are no special files, such
as pipes, sockets and devices, and no permissions: every directory can be listed, every file can be
read and written.
-/
namespace FenceSync

/-- The names on the way to an entry, the innermost first. -/
abbrev Location := List Bytes

/-- Names as they are shown. -/
instance : Coe Location (List Text) := ⟨List.map Text.ofBytes⟩

inductive Entry
  | directory
  | file (content : Bytes)
  | link (target : Path)
deriving DecidableEq

structure FileSystem where
  entries : List (Location × Entry)
  /-- Where relative paths begin. -/
  workingDirectory : Location

inductive FileError
  | notFound
  | notADirectory
  | isADirectory
  | nameTooLong
  | tooManyLinks
  | nulInName
  | notText
deriving DecidableEq, Repr

def FileError.message : FileError → String
  | .notFound => "No such file or directory (os error 2)"
  | .notADirectory => "Not a directory (os error 20)"
  | .isADirectory => "Is a directory (os error 21)"
  | .nameTooLong => "File name too long (os error 36)"
  | .tooManyLinks => "Too many levels of symbolic links (os error 40)"
  | .nulInName => "file name contained an unexpected NUL byte"
  | .notText => "stream did not contain valid UTF-8"

namespace FileSystem

/-- The root directory is always there. -/
def get? (fs : FileSystem) (at_ : Location) : Option Entry :=
  if at_ = [] then some .directory else fs.entries.lookup at_

/-- The names of the entries of a directory. -/
def children (fs : FileSystem) (dir : Location) : List Bytes :=
  fs.entries.filterMap fun (at_, _) =>
    match at_ with
    | name :: parent => if parent = dir then some name else none
    | [] => none

/-- The locations of all directories. -/
def directories (fs : FileSystem) : List Location :=
  [] :: fs.entries.filterMap fun (at_, e) => if e = .directory then some at_ else none

/-- Puts an entry at a location, in the place of the entry that is there. -/
def set (fs : FileSystem) (at_ : Location) (e : Entry) : FileSystem :=
  { fs with entries :=
      if fs.entries.any fun x => x.1 = at_ then
        fs.entries.map fun x => if x.1 = at_ then (at_, e) else x
      else fs.entries ++ [(at_, e)] }

/-- The path of the working directory. -/
def workingPath (fs : FileSystem) : Path :=
  ⟨Path.slash :: [Path.slash].intercalate fs.workingDirectory.reverse⟩

theorem mem_directories {fs : FileSystem} {at_ : Location} (h : fs.get? at_ = some .directory) :
    at_ ∈ fs.directories := by
  simp only [get?] at h
  split at h
  · next h' => simp [directories, h']
  · obtain ⟨l₁, l₂, heq, -⟩ := List.lookup_eq_some_iff.1 h
    rw [directories, heq]
    exact List.mem_cons_of_mem _ (List.mem_filterMap.2 ⟨(at_, .directory), by simp, by simp⟩)

end FileSystem
end FenceSync
