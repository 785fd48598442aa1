import FenceSync.Files.Lookup
/-!
# Walking a directory tree

The walk lists the entries below a directory, one directory after the other and links to directories
included. It opens every directory, known by its location, at most once: reaching one a second time
is an error, so the walk ends however the links run.
-/
namespace FenceSync

/-- Which entries a walk leaves out and which files it selects. -/
structure Filters where
  ignores : Path → Bool → Bool
  selects : Path → Bool

namespace FileSystem

/-- The location of the directory that a path names. -/
def directoryAt? (fs : FileSystem) (p : Path) : Option Location :=
  match fs.locate p with
  | .error _ => none
  | .ok at_ => if fs.get? at_ = some .directory then some at_ else none

theorem mem_directories_of_directoryAt? {fs : FileSystem} {p : Path} {at_ : Location}
    (h : fs.directoryAt? p = some at_) : at_ ∈ fs.directories := by
  simp only [directoryAt?] at h
  split at h
  · simp at h
  · split at h
    · next hd => cases h; exact mem_directories hd
    · simp at h

/-- The number of entries in those of the directories that are not visited yet. -/
def unseen (fs : FileSystem) (visited : List Location) : List Location → Nat
  | [] => 0
  | at_ :: rest =>
    (if at_ ∈ visited then 0 else (fs.children at_).length) + fs.unseen visited rest

theorem unseen_cons_le (fs : FileSystem) (visited : List Location) (at_ : Location)
    (dirs : List Location) : fs.unseen (at_ :: visited) dirs ≤ fs.unseen visited dirs := by
  induction dirs with
  | nil => exact Nat.le_refl 0
  | cons dir dirs ih =>
    simp only [unseen, List.mem_cons]
    refine Nat.add_le_add ?_ ih
    by_cases h : dir ∈ visited <;> simp [h]
    split <;> omega

/-- Opening a directory counts its entries off. -/
theorem unseen_open (fs : FileSystem) {visited dirs : List Location} {at_ : Location}
    (hd : at_ ∈ dirs) (hv : at_ ∉ visited) :
    fs.unseen (at_ :: visited) dirs + (fs.children at_).length ≤ fs.unseen visited dirs := by
  induction dirs with
  | nil => cases hd
  | cons dir dirs ih =>
    rcases List.mem_cons.1 hd with rfl | hd
    · have h := unseen_cons_le fs visited at_ dirs
      simp only [unseen, hv, List.mem_cons, true_or, if_true, if_false]
      omega
    · have h := ih hd
      simp only [unseen, List.mem_cons]
      by_cases he : dir = at_
      · subst he
        simp only [true_or, if_true, hv, if_false]
        omega
      · simp only [he, false_or]
        omega

end FileSystem

namespace Walk

/-- Directories that are never entered, by name: hidden ones, dependencies and build output. -/
def isSkippedName (name : Text) : Bool :=
  Text.startsWith ['.'] name || name = "node_modules".toList || name = "target".toList

/-- Only a name that is a text can be skipped. -/
def hasSkippedName (p : Path) : Bool :=
  match p.components.getLast? with
  | some (.name n) => (Text.ofBytes? n).any isSkippedName
  | _ => false

/-- The paths of a directory's entries. -/
def listing (fs : FileSystem) (dir : Path) (at_ : Location) : List Path :=
  (fs.children at_).map fun name => dir.join ⟨name⟩

/-- Goes through pending entries and what lies below them, and lists the files selected. Fails with
the path at which a directory is reached a second time. -/
def visit (fs : FileSystem) (filters : Filters) (visited : List Location) :
    List Path → Except Path (List Path)
  | [] => .ok []
  | p :: pending =>
    match _directory : fs.directoryAt? p with
    | none =>
      if filters.ignores p false || !filters.selects p then visit fs filters visited pending
      else (visit fs filters visited pending).map (p :: ·)
    | some at_ =>
      if hasSkippedName p || filters.ignores p true then visit fs filters visited pending
      else if _new : at_ ∈ visited then .error p
      else visit fs filters (at_ :: visited) (listing fs p at_ ++ pending)
termination_by pending => pending.length + fs.unseen visited fs.directories
decreasing_by
  · simp
  · simp
  · simp
  · have h := fs.unseen_open (FileSystem.mem_directories_of_directoryAt? _directory) _new
    simp only [listing, List.length_append, List.length_map, List.length_cons]
    omega

/-- The files selected below a directory; none when there is no such directory. -/
def files (fs : FileSystem) (filters : Filters) (root : Path) : Except Path (List Path) :=
  match fs.directoryAt? root with
  | none => .ok []
  | some at_ => visit fs filters [at_] (listing fs root at_)

end Walk
end FenceSync
