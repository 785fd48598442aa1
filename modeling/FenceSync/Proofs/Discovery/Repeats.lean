import FenceSync.Proofs.Discovery.Documents
/-!
# Where a search stops

A search for documents fails at the first directory that it has opened before, whichever way led
there. It need not be one of the directories that the way goes through: a link to a directory beside
it is enough.
-/
namespace FenceSync

/-- An entry that a walk comes to, and the directories on the way to it, the nearest first. -/
structure Walk.Stop where
  path : Path
  above : List Path
deriving DecidableEq

namespace Walk

def stops (fs : FileSystem) (dir : Stop) (at_ : Location) : List Stop :=
  (listing fs dir.path at_).map fun p => ⟨p, dir.path :: dir.above⟩

section

variable (fs : FileSystem) (enters : Path → Location → Prop) (root : Path)

/-- How far a walk comes that remembers nothing: the directories opened, the last one first, and the
stops still ahead. -/
inductive Comes : List Path → List Stop → Prop
  | start {at_} (hd : fs.directoryAt? root = some at_) : Comes [root] (stops fs ⟨root, []⟩ at_)
  | pass {opened stop ahead} (h : Comes opened (stop :: ahead))
      (hs : ∀ at_, ¬enters stop.path at_) : Comes opened ahead
  | enter {opened stop ahead at_} (h : Comes opened (stop :: ahead))
      (hs : enters stop.path at_) : Comes (stop.path :: opened) (stops fs stop at_ ++ ahead)

end

variable {fs : FileSystem} {filters : Filters} {root p : Path} {opened : List Path}
  {ahead : List Stop} {visited : List Location} {pending : List Path}

/-- A walk stays among stops that hold those at the root and all that are inside one of them. -/
theorem Comes.mem_of_closed {enters : Path → Location → Prop} {all : List Stop}
    (h : Comes fs enters root opened ahead)
    (hstart : ∀ at_ ∈ fs.directoryAt? root, stops fs ⟨root, []⟩ at_ ⊆ all)
    (hinside : ∀ stop ∈ all, ∀ at_, enters stop.path at_ → stops fs stop at_ ⊆ all) :
    ∀ stop ∈ ahead, stop ∈ all := by
  induction h with
  | start hd => exact fun stop hstop => hstart _ hd hstop
  | pass h hs ih => exact fun stop hstop => ih stop (List.mem_cons_of_mem _ hstop)
  | @enter opened stop ahead at_ h hs ih =>
    intro next hnext
    rcases List.mem_append.1 hnext with hnext | hnext
    · exact hinside stop (ih stop List.mem_cons_self) at_ hs hnext
    · exact ih next (List.mem_cons_of_mem _ hnext)

end Walk

namespace Discovery

section

variable (fs : FileSystem) (root : Path) (options : DiscoveryOptions)

def Opens (p : Path) (at_ : Location) : Prop :=
  fs.directoryAt? p = some at_ ∧ ¬Barred p ∧ Kept fs root options p true

end

variable {fs : FileSystem} {root : Path} {options : DiscoveryOptions} {inputs : List Text}

end Discovery

end FenceSync
