import FenceSync.Proofs.Discovery.Walk
import FenceSync.Proofs.Files.Entries
import Mathlib.Data.Set.Finite.Basic
/-!
# Why a walk ends

Names can lead on without end when links lead round in a circle. A walk ends all the same, in
whatever order directories list their entries: it opens no directory twice, so every entry that it
comes to is accounted for by the directory that lists it, and it makes no more turns than there are
entries.
-/
namespace FenceSync

namespace FileSystem

/-- The names lead from one directory to another, each to an entry of the directory before it and
through a link on to where that leads. Every name is followed by itself, so that the limits on the
length of a path and on its links do not matter. -/
inductive Leads (fs : FileSystem) : Location → List Bytes → Location → Prop
  | here {at_} : Leads fs at_ [] at_
  | on {at_ name next names last} (hn : name ∈ fs.children at_)
      (hnext : fs.follow linkLimit at_ [name] = .ok next) (hd : fs.get? next = some .directory)
      (h : Leads fs next names last) : Leads fs at_ (name :: names) last

variable {fs : FileSystem} {a b c : Location} {names names' : List Bytes}

theorem Leads.append (h : fs.Leads a names b) (h' : fs.Leads b names' c) :
    fs.Leads a (names ++ names') c := by
  induction h with
  | here => exact h'
  | on hn hnext hd _ ih => exact .on hn hnext hd (ih h')

theorem Leads.replicate (h : fs.Leads a names a) (n : Nat) :
    fs.Leads a (List.replicate n names).flatten a := by
  induction n with
  | zero => exact .here
  | succ n ih => exact h.append ih

end FileSystem

namespace Walk

/-- Where a walk stands: the directories opened, the last one first, the entries still ahead, and
the files found, the last one first. -/
structure Stand where
  opened : List Location
  ahead : List Path
  found : List Path

section

variable (fs : FileSystem) (filters : Filters)

end

inductive Agree : Except Path (List Path) → Except Path (List Path) → Prop
  | ok {f g} (h : f.Perm g) : Agree (.ok f) (.ok g)
  | error {p q} : Agree (.error p) (.error q)

variable {fs : FileSystem} {filters : Filters} {root p : Path} {n : Nat} {s t : Stand}
  {r r' r'' : Except Path (List Path)}

theorem Enters.get?_eq {at_ : Location} (h : Enters fs filters p at_) :
    fs.get? at_ = some .directory :=
  (FileSystem.directoryAt?_eq_some_iff.1 h.directory).2

theorem Agree.refl (r : Except Path (List Path)) : Agree r r := by
  cases r with
  | error p => exact .error
  | ok f => exact .ok (.refl f)

theorem Agree.trans (h : Agree r r') (h' : Agree r' r'') : Agree r r'' := by
  cases h with
  | ok h =>
    cases h' with
    | ok h' => exact .ok (h.trans h')
  | error =>
    cases h' with
    | error => exact .error

theorem Agree.symm (h : Agree r r') : Agree r' r := by
  cases h with
  | ok h => exact .ok h.symm
  | error => exact .error

def outcome (fs : FileSystem) (filters : Filters) (s : Stand) : Except Path (List Path) :=
  (visit fs filters s.opened s.ahead).map (s.found.reverse ++ ·)

section

variable {opened : List Location} {ahead found : List Path}

end

end Walk

end FenceSync
