import FenceSync.Text.Utf8
/-!
# Paths

A path keeps its spelling, which is any bytes: a name need not be a text. What a path means is read
off its components: repeated slashes and inner `.` parts are silent, and `..` stays. Order and
sameness of paths are those of their components.
-/
namespace FenceSync

structure Path where ofBytes ::
  bytes : Bytes
deriving DecidableEq, Repr, Inhabited

namespace Path

/-- The path that a text spells. -/
def mk (t : Text) : Path := ⟨t⟩

/-- The path as it is shown. -/
def text (p : Path) : Text := Text.ofBytes p.bytes

theorem text_mk (t : Text) : (mk t).text = t := Text.ofBytes_bytes t

abbrev slash : UInt8 := 0x2f

abbrev dot : UInt8 := 0x2e

inductive Component
  | root
  | here
  | up
  | name (bytes : Bytes)
deriving DecidableEq, Repr

namespace Component

/-- The component a part between slashes stands for; empty parts and `.` are silent. -/
def ofPart? (part : Bytes) : Option Component :=
  if part = [] || part = [dot] then none
  else if part = [dot, dot] then some .up
  else some (.name part)

def bytes : Component → Bytes
  | .root => [slash]
  | .here => [dot]
  | .up => [dot, dot]
  | .name n => n

def rank : Component → Nat
  | .root => 0
  | .here => 1
  | .up => 2
  | .name _ => 3

def compare : Component → Component → Ordering
  | .name a, .name b => Ord.compare a b
  | a, b => Ord.compare a.rank b.rank

end Component

def parts (p : Path) : List Bytes := p.bytes.splitOn slash

def isAbsolute (p : Path) : Bool := p.bytes.head? == some slash

/-- The names and `..` parts of a path. -/
def steps (p : Path) : List Component := p.parts.filterMap Component.ofPart?

/-- What stands in front of the steps; a leading `.` is a component of its own. -/
def leader (p : Path) : List Component :=
  if p.isAbsolute then [.root] else if p.parts.head? = some [dot] then [.here] else []

def components (p : Path) : List Component := p.leader ++ p.steps

/-- The plain spelling of a list of components. -/
def ofComponents : List Component → Path
  | .root :: cs => ⟨slash :: [slash].intercalate (cs.map Component.bytes)⟩
  | cs => ⟨[slash].intercalate (cs.map Component.bytes)⟩

/-- An absolute path replaces what it is joined to. -/
def join (base p : Path) : Path :=
  if p.isAbsolute then p
  else if base.bytes.isEmpty || base.bytes.getLast? == some slash then ⟨base.bytes ++ p.bytes⟩
  else ⟨base.bytes ++ slash :: p.bytes⟩

/-- The directory that holds what the path names. -/
def parent (p : Path) : Path := ofComponents p.components.dropLast

/-- The parts left when `n` components have been read, without silent parts in front. -/
def dropNamed : Nat → List Bytes → List Bytes
  | _, [] => []
  | n, part :: rest =>
    if (Component.ofPart? part).isNone then dropNamed n rest
    else match n with
      | 0 => part :: rest
      | n + 1 => dropNamed n rest

/-- The way from `base` to `p`, in the spelling that `p` has for it. -/
def relativeTo? (base p : Path) : Option Path :=
  if base.components.isPrefixOf p.components then
    let rest := match base.components with
      | [] => p.parts
      | .root :: cs | .here :: cs => dropNamed cs.length p.parts.tail
      | cs => dropNamed cs.length p.parts
    let silent := fun part => (Component.ofPart? part).isNone
    some ⟨[slash].intercalate (rest.reverse.dropWhile silent).reverse⟩
  else none

def compareComponents : List Component → List Component → Ordering
  | [], [] => .eq
  | [], _ :: _ => .lt
  | _ :: _, [] => .gt
  | a :: s, b :: t => (a.compare b).then (compareComponents s t)

def compare (p q : Path) : Ordering := compareComponents p.components q.components

/-- Two spellings of one path. -/
def same (p q : Path) : Bool := p.components == q.components

/-- Puts a path in its place in an ordered list, instead of another spelling of it. -/
def insertOrdered (p : Path) : List Path → List Path
  | [] => [p]
  | q :: qs =>
    match compare p q with
    | .lt => p :: q :: qs
    | .eq => p :: qs
    | .gt => q :: insertOrdered p qs

/-- Paths in order; of several spellings of one path the earliest in the list is kept. -/
def sortDistinct : List Path → List Path := List.foldr insertOrdered []

end Path
end FenceSync
