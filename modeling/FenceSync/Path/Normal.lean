import FenceSync.Path.Basic
/-!
# Normal form of paths

`normalize` removes `.` and folds `..` into the name before it without looking at any file. In the
result `..` stands only in front, and an absolute path has none.
-/
namespace FenceSync.Path

/-- Adds a component to a normal list of components, which is given backwards. -/
def push (stack : List Component) : Component → List Component
  | .here => stack
  | .up =>
    match stack with
    | .name _ :: rest => rest
    | .root :: _ => stack
    | _ => .up :: stack
  | c => c :: stack

def normalComponents (cs : List Component) : List Component := (cs.foldl push []).reverse

def normalize (p : Path) : Path := ofComponents (normalComponents p.components)

/-- Where an embed path leads: `base` for a relative one, `workingDir` before a relative base. -/
def resolve (workingDir base target : Path) : Path := ((workingDir.join base).join target).normalize

end FenceSync.Path
