import FenceSync.Glob.Pattern
import FenceSync.Path.Basic
import FenceSync.Text.Blank
/-!
# Exclusion rules

Rules for leaving files and directories out, one a line. A rule that holds no slash but a final one
speaks about names at any depth; one that ends in a slash is about directories; an exclamation mark
takes paths back in. Of all rules that match a path the last decides.
-/
namespace FenceSync

structure ExclusionRule where
  glob : Glob
  /-- The rule takes paths back in. -/
  keeps : Bool
  directoriesOnly : Bool

/-- Rules, and the directory that the paths of the rules begin at. -/
structure Exclusions where
  base : Path
  rules : List ExclusionRule

namespace ExclusionRule

/-- The part of a line that is the rule: without the blanks at its end, unless the last of them is
escaped. Comments hold none. -/
def lineText (line : Text) : Text :=
  if Text.startsWith ['#'] line then []
  else if [' ', '\\'].isPrefixOf line.reverse then line
  else Text.trimEnd line

/-- The marks in front of a rule: whether it keeps paths, whether it is tied to the base directory,
and the rest. -/
def readMarks (line : Text) : Bool × Bool × Text :=
  match line with
  | '\\' :: '!' :: t => (false, false, '!' :: t)
  | '\\' :: '#' :: t => (false, false, '#' :: t)
  | '!' :: '/' :: t => (true, true, t)
  | '!' :: t => (true, false, t)
  | '/' :: t => (false, true, t)
  | t => (false, false, t)

/-- Takes off a final slash, with a backslash that escapes it. -/
def readSlash (t : Text) : Bool × Text :=
  match t.reverse with
  | '/' :: '\\' :: r => (true, r.reverse)
  | '/' :: r => (true, r.reverse)
  | _ => (false, t)

/-- The glob of a rule that is or is not tied to the base directory. -/
def globText (tied : Bool) (t : Text) : Text :=
  let anywhere := !tied && !t.elem '/' && t ≠ ['*', '*']
  let t := if anywhere then ['*', '*', '/'] ++ t else t
  if ['/', '*', '*'].isSuffixOf t then t ++ ['/', '*'] else t

/-- Reads a line; `none` when it holds no rule. -/
def ofLine (line : Text) : Except Text (Option ExclusionRule) :=
  let line := lineText line
  if line.isEmpty then .ok none
  else
    let (keeps, tied, t) := readMarks line
    let (directoriesOnly, t) := readSlash t
    match Glob.ofPattern true (globText tied t) with
    | .ok glob => .ok (some ⟨glob, keeps, directoriesOnly⟩)
    | .error fault => .error (Glob.faultIn line fault)

def applies (rule : ExclusionRule) (path : Bytes) (isDirectory : Bool) : Bool :=
  (!rule.directoriesOnly || isDirectory) && rule.glob.accepts path

end ExclusionRule

namespace Exclusions

open Path (dot slash)

/-- The bytes less the given beginning, or all of them when they begin otherwise. -/
def dropStart (beginning bytes : Bytes) : Bytes := (beginning.isPrefixOf? bytes).getD bytes

/-- The path that the rules see: from the base directory on, without a leading `./`. -/
def relevant (x : Exclusions) (path : Path) : Bytes :=
  let base := dropStart [dot, slash] x.base.bytes
  let seen := dropStart [dot, slash] path.bytes
  if Path.same ⟨base⟩ ⟨[dot]⟩ || !seen.elem slash then seen
  else match base.isPrefixOf? seen with
    | some rest => dropStart [slash] rest
    | none => seen

/-- Whether the rules leave the path out. -/
def ignores (x : Exclusions) (path : Path) (isDirectory : Bool) : Bool :=
  match x.rules.reverse.find? fun rule => rule.applies (x.relevant path) isDirectory with
  | some rule => !rule.keeps
  | none => false

/-- The rules of a list of patterns, or the first pattern that cannot be read and why. -/
def ofPatterns (base : Path) : List Text → Except (Text × Text) Exclusions
  | [] => .ok ⟨base, []⟩
  | p :: ps =>
    match ExclusionRule.ofLine p with
    | .error reason => .error (p, reason)
    | .ok rule? => (ofPatterns base ps).map fun x => { x with rules := rule?.toList ++ x.rules }

/-- The rules of a file's lines; lines that cannot be read hold none. -/
def ofLines (base : Path) (lines : List Text) : Exclusions :=
  ⟨base, lines.filterMap fun line =>
    match ExclusionRule.ofLine line with
    | .ok rule? => rule?
    | .error _ => none⟩

end Exclusions
end FenceSync
