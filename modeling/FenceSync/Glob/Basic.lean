import FenceSync.Path.Basic
/-!
# Globs

A glob is a list of tokens that is matched against the bytes of a path. The meaning of a token is
the list of remainders it can leave of a text; a glob matches a text when it can leave nothing.
-/
namespace FenceSync.Glob

open Path (slash)

inductive Token
  | literal (c : Char)
  /-- One byte other than a slash. -/
  | any
  /-- Any bytes other than slashes. -/
  | star
  /-- Any directories, at the beginning of a pattern. -/
  | leadingDirs
  /-- Everything below, at the end of a pattern. -/
  | everythingBelow
  /-- Any directories between two parts of a pattern. -/
  | innerDirs
  /-- One byte in, or not in, a list of ranges. -/
  | oneOf (negated : Bool) (ranges : List (Char × Char))
  | alternatives (branches : List (List Token))
deriving Repr

/-- What remains after some bytes other than slashes. -/
def afterName : Bytes → List Bytes
  | [] => [[]]
  | b :: s => (b :: s) :: if b = slash then [] else afterName s

/-- What follows each slash. -/
def afterSlash : Bytes → List Bytes
  | [] => []
  | b :: s => if b = slash then s :: afterSlash s else afterSlash s

def suffixes : Bytes → List Bytes
  | [] => [[]]
  | b :: s => (b :: s) :: suffixes s

/-- Whether a byte is in the range of two characters. Of characters of several bytes the range joins
the last byte of the first to the first byte of the second, the other bytes stand for themselves. -/
def inRange (b : UInt8) (range : Char × Char) : Bool :=
  let low := String.utf8EncodeChar range.1
  let high := String.utf8EncodeChar range.2
  if range.1 = range.2 then low.contains b
  else low.dropLast.contains b || high.tail.contains b ||
    match low.getLast?, high.head? with
    | some l, some h => l ≤ b && b ≤ h
    | _, _ => false

mutual

/-- A token that has no form at all, such as alternatives without any. -/
def Token.isVoid : Token → Bool
  | .alternatives branches => allVoid branches
  | _ => false

def voidBranch : List Token → Bool
  | [] => true
  | t :: ts => t.isVoid && voidBranch ts

def allVoid : List (List Token) → Bool
  | [] => true
  | b :: bs => voidBranch b && allVoid bs

end

mutual

/-- What a token can leave of a text. Alternatives without form are passed over. -/
def Token.remainders : Token → Bytes → List Bytes
  | .literal c, s => ((String.utf8EncodeChar c).isPrefixOf? s).toList
  | .any, s =>
    match s with
    | b :: s => if b = slash then [] else [s]
    | [] => []
  | .star, s => afterName s
  | .leadingDirs, s => s :: afterSlash s
  | .everythingBelow, s =>
    match s with
    | b :: s => if b = slash then suffixes s else []
    | [] => []
  | .innerDirs, s =>
    match s with
    | b :: s => if b = slash then s :: afterSlash s else []
    | [] => []
  | .oneOf negated ranges, s =>
    match s with
    | b :: s => if ranges.any (inRange b) != negated then [s] else []
    | [] => []
  | .alternatives branches, s => if allVoid branches then [s] else branchRemainders branches s

/-- What the tokens, one after the other, can leave. -/
def remaindersAll : List Token → Bytes → List Bytes
  | [], s => [s]
  | t :: ts, s => ((t.remainders s).eraseDups.flatMap (remaindersAll ts)).eraseDups

def branchRemainders : List (List Token) → Bytes → List Bytes
  | [], _ => []
  | b :: bs, s => (if voidBranch b then [] else remaindersAll b s) ++ branchRemainders bs s

end

end Glob

/-- A pattern for paths. -/
structure Glob where
  tokens : List Glob.Token
deriving Repr

/-- A glob of directories alone matches every path. -/
def Glob.accepts (g : Glob) (path : Bytes) : Bool :=
  match g.tokens with
  | [.leadingDirs] => true
  | tokens => (Glob.remaindersAll tokens path).any (·.isEmpty)

end FenceSync
