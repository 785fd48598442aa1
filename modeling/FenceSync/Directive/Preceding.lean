import FenceSync.Directive.Comment
/-!
# Directives before a block

The text between two blocks may hold comments that speak about the second one: `ignore-next` leaves
it alone, and `embed-directive` with a path names the file it is filled from.
-/
namespace FenceSync

structure Preceding where
  ignoreNext : Bool
  /-- The path of the first comment that names one. -/
  override? : Option Text
deriving DecidableEq, Repr

namespace Preceding

def keyword : Text := "embed-directive".toList

def ignoreNextWord : Text := "ignore-next".toList

/-- The text after `<!--`, blanks and the keyword. -/
def afterKeyword? (t : Text) : Option Text :=
  (Text.after? Comment.xmlOpen t).bind fun r => Text.after? keyword (Text.trimStart r)

/-- Reads an `ignore-next` comment that begins here. -/
def ignoreNextHere? (t : Text) : Option Unit :=
  match afterKeyword? t with
  | some (c :: r) =>
    if c = ' ' || c = '-' then
      match Text.after? ignoreNextWord r with
      | some r => if Text.startsWith Comment.xmlClose (Text.trimStart r) then some () else none
      | none => none
    else none
  | _ => none

/-- Reads the path of a comment that begins here. -/
def overrideHere? (t : Text) : Option Text :=
  match afterKeyword? t with
  | some (' ' :: r) =>
    match r.dropWhile (· = ' ') with
    | c :: r =>
      if Text.isBlank c then none else (Comment.wordBefore? Comment.xmlClose r).map (c :: ·)
    | [] => none
  | _ => none

def hasIgnoreNext (gap : Text) : Bool := (Text.firstMatch? ignoreNextHere? gap).isSome

def findOverride? (gap : Text) : Option Text := Text.firstMatch? overrideHere? gap

def scan (gap : Text) : Preceding := ⟨hasIgnoreNext gap, findOverride? gap⟩

end Preceding
end FenceSync
