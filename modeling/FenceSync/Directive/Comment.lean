import FenceSync.FileType
import FenceSync.Text.Blank
/-!
# References in comments

Reading the reference out of a line that holds a comment. In a family with a marker the reference
follows the first marker after which the line ends in one word, at most one blank character between
them. In the XML family it stands between the two halves of a comment, with blanks around it.
-/
namespace FenceSync.Comment

/-- A word that runs to the end of the text, after at most one blank character. -/
def finalWord? (t : Text) : Option Text :=
  let word := match t with
    | c :: r => if Text.isBlank c then r else t
    | [] => []
  if word.any Text.isBlank then none else some word

/-- The shortest beginning of `t` without blanks that the closing text follows, blanks before that
text not counted. -/
def wordBefore? (close : Text) : Text → Option Text
  | [] => if close.isEmpty then some [] else none
  | c :: t =>
    if Text.startsWith close (Text.trimStart (c :: t)) then some []
    else if Text.isBlank c then none
    else (wordBefore? close t).map (c :: ·)

def xmlOpen : Text := ['<', '!', '-', '-']

def xmlClose : Text := ['-', '-', '>']

/-- The word of a comment that begins here. -/
def xmlWord? (t : Text) : Option Text :=
  (Text.after? xmlOpen t).bind fun r => wordBefore? xmlClose (Text.trimStart r)

/-- What the comment of a line holds, possibly nothing. -/
def word? (family : CommentFamily) (line : Text) : Option Text :=
  match family with
  | .none => none
  | .xml => Text.firstMatch? xmlWord? line
  | _ => family.marker?.bind fun marker =>
    Text.firstMatch? (fun t => (Text.after? marker t).bind finalWord?) line

/-- The reference in a line, which is never empty. -/
def reference? (family : CommentFamily) (line : Text) : Option Text :=
  (word? family line).filter fun word => !word.isEmpty

end FenceSync.Comment
