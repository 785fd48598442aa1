import FenceSync.Directive.Target
import FenceSync.Text.Blank
/-!
# Lines of a source

Cutting a source text into lines, selecting a range of them, and taking off the indentation they
share.
-/
namespace FenceSync.Snippet

/-- The lines of a text with either line ending. A final line ending begins an empty last line. -/
def lines (content : Text) : List Text := (content.splitOn '\n').map Text.dropReturn

/-- The lines of a range. What lies past the end is left out; a range that begins at zero begins at
the last line. -/
def select (range : Option LineRange) (lines : List Text) : List Text :=
  match range with
  | none => lines
  | some range =>
    let start := match range.first with
      | 0 => lines.length - 1
      | n + 1 => min n lines.length
    (lines.take (min range.last lines.length)).drop start

def leadingBlanks (line : Text) : Nat := (line.takeWhile Text.isBlank).length

/-- The least number of leading blanks since the last empty line, given that of the lines before;
`fresh` tells that the line before was empty. A line without leading blanks settles it. -/
def minimumIndentFrom (minimum : Option Nat) (fresh : Bool) : List Text → Nat
  | [] => minimum.getD 0
  | line :: rest =>
    if minimum = some 0 then 0
    else if line = [] then minimumIndentFrom minimum true rest
    else
      let leading := leadingBlanks line
      match minimum with
      | none => minimumIndentFrom (some leading) false rest
      | some m => minimumIndentFrom (some (if fresh then leading else min m leading)) false rest

/-- The indentation that the lines are said to share. An empty line starts the count anew. -/
def minimumIndent (lines : List Text) : Nat := minimumIndentFrom none false lines

/-- Takes the first `indent` characters off every line. -/
def dedent (indent : Nat) (lines : List Text) : List Text := lines.map (·.drop indent)

theorem length_dedent (indent : Nat) (lines : List Text) :
    (dedent indent lines).length = lines.length := by
  simp [dedent]

end FenceSync.Snippet
