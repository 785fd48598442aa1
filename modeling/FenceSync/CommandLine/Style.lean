import FenceSync.Text.Basic
/-!
# Colours of the terminal
-/
namespace FenceSync

inductive Style
  | red
  | green
  | yellow
  | blue
  | magenta
  | dimmed
deriving DecidableEq, Repr

namespace Style

def opening : Style → String
  | .red => "31"
  | .green => "32"
  | .yellow => "33"
  | .blue => "34"
  | .magenta => "35"
  | .dimmed => "2"

/-- What ends the style: the usual colour, or the usual weight. -/
def closing : Style → String
  | .dimmed => "0"
  | _ => "39"

def control (code : String) : Text := ['\x1b', '['] ++ code.toList ++ ['m']

/-- The text in a style, or as it is when there are no colours. -/
def apply (colors : Bool) (s : Style) (t : Text) : Text :=
  if colors then control s.opening ++ t ++ control s.closing else t

end Style
end FenceSync
