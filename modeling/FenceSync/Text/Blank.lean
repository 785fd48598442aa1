import FenceSync.Text.Basic
/-!
# Blank characters

The characters with Unicode's property White_Space, and trimming a text of them.
-/
namespace FenceSync.Text

def isBlank (c : Char) : Bool :=
  let n := c.toNat
  (9 ≤ n && n ≤ 13) || n = 0x20 || n = 0x85 || n = 0xa0 || n = 0x1680 ||
    (0x2000 ≤ n && n ≤ 0x200a) || n = 0x2028 || n = 0x2029 || n = 0x202f || n = 0x205f || n = 0x3000

theorem isBlank_of_isWhitespace {c : Char} (h : c.isWhitespace = true) : isBlank c = true := by
  simp only [Char.isWhitespace, Bool.or_eq_true, decide_eq_true_eq] at h
  rcases h with ((h | h) | h) | h <;> subst h <;> decide

def trimStart (t : Text) : Text := t.dropWhile isBlank

def trimEnd (t : Text) : Text := dropEndWhile isBlank t

def trim (t : Text) : Text := trimEnd (trimStart t)

/-- A space or a tab. -/
def isIndent (c : Char) : Bool := c = ' ' || c = '\t'

theorem isBlank_of_isIndent {c : Char} (h : isIndent c = true) : isBlank c = true := by
  simp only [isIndent, Bool.or_eq_true, decide_eq_true_eq] at h
  rcases h with h | h <;> subst h <;> decide

end FenceSync.Text
