import FenceSync.Text.Basic
/-!
# Line endings

A document uses one line ending throughout; a single CRLF makes it a CRLF document. `split` cuts a
text at an ending, `join` is its inverse.
-/
namespace FenceSync

inductive LineEnding
  | lf
  | crlf
deriving DecidableEq, Repr, Inhabited

namespace LineEnding

def text : LineEnding → Text
  | .lf => ['\n']
  | .crlf => ['\r', '\n']

/-- Any CRLF anywhere in the text wins. -/
def detect (t : Text) : LineEnding :=
  if Text.contains crlf.text t then .crlf else .lf

/-- The lines of a text that is cut at this ending only. -/
def split : LineEnding → Text → List Text
  | _, [] => [[]]
  | .lf, '\n' :: t => [] :: split .lf t
  | .crlf, '\r' :: '\n' :: t => [] :: split .crlf t
  | e, c :: t => (split e t).modifyHead (c :: ·)

def join (e : LineEnding) (lines : List Text) : Text := Text.join e.text lines

/-- The number of lines the text spans. -/
def lineCount (e : LineEnding) (t : Text) : Nat := (e.split t).length

/-- The number of line endings in the text. -/
def breaks (e : LineEnding) (t : Text) : Nat := e.lineCount t - 1

theorem split_ne_nil (e : LineEnding) (t : Text) : e.split t ≠ [] := by
  fun_induction split e t <;> simp_all

theorem join_cons_cons (e : LineEnding) (c : Char) {ls : List Text} (h : ls ≠ []) :
    e.join (ls.modifyHead (c :: ·)) = c :: e.join ls := by
  match ls, h with
  | [l], _ => simp [join, Text.join, List.intercalate]
  | l :: m :: ls, _ => simp [join, Text.join, List.intercalate]

theorem join_nil_cons (e : LineEnding) {ls : List Text} (h : ls ≠ []) :
    e.join ([] :: ls) = e.text ++ e.join ls := by
  match ls, h with
  | m :: ls, _ => simp [join, Text.join, List.intercalate]

theorem join_split (e : LineEnding) (t : Text) : e.join (e.split t) = t := by
  fun_induction split e t with
  | case1 => simp [join, Text.join, List.intercalate]
  | case2 t ih => rw [join_nil_cons _ (split_ne_nil _ _), ih]; rfl
  | case3 t ih => rw [join_nil_cons _ (split_ne_nil _ _), ih]; rfl
  | case4 e c t _ _ ih => rw [join_cons_cons _ _ (split_ne_nil _ _), ih]

theorem lineCount_eq_breaks_add_one (e : LineEnding) (t : Text) :
    e.lineCount t = e.breaks t + 1 := by
  have := List.length_pos_iff.2 (split_ne_nil e t)
  simp only [breaks, lineCount]
  omega

end LineEnding
end FenceSync
